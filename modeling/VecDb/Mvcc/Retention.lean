import VecDb.Mvcc.History

/-! # Garbage collection and writes in flight

Garbage collection cuts a chain by position, so it keeps the versions in flight exactly where none
of them is older, on its chain, than a version the watermark covers.
-/

namespace VecDb.Mvcc

open List

section Chain

variable {V : Type*}

/-- No version in flight lies behind one that the watermark covers. -/
def Unburied (watermark : ℕ) (chain : List (VersionEntry V)) : Prop :=
  chain.Pairwise fun newer older => newer.committedBy watermark → older.seq ≠ 0

instance decidableUnburied (watermark : ℕ) (chain : List (VersionEntry V)) :
    Decidable (Unburied watermark chain) :=
  inferInstanceAs (Decidable (chain.Pairwise _))

def uncommitted (chain : List (VersionEntry V)) : List (VersionEntry V) :=
  chain.filter (·.seq == 0)

theorem uncommitted_cons_of_committedBy {watermark : ℕ} {e : VersionEntry V}
    (he : e.committedBy watermark) (chain : List (VersionEntry V)) :
    uncommitted (e :: chain) = uncommitted chain := by
  rw [VersionEntry.committedBy, Bool.and_eq_true, bne_iff_ne] at he
  simp [uncommitted, he.1]

theorem uncommitted_reachable_iff (watermark : ℕ) (chain : List (VersionEntry V)) :
    uncommitted (reachable watermark chain) = uncommitted chain ↔ Unburied watermark chain := by
  induction chain with
  | nil => simp [reachable, Unburied]
  | cons e chain ih =>
    rw [reachable, Unburied, pairwise_cons]
    by_cases he : e.committedBy watermark
    · rw [if_pos he, uncommitted_cons_of_committedBy he, uncommitted_cons_of_committedBy he]
      simp only [he, true_implies]
      constructor
      · intro h
        have hnil : uncommitted chain = [] := h.symm
        rw [uncommitted, filter_eq_nil_iff] at hnil
        have hne : ∀ d ∈ chain, d.seq ≠ 0 := fun d hd => by simpa using hnil d hd
        exact ⟨hne, pairwise_of_forall_mem_list fun d _ f hf _ => hne f hf⟩
      · rintro ⟨hne, -⟩
        refine (filter_eq_nil_iff.mpr fun d hd => ?_).symm
        simpa using hne d hd
    · have hcons : ∀ c : List (VersionEntry V), uncommitted (e :: c) =
          uncommitted [e] ++ uncommitted c := fun c => filter_append [e] c
      rw [if_neg he, hcons, hcons chain, append_right_inj, ih]
      simp [he, Unburied]

theorem uncommitted_gcChain_iff (watermark : ℕ) (chain : List (VersionEntry V)) :
    uncommitted (gcChain watermark chain) = uncommitted chain ↔ Unburied watermark chain := by
  cases chain with
  | nil => exact ⟨fun _ => .nil, fun _ => rfl⟩
  | cons e chain =>
    rw [← uncommitted_reachable_iff, gcChain_cons]
    split
    case isFalse => exact Iff.rfl
    case isTrue he =>
      -- the removed tombstone is committed: it is not among the versions compared
      rw [Bool.and_eq_true] at he
      rw [reachable, if_pos he.1, uncommitted_cons_of_committedBy he.1 [],
        uncommitted_cons_of_committedBy he.1]

end Chain

variable {K V : Type*} [DecidableEq K] {h : History (Cell K V)} {t : VersionTable K V} {txn : ℕ}

/-- Collection is called only where it buries no version in flight. -/
def Sheltered (t : VersionTable K V) (_ : History (Cell K V)) : Action (Cell K V) → Prop
  | .gc watermark => ∀ key, Unburied watermark (t.chains key)
  | _ => True

/-- Every pending write is known to the table and has a version in flight. -/
def Present (t : VersionTable K V) (h : History (Cell K V)) : Prop :=
  ∀ w ∈ h.pending, w.body.key ∈ t.staged w.txn ∧
    ∃ e ∈ t.chains w.body.key, e.inFlight w.txn

theorem inFlight_iff {e : VersionEntry V} : e.inFlight txn ↔ e.txn = txn ∧ e.seq = 0 := by
  simp [VersionEntry.inFlight]

theorem Present.settle (hp : Present t h)
    {f : List (VersionEntry V) → List (VersionEntry V)} (hf : ∀ c, f (f c) = f c)
    (hkeep : ∀ c, ∀ e ∈ c, e.txn ≠ txn → e ∈ f c) :
    ∀ w ∈ h.pending.filter (·.txn != txn), w.body.key ∈ (t.rewriteStaged txn f).staged w.txn ∧
      ∃ e ∈ (t.rewriteStaged txn f).chains w.body.key, e.inFlight w.txn := by
  intro w hw
  obtain ⟨hmem, hne⟩ := mem_filter.mp hw
  obtain ⟨hst, e, he, hfl⟩ := hp w hmem
  have hne : w.txn ≠ txn := by simpa using hne
  refine ⟨VersionTable.mem_rewriteStaged_staged.mpr ⟨hne, hst⟩, e, ?_, hfl⟩
  rw [VersionTable.rewriteStaged_chains hf]
  split
  · exact hkeep _ e he ((inFlight_iff.mp hfl).1 ▸ hne)
  · exact he

theorem Present.act (hp : Present t h)
    {a : Action (Cell K V)} (ha : Sheltered t h a) : Present (t.act a) (h.record a) := by
  cases a with
  | stage txn c =>
    intro w hw
    rw [VersionTable.act, VersionTable.mem_stage_staged, VersionTable.stage_chains]
    rcases mem_cons.mp hw with rfl | hw
    · exact ⟨.inr ⟨rfl, rfl⟩, _, by rw [if_pos rfl]; exact mem_cons_self, by
        simp [inFlight_iff]⟩
    · obtain ⟨hst, e, he, hfl⟩ := hp w hw
      refine ⟨.inl hst, e, ?_, hfl⟩
      split
      · exact mem_cons_of_mem _ he
      · exact he
  | commit txn seq =>
    refine hp.settle (fun c => ?_) fun c e he hne => ?_
    · rw [map_map]
      exact map_congr_left fun e _ => e.stamp_stamp txn seq
    · refine mem_map.mpr ⟨e, he, ?_⟩
      rw [VersionEntry.stamp, if_neg fun hfl => hne (inFlight_iff.mp hfl).1]
  | abort txn =>
    refine hp.settle (fun c => by rw [filter_filter]; simp) fun c e he hne => ?_
    refine mem_filter.mpr ⟨he, ?_⟩
    simp [VersionEntry.inFlight, hne]
  | gc watermark =>
    intro w hw
    obtain ⟨hst, e, he, hfl⟩ := hp w hw
    refine ⟨hst, e, ?_, hfl⟩
    have hkept := (uncommitted_gcChain_iff watermark _).mpr (ha w.body.key)
    have hmem : e ∈ uncommitted (t.chains w.body.key) :=
      mem_filter.mpr ⟨he, by simp [(inFlight_iff.mp hfl).2]⟩
    rw [← hkept] at hmem
    exact (mem_filter.mp hmem).1

theorem TableRun.present (hr : TableRun Sheltered t h) : Present t h := by
  induction hr with
  | init => intro w hw; cases hw
  | step a _ ha ih => exact ih.act ha

/-- In every run that collects only where no version in flight is buried, a collection keeps all of
them just if it buries none, and a commit stamps every key that its transaction has staged. -/
theorem commit_stamps_every_staged_key {t : VersionTable K V} {h : History (Cell K V)}
    (hr : TableRun Sheltered t h) :
    (∀ watermark, (∀ key, uncommitted ((t.gc watermark).chains key) = uncommitted (t.chains key)) ↔
      Sheltered t h (.gc watermark)) ∧
    ∀ txn seq, ∀ w ∈ h.pending, w.txn = txn →
      ∃ e ∈ (t.commit txn seq).chains w.body.key, e.txn = txn ∧ e.seq = seq := by
  refine ⟨fun watermark => forall_congr' fun key => uncommitted_gcChain_iff watermark _, ?_⟩
  rintro txn seq w hw rfl
  obtain ⟨hst, e, he, hfl⟩ := hr.present w hw
  refine ⟨e.stamp w.txn seq, ?_, ?_⟩
  · rw [VersionTable.commit_chains, if_pos hst]
    exact mem_map_of_mem he
  · rw [VersionEntry.stamp, if_pos hfl]
    exact ⟨(inFlight_iff.mp hfl).1, rfl⟩

section Runs

def overtakingRun : List (Action (Cell ℕ ℕ)) :=
  [.stage 1 { key := 0, val := 10 }, .stage 2 { key := 0, val := 20 }, .commit 2 5]

theorem overtakingRun_sheltered :
    TableRun Sheltered (runTable overtakingRun) (runHistory overtakingRun) := by
  refine reached_of_prefixes _ fun i hi a ha => ?_
  match i, hi with
  | 0, _ | 1, _ | 2, _ => cases ha; trivial

theorem commit_stamps_every_staged_key_below :
    (∀ key, uncommitted (((runTable overtakingRun).gc 4).chains key) =
      uncommitted ((runTable overtakingRun).chains key)) ∧
    ∃ e ∈ ((runTable overtakingRun).commit 1 6).chains 0, e.txn = 1 ∧ e.seq = 6 := by
  have h := commit_stamps_every_staged_key overtakingRun_sheltered
  refine ⟨(h.1 4).mpr fun key => ?_, h.2 1 6 ⟨1, { key := 0, val := 10 }⟩ (by decide) rfl⟩
  by_cases hk : key = 0
  · subst hk; decide
  · simp [runTable, overtakingRun, VersionTable.act, VersionTable.commit_chains,
      VersionTable.stage_chains, newVersionTable, hk, Unburied]

/-- At the overtaking commit, collection drops the version in flight behind it, and the
commit of its transaction stamps nothing. -/
theorem gc_drops_version_in_flight :
    ∃ (t : VersionTable ℕ ℕ) (h : History (Cell ℕ ℕ)), TableRun (fun _ _ _ => True) t h ∧
      ⟨1, { key := 0, val := 10 }⟩ ∈ h.pending ∧
      (∀ e ∈ (t.commit 1 6).chains 0, e.seq ≠ 6) := by
  refine ⟨runTable (overtakingRun ++ [.gc 5]), runHistory (overtakingRun ++ [.gc 5]), ?_,
    by decide, by decide⟩
  refine reached_of_prefixes (overtakingRun ++ [.gc 5]) fun _ _ _ _ => ?_
  trivial

end Runs

end VecDb.Mvcc

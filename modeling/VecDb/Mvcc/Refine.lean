import VecDb.Mvcc.History

/-! # What a snapshot reads in a version table

The chain of a key keeps the versions of the history down to one that a watermark covers. A
snapshot that sees every version so covered reads the newest write it sees in the history.
-/

namespace VecDb.Mvcc

open List VersionEntry Write

variable {K V : Type*} {c : ℕ × Write (Cell K V)} {s : Snapshot} {h : History (Cell K V)}
  {w : Write (Cell K V)} {txn : ℕ}

def Write.version (seq : ℕ) (w : Write (Cell K V)) : VersionEntry V :=
  { seq, txn := w.txn, val := w.body.val, tomb := w.body.tomb }

theorem inFlight_version_zero : (w.version 0).inFlight txn = (w.txn == txn) := by
  simp [inFlight, version]

theorem inFlight_version_committed (ho : h.Orderly) (hc : c ∈ h.committed) :
    (c.2.version c.1).inFlight txn = false := by
  simp [inFlight, version, ho.positive c hc]

theorem sees_version (hc : c.1 ≠ 0) : (c.2.version c.1).sees s = History.sees s c := by
  have hne : (c.1 != 0) = true := bne_iff_ne.mpr hc
  rw [sees, version, Snapshot.isVisible, History.sees, hne]
  by_cases htxn : c.2.txn = s.txnID
  · simp [htxn]
  · by_cases hin : c.2.txn ∈ s.inFlight <;> simp [htxn, hin]

theorem sees_version_zero : (w.version 0).sees s = (w.txn == s.txnID) := by
  by_cases htxn : w.txn = s.txnID <;>
    simp [sees, version, Snapshot.isVisible, htxn]

variable [DecidableEq K]

def History.versions (h : History (Cell K V)) (key : K) : List (VersionEntry V) :=
  (h.pending.filter (·.body.key == key)).map (Write.version 0) ++
    (h.committed.filter (·.2.body.key == key)).map fun c => c.2.version c.1

section Versions

variable {h : History (Cell K V)} {txn seq : ℕ} {key : K}

theorem versions_stage (c : Cell K V) : (h.record (.stage txn c)).versions key =
      if c.key = key then { txn, val := c.val, tomb := c.tomb } :: h.versions key
      else h.versions key := by
  by_cases hk : c.key = key <;> simp [History.versions, History.record, hk, version]

theorem versions_abort (ho : h.Orderly) : (h.record (.abort txn)).versions key =
      (h.versions key).filter fun e => !e.inFlight txn := by
  have hpending : ((h.pending.filter (·.body.key == key)).map (version 0)).filter
      (fun e => !e.inFlight txn) = ((h.pending.filter (·.txn != txn)).filter
        (·.body.key == key)).map (version (V := V) 0) := by
    rw [filter_map, filter_filter, filter_filter]
    congr 1
    refine filter_congr fun w _ => ?_
    simp only [Function.comp_apply, inFlight_version_zero, bne, Bool.and_comm]
  have hcommitted : ∀ e ∈ (h.committed.filter (·.2.body.key == key)).map
      (fun c => c.2.version c.1), (!e.inFlight txn) = true := by
    intro e he
    obtain ⟨c, hc, rfl⟩ := mem_map.mp he
    rw [inFlight_version_committed ho (mem_filter.mp hc).1]
    rfl
  rw [History.versions, History.versions, filter_append, hpending,
    List.filter_eq_self.mpr hcommitted]
  rfl

theorem versions_commit (ho : h.Orderly) : (h.record (.commit txn seq)).versions key =
      (h.versions key).map (stamp txn seq) := by
  have hcommitted : ((h.committed.filter (·.2.body.key == key)).map
      fun c => c.2.version c.1).map (stamp txn seq) =
        (h.committed.filter (·.2.body.key == key)).map fun c => c.2.version c.1 := by
    rw [map_map]
    refine map_congr_left fun c hc => ?_
    exact stamp_of_ne_zero (ho.positive c (mem_filter.mp hc).1)
  rw [History.versions, History.versions, map_append, hcommitted]
  rcases ho.settle txn with ⟨hall, hnone⟩ | ⟨hnone, hall⟩
  · -- the writer commits: all that is pending moves on top of what is committed
    simp only [History.record, hall, hnone, filter_nil, map_nil, nil_append,
      filter_append, map_append, filter_map, map_map, Function.comp_def]
    congr 1
    refine map_congr_left fun w hp => ?_
    have htxn : (w.txn == txn) = true :=
      List.filter_eq_self.mp hall w (mem_filter.mp hp).1
    rw [stamp, inFlight_version_zero, if_pos htxn]
    rfl
  · -- some other transaction commits nothing
    simp only [History.record, hall, hnone, map_nil, nil_append, map_map]
    congr 1
    refine (map_congr_left fun w hp => ?_).symm
    have htxn : ¬ (w.txn == txn) = true :=
      filter_eq_nil_iff.mp hnone w (mem_filter.mp hp).1
    rw [Function.comp_apply, stamp, inFlight_version_zero, if_neg htxn]

end Versions

/-- A table keeps the versions of a history, and knows which keys are pending. -/
structure Refines (t : VersionTable K V) (h : History (Cell K V)) : Prop where
  orderly : h.Orderly
  kept : ∀ key, Kept h.watermarks (t.chains key) (h.versions key)
  staged : ∀ txn key, key ∈ t.staged txn ↔ ∃ w ∈ h.pending, w.txn = txn ∧ w.body.key = key

namespace Refines

variable {t : VersionTable K V} {h : History (Cell K V)} {txn seq : ℕ}

theorem init : Refines (newVersionTable K V) {} where
  orderly := .init
  kept _ := .nil
  staged := by simp [newVersionTable]

theorem inFlight_eq_false (hr : Refines t h) {key : K} (hk : key ∉ t.staged txn)
    {e : VersionEntry V} (he : e ∈ h.versions key) : e.inFlight txn = false := by
  rcases mem_append.mp he with he | he
  · obtain ⟨w, hw, rfl⟩ := mem_map.mp he
    obtain ⟨hp, hkey⟩ := mem_filter.mp hw
    rw [inFlight_version_zero]
    exact beq_false_of_ne fun htxn => hk ((hr.staged txn key).mpr ⟨w, hp, htxn, by simpa using hkey⟩)
  · obtain ⟨c, hc, rfl⟩ := mem_map.mp he
    exact inFlight_version_committed hr.orderly (mem_filter.mp hc).1

theorem staged_settle (hr : Refines t h) {i : ℕ} {key : K} : (i ≠ txn ∧ key ∈ t.staged i) ↔
      ∃ w ∈ h.pending.filter (·.txn != txn), w.txn = i ∧ w.body.key = key := by
  rw [hr.staged]
  constructor
  · rintro ⟨hi, w, hw, rfl, hk⟩
    exact ⟨w, mem_filter.mpr ⟨hw, by simpa using hi⟩, rfl, hk⟩
  · rintro ⟨w, hw, rfl, hk⟩
    obtain ⟨hp, hne⟩ := mem_filter.mp hw
    exact ⟨by simpa using hne, w, hp, rfl, hk⟩

theorem act (hr : Refines t h) {a : Action (Cell K V)} (ha : h.OneWriter a) :
    Refines (t.act a) (h.record a) := by
  refine ⟨hr.orderly.record ha, fun key => ?_, fun i key => ?_⟩
  · cases a with
    | stage txn c =>
      rw [versions_stage, VersionTable.act, VersionTable.stage_chains]
      by_cases hk : c.key = key
      · rw [if_pos hk, if_pos hk.symm]
        exact .cons _ (hr.kept key)
      · rw [if_neg hk, if_neg (Ne.symm hk)]
        exact hr.kept key
    | commit txn seq =>
      rw [versions_commit hr.orderly, VersionTable.act, VersionTable.commit_chains]
      split
      case isTrue => exact (hr.kept key).stamp txn seq
      case isFalse hk =>
        have hsame : (h.versions key).map (VersionEntry.stamp txn seq) = h.versions key := by
          refine (map_congr_left fun e he => ?_).trans (map_id _)
          rw [VersionEntry.stamp, hr.inFlight_eq_false hk he]
          rfl
        rw [hsame]
        exact hr.kept key
    | abort txn =>
      rw [versions_abort hr.orderly, VersionTable.act, VersionTable.abort_chains]
      split
      case isTrue => exact (hr.kept key).drop_inFlight txn
      case isFalse hk =>
        rw [List.filter_eq_self.mpr fun e he => by simp [hr.inFlight_eq_false hk he]]
        exact hr.kept key
    | gc watermark => exact (hr.kept key).gcChain watermark
  · cases a with
    | stage txn c =>
      rw [VersionTable.act, VersionTable.mem_stage_staged, hr.staged]
      simp only [History.record, exists_mem_cons_iff]
      rw [or_comm, eq_comm (a := i), eq_comm (a := key)]
    | commit txn seq | abort txn =>
      exact VersionTable.mem_rewriteStaged_staged.trans hr.staged_settle
    | gc watermark => exact hr.staged i key

theorem visibleValue_versions (ho : h.Orderly) (s : Snapshot) (key : K) :
    visibleValue s (h.versions key) = readCells (h.seen s) key := by
  have hpending : (h.pending.filter (·.body.key == key)).find? (fun w => (w.version 0).sees s) =
      (h.pending.filter (·.txn == s.txnID)).find? (·.body.key == key) := by
    rw [← head?_filter, ← head?_filter, filter_filter, filter_filter]
    congr 1
    exact filter_congr fun w _ => by rw [sees_version_zero, Bool.and_comm]
  have hcommitted : (h.committed.filter (·.2.body.key == key)).find?
      (fun c => (c.2.version c.1).sees s) =
        (h.committed.filter (History.sees s)).find? (·.2.body.key == key) := by
    rw [← head?_filter, ← head?_filter, filter_filter, filter_filter]
    congr 1
    exact filter_congr fun c hc => by
      rw [sees_version (ho.positive c hc), Bool.and_comm]
  rw [visibleValue, visibleEntry, History.versions, find?_append, find?_map,
    find?_map, readCells, History.seen, find?_append, find?_map, find?_map]
  simp only [Function.comp_def] at hpending hcommitted ⊢
  rw [hpending, hcommitted]
  cases (h.pending.filter _).find? _ with
  | some w => rfl
  | none => cases (h.committed.filter _).find? _ <;> rfl

theorem visible (hr : Refines t h)
    (hs : ∀ c ∈ h.committed, ∀ w ∈ h.watermarks, c.1 ≤ w → History.sees s c) (key : K) :
    t.visible key s = readCells (h.seen s) key := by
  rw [← visibleValue_versions hr.orderly, VersionTable.visible]
  refine (hr.kept key).visibleValue fun e he hcov => ?_
  have hne : e.seq ≠ 0 := Kept.ne_zero_of_committedBy hcov
  obtain ⟨w, hw, hew⟩ := hcov
  rcases mem_append.mp he with he | he
  · obtain ⟨p, -, rfl⟩ := mem_map.mp he
    exact absurd rfl hne
  · obtain ⟨c, hc, rfl⟩ := mem_map.mp he
    rw [sees_version hne]
    rw [committedBy, Bool.and_eq_true, decide_eq_true_iff] at hew
    exact hs c (mem_filter.mp hc).1 w hw hew.2

end Refines

theorem TableRun.refines {t : VersionTable K V}
    (hr : TableRun (fun _ h a => h.OneWriter a) t h) : Refines t h := by
  induction hr with
  | init => exact .init
  | step a _ ha ih => exact ih.act ha

/-- In every run of one writer at a time, a snapshot whose read point is at least every watermark,
and whose in-flight transactions have committed nothing below one, reads the newest write that it
sees: its own, or the last committed up to the read point, if its own transaction has committed
nothing above that and those in flight nothing below. -/
theorem visible_eq_newest_seen {t : VersionTable K V} {h : History (Cell K V)}
    (hr : TableRun (fun _ h a => h.OneWriter a) t h) (s : Snapshot) (key : K)
    (hw : ∀ w ∈ h.watermarks, w ≤ s.readSeq)
    (hf : ∀ c ∈ h.committed, c.2.txn ∈ s.inFlight → c.2.txn ≠ s.txnID →
      ∀ w ∈ h.watermarks, w < c.1) :
    t.visible key s = readCells (h.seen s) key ∧
      ((∀ c ∈ h.committed, c.2.txn = s.txnID → c.1 ≤ s.readSeq) →
        (∀ c ∈ h.committed, c.2.txn ∈ s.inFlight → c.2.txn ≠ s.txnID → s.readSeq < c.1) →
        t.visible key s = readCells (h.upTo s) key) := by
  have hseen : t.visible key s = readCells (h.seen s) key := by
    refine hr.refines.visible (fun c hc w hwm hle => ?_) key
    by_cases htxn : c.2.txn = s.txnID
    · simp [History.sees, htxn]
    · by_cases hin : c.2.txn ∈ s.inFlight
      · exact absurd (hf c hc hin htxn w hwm) (Nat.not_lt.mpr hle)
      · simp [History.sees, hin, hle.trans (hw w hwm)]
  refine ⟨hseen, fun hown hin => ?_⟩
  have hsees : h.committed.filter (History.sees s) = h.committed.filter (·.1 ≤ s.readSeq) := by
    refine filter_congr fun c hc => ?_
    by_cases htxn : c.2.txn = s.txnID
    · simp [History.sees, htxn, hown c hc htxn]
    · by_cases hfl : c.2.txn ∈ s.inFlight
      · simp [History.sees, beq_false_of_ne htxn, hfl, Nat.not_le.mpr (hin c hc hfl htxn)]
      · simp [History.sees, beq_false_of_ne htxn, hfl]
  rw [hseen, History.seen, hsees, History.upTo]

section Runs

def versionRun : List (Action (Cell ℕ ℕ)) :=
  [.stage 1 { key := 0, val := 10 }, .commit 1 3, .stage 2 { key := 0, val := 20 }, .commit 2 5,
    .gc 4, .stage 3 { key := 0, val := 30 }, .abort 3]

theorem visible_eq_newest_seen_between :
    (runTable versionRun).visible 0 { readSeq := 4, txnID := 9, inFlight := [2] } = some 10 := by
  have hr : TableRun (fun _ h a => h.OneWriter a) (runTable versionRun) (runHistory versionRun) :=
    reached_of_prefixes versionRun (by decide)
  rw [(visible_eq_newest_seen hr { readSeq := 4, txnID := 9, inFlight := [2] } 0
    (by decide) (by decide)).1]
  decide

/-- A snapshot reads what its transaction committed after its read point, and nothing that a
transaction in flight committed before it. -/
theorem visible_own_and_in_flight :
    ∃ (t : VersionTable ℕ ℕ) (h : History (Cell ℕ ℕ)),
      TableRun (fun _ h a => h.OneWriter a) t h ∧ h.watermarks = [] ∧ h.pending = [] ∧
      h.committed = [(5, ⟨2, { key := 0, val := 20 }⟩), (3, ⟨1, { key := 0, val := 10 }⟩)] ∧
      t.visible 0 { readSeq := 4, txnID := 2 } = some 20 ∧
      t.visible 0 { readSeq := 6, txnID := 9, inFlight := [2] } = some 10 :=
  ⟨runTable (versionRun.take 4), runHistory (versionRun.take 4),
    reached_of_prefixes _ (by decide), by decide, by decide, by decide, by decide, by decide⟩

end Runs

end VecDb.Mvcc

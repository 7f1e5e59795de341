import VecDb.Mvcc.Delta
import Mathlib.Data.List.Basic
import Mathlib.Data.List.Induction
import Mathlib.Tactic.Ring

/-! # Version tables refine a history of committed writes

The history forgets nothing but what is aborted. With one writer at a time, a snapshot reads in a
table the newest write it sees in the history, if no watermark was above its read point.
-/

namespace VecDb.Mvcc

open List VersionEntry

structure Write (α : Type*) where
  txn : ℕ
  body : α
  deriving DecidableEq

/-- The writes still pending and those committed, each with its sequence; the newest of
either comes first. -/
structure History (α : Type*) where
  pending : List (Write α) := []
  committed : List (ℕ × Write α) := []
  last : ℕ := 0
  watermarks : List ℕ := []
  deriving DecidableEq

inductive Action (α : Type*) where
  | stage (txn : ℕ) (body : α)
  | commit (txn seq : ℕ)
  | abort (txn : ℕ)
  | gc (watermark : ℕ)

def Action.map {α β : Type*} (f : α → β) : Action α → Action β
  | .stage txn body => .stage txn (f body)
  | .commit txn seq => .commit txn seq
  | .abort txn => .abort txn
  | .gc watermark => .gc watermark

namespace History

variable {α : Type*} {h : History α} {a : Action α}

def record (h : History α) : Action α → History α
  | .stage txn body => { h with pending := ⟨txn, body⟩ :: h.pending }
  | .commit txn seq =>
    { h with
      pending := h.pending.filter (·.txn != txn)
      committed := (h.pending.filter (·.txn == txn)).map (seq, ·) ++ h.committed
      last := seq }
  | .abort txn => { h with pending := h.pending.filter (·.txn != txn) }
  | .gc watermark => { h with watermarks := watermark :: h.watermarks }

/-- At most one transaction has pending writes, and commit sequences increase. -/
def OneWriter (h : History α) : Action α → Prop
  | .stage txn _ => ∀ w ∈ h.pending, w.txn = txn
  | .commit _ seq => h.last < seq
  | _ => True

instance decidableOneWriter (h : History α) : ∀ a, Decidable (h.OneWriter a)
  | .stage txn _ => inferInstanceAs (Decidable (∀ w ∈ h.pending, w.txn = txn))
  | .commit _ seq => inferInstanceAs (Decidable (h.last < seq))
  | .abort _ => .isTrue trivial
  | .gc _ => .isTrue trivial

/-- A snapshot sees what its transaction committed, and what those not in flight to it committed
up to its read point. -/
def sees (s : Snapshot) (c : ℕ × Write α) : Bool :=
  c.2.txn == s.txnID || (decide (c.1 ≤ s.readSeq) && decide (c.2.txn ∉ s.inFlight))

def seen (h : History α) (s : Snapshot) : List α :=
  (h.pending.filter (·.txn == s.txnID)).map Write.body ++
    (h.committed.filter (sees s)).map (·.2.body)

/-- The writes of a snapshot's transaction, behind them all that are committed up to its read point. -/
def upTo (h : History α) (s : Snapshot) : List α :=
  (h.pending.filter (·.txn == s.txnID)).map Write.body ++
    (h.committed.filter (·.1 ≤ s.readSeq)).map (·.2.body)

/-- What holds of every history that one writer at a time has made. -/
structure Orderly (h : History α) : Prop where
  writer : ∃ txn, ∀ w ∈ h.pending, w.txn = txn
  positive : ∀ c ∈ h.committed, c.1 ≠ 0
  descending : h.committed.Pairwise fun c d => d.1 ≤ c.1
  le_last : ∀ c ∈ h.committed, c.1 ≤ h.last

theorem Orderly.init : Orderly ({} : History α) where
  writer := ⟨0, by simp⟩
  positive := by simp
  descending := .nil
  le_last := by simp

theorem Orderly.record (ho : h.Orderly) (ha : h.OneWriter a) : (h.record a).Orderly := by
  obtain ⟨w, hw⟩ := ho.writer
  cases a with
  | stage txn body =>
    have hall : ∀ w ∈ h.pending, w.txn = txn := ha
    exact ⟨⟨txn, by simpa [History.record] using hall⟩, ho.positive, ho.descending, ho.le_last⟩
  | commit txn seq =>
    have hlt : h.last < seq := ha
    have hnew : ∀ c ∈ (h.pending.filter (·.txn == txn)).map ((seq, ·) : Write α → ℕ × Write α),
        c.1 = seq := by
      intro c hc
      obtain ⟨p, -, rfl⟩ := mem_map.mp hc
      rfl
    refine ⟨⟨w, fun p hp => hw p (mem_filter.mp hp).1⟩, fun c hc => ?_, ?_, fun c hc => ?_⟩
    · rcases mem_append.mp hc with hc | hc
      · rw [hnew c hc]; omega
      · exact ho.positive c hc
    · refine pairwise_append.mpr ⟨pairwise_of_forall_mem_list fun c hc d hd => ?_,
        ho.descending, fun c hc d hd => ?_⟩
      · rw [hnew c hc, hnew d hd]
      · rw [hnew c hc]
        exact (ho.le_last d hd).trans hlt.le
    · rcases mem_append.mp hc with hc | hc
      · exact (hnew c hc).le
      · exact (ho.le_last c hc).trans hlt.le
  | abort txn =>
    exact ⟨⟨w, fun p hp => hw p (mem_filter.mp hp).1⟩, ho.positive, ho.descending, ho.le_last⟩
  | gc watermark => exact ⟨ho.writer, ho.positive, ho.descending, ho.le_last⟩

def writes (h : History α) : List α :=
  h.pending.map Write.body ++ h.committed.map (·.2.body)

/-- With one writer, a transaction other than the writer has nothing to settle. -/
theorem Orderly.settle (ho : h.Orderly) (txn : ℕ) :
    h.pending.filter (·.txn == txn) = h.pending ∧ h.pending.filter (·.txn != txn) = [] ∨
      h.pending.filter (·.txn == txn) = [] ∧ h.pending.filter (·.txn != txn) = h.pending := by
  obtain ⟨writer, hw⟩ := ho.writer
  by_cases htxn : writer = txn
  · exact .inl ⟨List.filter_eq_self.mpr fun w hp => by simp [hw w hp, htxn],
      filter_eq_nil_iff.mpr fun w hp => by simp [hw w hp, htxn]⟩
  · exact .inr ⟨filter_eq_nil_iff.mpr fun w hp => by simp [hw w hp, htxn],
      List.filter_eq_self.mpr fun w hp => by simp [hw w hp, htxn]⟩

theorem Orderly.writes_commit (ho : h.Orderly) (txn seq : ℕ) :
    (h.record (.commit txn seq)).writes = h.writes := by
  rcases ho.settle txn with ⟨hall, hnone⟩ | ⟨hnone, hall⟩ <;>
    simp [writes, History.record, hall, hnone, Function.comp_def]

theorem Orderly.writes_abort (ho : h.Orderly) (txn : ℕ) :
    (h.record (.abort txn)).writes <:+ h.writes := by
  rcases ho.settle txn with ⟨-, hnone⟩ | ⟨-, hall⟩
  · simp [writes, History.record, hnone]
  · simp [writes, History.record, hall]

/-- A snapshot sees all that is committed up to its read point, and all that comes before anything
it sees beyond. -/
structure Gapless (s : Snapshot) (h : History α) : Prop where
  below : ∀ c ∈ h.committed, c.1 ≤ s.readSeq → sees s c
  before : ∀ c ∈ h.committed, sees s c → ∀ d ∈ h.committed, d.1 ≤ c.1 → sees s d
  pending : (∃ w ∈ h.pending, w.txn = s.txnID) → ∀ c ∈ h.committed, sees s c

theorem filter_suffix {β : Type*} {p : β → Bool} {l : List β}
    (h : l.Pairwise fun a b => p a → p b) : l.filter p <:+ l := by
  induction l with
  | nil => exact suffix_rfl
  | cons a l ih =>
    rw [pairwise_cons] at h
    by_cases ha : p a
    · have hall : (a :: l).filter p = a :: l :=
        List.filter_eq_self.mpr fun b hb => (mem_cons.mp hb).elim (· ▸ ha) (h.1 b · ha)
      exact hall.symm ▸ suffix_rfl
    · rw [filter_cons_of_neg ha]
      exact (ih h.2).trans (suffix_cons a l)

theorem Gapless.seen_suffix {s : Snapshot} (hg : Gapless s h) (ho : h.Orderly) :
    h.seen s <:+ h.writes := by
  rcases ho.settle s.txnID with ⟨hall, hnone⟩ | ⟨hnone, -⟩
  · by_cases hp : h.pending = []
    case neg =>
      -- its own writes are pending: it sees everything
      obtain ⟨w, hw⟩ := exists_mem_of_ne_nil _ hp
      have hown : ∃ w ∈ h.pending, w.txn = s.txnID := by
        rw [← hall] at hw
        obtain ⟨hw, htxn⟩ := mem_filter.mp hw
        exact ⟨w, hw, by simpa using htxn⟩
      rw [seen, hall, List.filter_eq_self.mpr (hg.pending hown)]
      exact suffix_rfl
    case pos =>
      rw [seen, writes, hp]
      refine (filter_suffix ?_).map _
      exact ho.descending.imp_of_mem fun hc hd hle hsees => hg.before _ hc hsees _ hd hle
  · rw [seen, hnone, writes]
    have hsuffix : h.committed.filter (sees s) <:+ h.committed := filter_suffix
      (ho.descending.imp_of_mem fun hc hd hle hsees => hg.before _ hc hsees _ hd hle)
    exact (hsuffix.map _).trans (suffix_append _ _)

/-- The snapshot a writer reads by: everything committed so far, and its own writes. -/
def view (h : History α) (txn : ℕ) : Snapshot := { readSeq := h.last, txnID := txn }

theorem Orderly.sees_view (ho : h.Orderly) (txn : ℕ) {c : ℕ × Write α}
    (hc : c ∈ h.committed) : sees (h.view txn) c := by
  simp [sees, view, ho.le_last c hc]

theorem Orderly.seen_view (ho : h.Orderly) {txn : ℕ}
    (hw : ∀ w ∈ h.pending, w.txn = txn) : h.seen (h.view txn) = h.writes := by
  rw [seen, List.filter_eq_self.mpr fun w hp => by simp [hw w hp, view],
    List.filter_eq_self.mpr fun c hc => ho.sees_view txn hc]
  rfl

section Map

variable {β : Type*} (f : α → β)

def map (h : History α) : History β where
  pending := h.pending.map fun w => ⟨w.txn, f w.body⟩
  committed := h.committed.map fun c => (c.1, ⟨c.2.txn, f c.2.body⟩)
  last := h.last
  watermarks := h.watermarks

theorem record_map (h : History α) (a : Action α) :
    (h.map f).record (a.map f) = (h.record a).map f := by
  cases a with
  | stage txn body => rfl
  | commit | abort => simp [record, Action.map, map, filter_map, Function.comp_def]
  | gc watermark => rfl

theorem oneWriter_map (ha : h.OneWriter a) : (h.map f).OneWriter (a.map f) := by
  cases a with
  | stage txn body =>
    intro w hw
    obtain ⟨v, hv, rfl⟩ := mem_map.mp hw
    exact ha v hv
  | commit txn seq => exact ha
  | abort txn | gc watermark => trivial

theorem seen_map (h : History α) (s : Snapshot) : (h.map f).seen s = (h.seen s).map f := by
  simp only [seen, map, filter_map, map_append, map_map]
  rfl

end Map

end History

section Run

variable {S α : Type*} (act : S → Action α → S) (start : S)

/-- The states that runs reach, each with the history so far, if every action is taken
only where a guard allows it. -/
inductive Reached (G : S → History α → Action α → Prop) : S → History α → Prop
  | init : Reached G start {}
  | step {s h} (a : Action α) : Reached G s h → G s h a → Reached G (act s a) (h.record a)

variable {act start} {G : S → History α → Action α → Prop}

/-- The actions of a list reach what they make, if each is allowed where it is taken. -/
theorem reached_of_prefixes (as : List (Action α)) (h : ∀ i < as.length, ∀ a ∈ as[i]?,
      G ((as.take i).foldl act start) ((as.take i).foldl History.record {}) a) :
    Reached act start G (as.foldl act start) (as.foldl History.record {}) := by
  induction as using List.reverseRecOn with
  | nil => exact .init
  | append_singleton as a ih =>
    have hlast := h as.length (by simp) a (by simp)
    rw [take_left] at hlast
    rw [foldl_append, foldl_append]
    refine .step a (ih fun i hi b hb => ?_) hlast
    have hpre := h i (by rw [length_append]; omega) b
      (by rw [getElem?_append_left hi]; exact hb)
    rwa [take_append_of_le_length hi.le] at hpre

end Run

/-- A write to a version table: a value, or a tombstone, for a key. -/
structure Cell (K V : Type*) where
  key : K
  val : V
  tomb : Bool := false
  deriving DecidableEq

section Table

variable {K V : Type*} [DecidableEq K]

def VersionTable.act (t : VersionTable K V) : Action (Cell K V) → VersionTable K V
  | .stage txn c => t.stage c.key txn c.val c.tomb
  | .commit txn seq => t.commit txn seq
  | .abort txn => t.abort txn
  | .gc watermark => t.gc watermark

def TableRun (G : VersionTable K V → History (Cell K V) → Action (Cell K V) → Prop)
    (t : VersionTable K V) (h : History (Cell K V)) : Prop :=
  Reached VersionTable.act (newVersionTable K V) G t h

def runTable (as : List (Action (Cell K V))) : VersionTable K V :=
  as.foldl VersionTable.act (newVersionTable K V)

def runHistory {α : Type*} (as : List (Action α)) : History α := as.foldl History.record {}

/-- The newest write to a key decides: a tombstone leaves nothing. -/
def readCells (cells : List (Cell K V)) (key : K) : Option V :=
  (cells.find? (·.key == key)).bind fun c => if c.tomb then none else some c.val

end Table

/-- A chain keeps the versions down to one that is committed by a watermark, which may go if it is
a tombstone. -/
inductive Kept {V : Type*} (ws : List ℕ) : List (VersionEntry V) → List (VersionEntry V) → Prop
  | nil : Kept ws [] []
  | base (e rest) : (∃ w ∈ ws, e.committedBy w) → Kept ws [e] (e :: rest)
  | dead (e rest) : (∃ w ∈ ws, e.committedBy w) → e.tomb → Kept ws [] (e :: rest)
  | cons (e) {c f} : Kept ws c f → Kept ws (e :: c) (e :: f)

namespace Kept

variable {V : Type*} {ws : List ℕ} {c f : List (VersionEntry V)}

theorem visibleValue (h : Kept ws c f) {s : Snapshot}
    (hs : ∀ e ∈ f, (∃ w ∈ ws, e.committedBy w) → e.sees s) :
    Mvcc.visibleValue s c = Mvcc.visibleValue s f := by
  induction h with
  | nil => rfl
  | base e rest he =>
    rw [visibleValue_cons, visibleValue_cons, if_pos (hs e (by simp) he),
      if_pos (hs e (by simp) he)]
  | dead e rest he ht =>
    rw [visibleValue_cons, if_pos (hs e (by simp) he), value, if_pos ht]
    rfl
  | cons e _ ih =>
    rw [visibleValue_cons, visibleValue_cons, ih fun d hd => hs d (mem_cons_of_mem _ hd)]

theorem ne_zero_of_committedBy {e : VersionEntry V} (he : ∃ w ∈ ws, e.committedBy w) :
    e.seq ≠ 0 := by
  obtain ⟨w, -, hw⟩ := he
  rw [committedBy, Bool.and_eq_true] at hw
  simpa using hw.1

section

variable (h : Kept ws c f)
include h

theorem stamp (txn seq : ℕ) : Kept ws (c.map (stamp txn seq)) (f.map (stamp txn seq)) := by
  induction h with
  | nil => exact nil
  | base e rest he =>
    simp only [map_cons, map_nil, stamp_of_ne_zero (ne_zero_of_committedBy he)]
    exact base e _ he
  | dead e rest he ht =>
    simp only [map_cons, map_nil, stamp_of_ne_zero (ne_zero_of_committedBy he)]
    exact dead e _ he ht
  | cons e _ ih => exact cons _ ih

theorem drop_inFlight (txn : ℕ) :
    Kept ws (c.filter fun e => !e.inFlight txn) (f.filter fun e => !e.inFlight txn) := by
  have hstay : ∀ {e : VersionEntry V} (rest : List (VersionEntry V)),
      (∃ w ∈ ws, e.committedBy w) → (e :: rest).filter (fun e => !e.inFlight txn) =
        e :: rest.filter fun e => !e.inFlight txn := by
    intro e rest he
    simp [inFlight, ne_zero_of_committedBy he]
  induction h with
  | nil => exact nil
  | base e rest he =>
    rw [hstay [] he, hstay rest he]
    exact base e _ he
  | dead e rest he ht =>
    rw [hstay rest he]
    exact dead e _ he ht
  | cons e _ ih =>
    simp only [filter_cons]
    split
    · exact cons e ih
    · exact ih

theorem mono (w : ℕ) : Kept (w :: ws) c f := by
  have hmem : ∀ {e : VersionEntry V}, (∃ v ∈ ws, e.committedBy v) →
      ∃ v ∈ w :: ws, e.committedBy v :=
    fun ⟨v, hv, he⟩ => ⟨v, mem_cons_of_mem _ hv, he⟩
  induction h with
  | nil => exact nil
  | base e rest he => exact base e rest (hmem he)
  | dead e rest he ht => exact dead e rest (hmem he) ht
  | cons e _ ih => exact cons e ih

theorem reachable (w : ℕ) : Kept (w :: ws) (Mvcc.reachable w c) f := by
  induction h with
  | nil => exact nil
  | base e rest he =>
    rw [Mvcc.reachable]
    split <;> exact (base e rest he).mono w
  | dead e rest he ht => exact (dead e rest he ht).mono w
  | cons e _ ih =>
    rw [Mvcc.reachable]
    split
    case isTrue he => exact base e _ ⟨w, by simp, he⟩
    case isFalse => exact cons e ih

theorem gcChain (w : ℕ) : Kept (w :: ws) (Mvcc.gcChain w c) f := by
  cases c with
  | nil => exact h.mono w
  | cons e c =>
    rw [gcChain_cons]
    split
    case isFalse => exact h.reachable w
    case isTrue he =>
      rw [Bool.and_eq_true] at he
      have hw : ∃ v ∈ w :: ws, e.committedBy v := ⟨w, by simp, he.1⟩
      cases h with
      | base | cons => exact dead e _ hw he.2

end

end Kept

end VecDb.Mvcc

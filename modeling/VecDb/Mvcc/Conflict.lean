import Mathlib.Data.Finset.Card
import Mathlib.Tactic.Ring

/-! # First committer wins

A ring retains the write-sets of recent commits. A committing transaction is validated
against those committed after its read point, and refused when the oldest one retained
shows that some of them may have been pruned.
-/

namespace VecDb.Mvcc

/-- What a transaction modified: the point ids two transactions conflict on. -/
structure WriteSet where
  modifiedPointIDs : Finset UInt64 := ∅
  deriving DecidableEq

namespace WriteSet

/-- Whether two write-sets share a point id, looked up from the smaller one. -/
def conflictsWith (ws other : WriteSet) : Bool :=
  let small := other.modifiedPointIDs.card < ws.modifiedPointIDs.card
  let a := if small then other else ws
  let b := if small then ws else other
  decide (∃ id ∈ a.modifiedPointIDs, id ∈ b.modifiedPointIDs)

theorem conflictsWith_eq_false {ws other : WriteSet} :
    ws.conflictsWith other = false ↔ Disjoint ws.modifiedPointIDs other.modifiedPointIDs := by
  rw [conflictsWith, decide_eq_false_iff_not]
  by_cases h : other.modifiedPointIDs.card < ws.modifiedPointIDs.card
  · simp only [if_pos h]
    rw [disjoint_comm, Finset.disjoint_left]
    simp
  · simp only [if_neg h]
    rw [Finset.disjoint_left]
    simp

end WriteSet

structure CommittedWrite where
  txn : ℕ
  seq : UInt64
  writeSet : WriteSet
  deriving DecidableEq

/-- The write-sets of recent commits, by ascending sequence. -/
structure CommittedRing where
  entries : List CommittedWrite := []
  deriving DecidableEq

inductive ConflictErr where
  | writeConflict (txn : ℕ)
  | snapshotExpired
  deriving DecidableEq

namespace CommittedRing

def record (r : CommittedRing) (c : CommittedWrite) : CommittedRing := ⟨r.entries ++ [c]⟩

/-- The first retained commit after the read point that shares a point id; a read point too far
below the oldest one is refused. The sum wraps. -/
def validate (r : CommittedRing) (readSeq : UInt64) (ws : WriteSet) : Except ConflictErr Unit :=
  if r.entries.head?.any fun c => decide (readSeq + 1 < c.seq) then .error .snapshotExpired
  else
    match r.entries.find? fun c => decide (readSeq < c.seq) && ws.conflictsWith c.writeSet with
    | some c => .error (.writeConflict c.txn)
    | none => .ok ()

def prune (r : CommittedRing) (watermark : UInt64) : CommittedRing :=
  ⟨r.entries.dropWhile fun c => decide (c.seq < watermark)⟩

/-- The rings that runs reach, with every write-set ever recorded. -/
inductive Reached : CommittedRing → List CommittedWrite → Prop
  | init : Reached {} []
  | record {r all} (c) : Reached r all → (∀ d ∈ all, d.seq < c.seq) →
      Reached (r.record c) (all ++ [c])
  | prune {r all} (watermark) : Reached r all → Reached (r.prune watermark) all

variable {r : CommittedRing} {all : List CommittedWrite} {readSeq : UInt64}

theorem Reached.ascending (hr : Reached r all) : all.Pairwise (·.seq < ·.seq) := by
  induction hr with
  | init => exact .nil
  | record c _ hc ih =>
    exact List.pairwise_append.mpr ⟨ih, List.pairwise_singleton _ _, fun d hd e he => by
      rw [List.mem_singleton.mp he]; exact hc d hd⟩
  | prune _ _ ih => exact ih

theorem Reached.suffix (hr : Reached r all) : r.entries <:+ all := by
  induction hr with
  | init => exact List.suffix_rfl
  | record c _ _ ih =>
    obtain ⟨gone, rfl⟩ := ih
    exact ⟨gone, by rw [CommittedRing.record, List.append_assoc]⟩
  | prune watermark _ ih => exact (List.dropWhile_suffix _).trans ih

theorem validate_eq_ok {ws : WriteSet} (h : r.validate readSeq ws = .ok ()) :
    (∀ c ∈ r.entries.head?, c.seq ≤ readSeq + 1) ∧
      ∀ c ∈ r.entries, readSeq < c.seq → Disjoint ws.modifiedPointIDs c.writeSet.modifiedPointIDs := by
  rw [validate] at h
  split at h
  · cases h
  case isFalse hexp =>
    split at h
    · cases h
    case h_2 hnone =>
      refine ⟨fun c hc => ?_, fun c hc hlt => ?_⟩
      · rw [hc, Option.any_some, decide_eq_true_iff] at hexp
        exact UInt64.not_lt.mp hexp
      · have hno := List.find?_eq_none.mp hnone c hc
        rw [decide_eq_true hlt, Bool.true_and, Bool.not_eq_true] at hno
        exact WriteSet.conflictsWith_eq_false.mp hno

theorem Reached.forgotten_le (hr : Reached r all) {oldest : CommittedWrite}
    (hold : oldest ∈ r.entries.head?) (hle : oldest.seq ≤ readSeq + 1) {c : CommittedWrite}
    (hc : c ∈ all) (hgone : c ∉ r.entries) : ¬ readSeq < c.seq := by
  intro hlt
  obtain ⟨gone, rfl⟩ := hr.suffix
  have hmem : c ∈ gone := (List.mem_append.mp hc).resolve_right hgone
  have hbefore := (List.pairwise_append.mp hr.ascending).2.2 c hmem oldest
    (List.mem_of_mem_head? hold)
  rw [UInt64.lt_iff_toNat_lt] at hlt hbefore
  rw [UInt64.le_iff_toNat_le, UInt64.toNat_add] at hle
  have hone : (1 : UInt64).toNat = 1 := rfl
  omega

/-- Validation at a read point is sound for all write-sets exactly if the ring retains a commit,
or nothing was modified after that point. -/
theorem validate_sound_iff (hr : Reached r all) (readSeq : UInt64) :
    (∀ ws, r.validate readSeq ws = .ok () → ∀ c ∈ all, readSeq < c.seq →
      Disjoint ws.modifiedPointIDs c.writeSet.modifiedPointIDs) ↔
    (r.entries ≠ [] ∨ ∀ c ∈ all, readSeq < c.seq → c.writeSet.modifiedPointIDs = ∅) := by
  constructor
  · intro h
    by_contra hno
    rw [not_or, not_not] at hno
    refine hno.2 fun c hc hlt => ?_
    have hok : r.validate readSeq c.writeSet = .ok () := by rw [validate, hno.1]; rfl
    exact disjoint_self.mp (h c.writeSet hok c hc hlt)
  · rintro (hne | hempty) ws hok c hc hlt
    · obtain ⟨oldest, hold⟩ := Option.ne_none_iff_exists'.mp (mt List.head?_eq_none_iff.mp hne)
      obtain ⟨hle, hdis⟩ := validate_eq_ok hok
      by_cases hin : c ∈ r.entries
      · exact hdis c hin hlt
      · exact absurd hlt (hr.forgotten_le hold (hle oldest hold) hc hin)
    · rw [hempty c hc hlt]
      exact disjoint_bot_right

def twoCommits : List CommittedWrite := [⟨1, 10, ⟨{1}⟩⟩, ⟨2, 11, ⟨{1}⟩⟩]

theorem reached_twoCommits : Reached (prune ⟨twoCommits⟩ 11) twoCommits :=
  .prune 11 (.record ⟨2, 11, ⟨{1}⟩⟩ (.record ⟨1, 10, ⟨{1}⟩⟩ .init (by simp)) (by decide))

theorem validate_sound_iff_retained :
    (prune ⟨twoCommits⟩ 11).validate 10 ⟨{2}⟩ = .ok () ∧
      ∀ c ∈ twoCommits, 10 < c.seq → Disjoint {2} c.writeSet.modifiedPointIDs :=
  ⟨by decide, (validate_sound_iff reached_twoCommits 10).mpr (.inl (by decide)) ⟨{2}⟩ (by decide)⟩

/-- Once its only commit is pruned, a ring accepts a transaction that conflicts with it. -/
theorem validate_accepts_pruned_conflict :
    ∃ (r : CommittedRing) (all : List CommittedWrite), Reached r all ∧
      r.validate 0 ⟨{1}⟩ = .ok () ∧
      ∃ c ∈ all, 0 < c.seq ∧ 1 ∈ c.writeSet.modifiedPointIDs :=
  ⟨(CommittedRing.record {} ⟨1, 10, ⟨{1}⟩⟩).prune 11, [⟨1, 10, ⟨{1}⟩⟩],
    .prune 11 (.record _ .init (by simp)), by decide, ⟨1, 10, ⟨{1}⟩⟩, by decide, by decide,
    by decide⟩

end CommittedRing

end VecDb.Mvcc

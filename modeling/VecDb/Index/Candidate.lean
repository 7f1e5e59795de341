import Mathlib.Data.Prod.Lex
import VecDb.Base.Heap
import VecDb.Base.Ranking

/-! # Candidates and the search heaps

Candidates are ranked by distance and then by position. The frontier of a search is a heap with
the nearest candidate at its root, the results one with the farthest.
-/

namespace VecDb.Index

open List Heap

structure Candidate (D : Type*) where
  position : UInt32
  distance : D
  deriving DecidableEq, Inhabited

section Order

variable {D : Type*} [LinearOrder D] {a b : Candidate D} {cs : List (Candidate D)}

def minLess (a b : Candidate D) : Bool :=
  if a.distance ≠ b.distance then a.distance < b.distance else a.position < b.position

def maxLess (a b : Candidate D) : Bool :=
  if a.distance ≠ b.distance then b.distance < a.distance else b.position < a.position

def Candidate.rank (c : Candidate D) : D ×ₗ ℕ := toLex (c.distance, c.position.toNat)

theorem minLess_iff : minLess a b = true ↔ a.rank < b.rank := by
  unfold minLess Candidate.rank
  rw [Prod.Lex.toLex_lt_toLex]
  by_cases h : a.distance = b.distance <;> simp [h, UInt32.lt_iff_toNat_lt]

theorem maxLess_iff : maxLess a b = true ↔ b.rank < a.rank := by
  rw [← minLess_iff]
  simp only [maxLess, minLess, ne_comm]

theorem ranks_minLess : Heap.Ranks (@minLess D _) :=
  ranks_of_rank Candidate.rank fun _ _ => minLess_iff

theorem ranks_maxLess : Heap.Ranks (@maxLess D _) :=
  ranks_of_rank (fun c => OrderDual.toDual c.rank) fun _ _ => maxLess_iff

def sortCandidates (cs : List (Candidate D)) : List (Candidate D) :=
  cs.mergeSort fun a b => !minLess b a

theorem sortCandidates_perm : (sortCandidates cs).Perm cs := mergeSort_perm cs _

theorem sorted_sortCandidates (h : (cs.map (·.position)).Nodup) :
    (sortCandidates cs).Pairwise fun a b => a.rank < b.rank := by
  refine Ranking.pairwise_lt_mergeSort (fun a b => ?_) (.of_map _ h) fun a ha b hb heq => ?_
  · rw [Bool.not_eq_true', ← Bool.not_eq_true, minLess_iff, not_lt]
  · refine inj_on_of_nodup_map h ha hb (UInt32.toNat_inj.mp ?_)
    exact congrArg (fun r => (ofLex r).2) heq

end Order

section Heap

variable {α : Type*} [Inhabited α] (less : α → α → Bool)

def smallest (l : List α) (i : ℕ) : ℕ :=
  let s := if 2 * i + 1 < l.length ∧ less (Heap.get l (2 * i + 1)) (Heap.get l i) then 2 * i + 1
    else i
  if 2 * i + 2 < l.length ∧ less (Heap.get l (2 * i + 2)) (Heap.get l s) then 2 * i + 2 else s

def down : ℕ → List α → ℕ → List α
  | 0, l, _ => l
  | fuel + 1, l, i =>
    if smallest less l i = i then l
    else down fuel (Heap.swap l i (smallest less l i)) (smallest less l i)

def pop (l : List α) : α × List α :=
  (Heap.get l 0, down less l.length (l.set 0 (Heap.get l (l.length - 1))).dropLast 0)

variable {less} {l : List α} (hr : Heap.Ranks less)
include hr

theorem smallest_eq (i : ℕ) : smallest less l i =
    if l.length ≤ 2 * i + 1 then i
    else if less (Heap.get l (Heap.child less l i l.length)) (Heap.get l i) then
      Heap.child less l i l.length else i := by
  have htrans := @hr.trans (Heap.get l (2 * i + 2)) (Heap.get l (2 * i + 1)) (Heap.get l i)
  have htrans' := @hr.trans (Heap.get l (2 * i + 1)) (Heap.get l (2 * i + 2)) (Heap.get l i)
  have hasymm := @hr.asymm (Heap.get l (2 * i + 2)) (Heap.get l (2 * i + 1))
  unfold smallest Heap.child
  grind

theorem down_eq (fuel i : ℕ) : down less fuel l i = Heap.down less fuel l i l.length := by
  induction fuel generalizing l i with
  | zero => rfl
  | succ fuel ih =>
    have hlt := @Heap.lt_child _ _ less l i l.length
    rw [down, Heap.down, smallest_eq hr]
    by_cases hn : l.length ≤ 2 * i + 1
    · rw [if_pos hn, if_pos hn, if_pos rfl]
    · rw [if_neg hn, if_neg hn]
      by_cases hc : less (Heap.get l (Heap.child less l i l.length)) (Heap.get l i) = true
      · rw [if_pos hc, if_pos hc, if_neg hlt.ne', ih, Heap.length_swap]
      · rw [if_neg hc, if_neg hc, if_pos rfl]

theorem pop_perm (h : l ≠ []) : ((pop less l).1 :: (pop less l).2).Perm l := by
  obtain ⟨x, t, rfl⟩ := exists_cons_of_ne_nil h
  rw [pop, down_eq hr]
  refine .cons x ((down_perm le_rfl).trans ?_)
  rcases eq_nil_or_concat t with rfl | ⟨t, y, rfl⟩
  · exact .refl _
  · simpa [Heap.get, dropLast_cons_of_ne_nil] using (perm_append_singleton y t).symm

theorem ordered_pop (h : Heap.Ordered less l l.length) :
    Heap.Ordered less (pop less l).2 (pop less l).2.length := by
  rw [pop, down_eq hr]
  generalize hm : (l.set 0 (Heap.get l (l.length - 1))).dropLast = m
  have hlen : m.length = l.length - 1 := by simp [← hm]
  have hget (k : ℕ) (hk : 0 < k) (hkn : k < m.length) : Heap.get m k = Heap.get l k := by
    rw [hlen] at hkn
    simp only [Heap.get, getD_eq_getElem?_getD, ← hm, getElem?_dropLast, length_set, if_pos hkn,
      getElem?_set_ne hk.ne]
  rw [(down_perm le_rfl).length_eq]
  refine Heap.DownOrdered.down hr ⟨fun k hk hkn hp => ?_, fun _ _ _ _ h => absurd h (lt_irrefl 0)⟩
    le_rfl (by omega)
  have hlt := parent_lt hk
  rw [hget k hk hkn, hget _ (Nat.pos_of_ne_zero hp) (hlt.trans hkn)]
  exact h k hk (by omega)

inductive HeapOp (α : Type*)
  | push (x : α)
  | pop

/-- The heap and what was popped; popping an empty heap panics. -/
def HeapOp.step (less : α → α → Bool) : List α × List α → HeapOp α → Option (List α × List α)
  | (l, out), .push x => some (Heap.push less l x, out)
  | ([], _), .pop => none
  | (x :: l, out), .pop => some ((Index.pop less (x :: l)).2, (Index.pop less (x :: l)).1 :: out)

def HeapOp.pushed : HeapOp α → List α
  | .push x => [x]
  | .pop => []

/-- The heap is in order, holds what was pushed and not popped, and has at its root, where it is
popped, an element that no other is before. -/
structure Heaped (less : α → α → Bool) (ops : List (HeapOp α)) (l out : List α) : Prop where
  ordered : Heap.Ordered less l l.length
  perm : (l ++ out).Perm (ops.flatMap HeapOp.pushed)
  root : l ≠ [] → (pop less l).1 = Heap.get l 0 ∧ Heap.get l 0 ∈ l ∧
    ∀ x ∈ l, less x (Heap.get l 0) = false

theorem HeapOp.step_spec {s s' : List α × List α} {op : HeapOp α}
    (hord : Heap.Ordered less s.1 s.1.length) (h : op.step less s = some s') :
    Heap.Ordered less s'.1 s'.1.length ∧ (s'.1 ++ s'.2).Perm (op.pushed ++ (s.1 ++ s.2)) := by
  obtain ⟨l, out⟩ := s
  rcases op with x | _
  · cases h
    exact ⟨hord.push hr x, (push_perm l x).append_right out⟩
  · rcases l with _ | ⟨x, l⟩
    · cases h
    · cases h
      exact ⟨ordered_pop hr hord, perm_middle.trans
        ((pop_perm hr (cons_ne_nil x l)).append_right out)⟩

theorem HeapOp.run_spec {s s' : List α × List α} {ops : List (HeapOp α)}
    (hord : Heap.Ordered less s.1 s.1.length) (h : ops.foldlM (HeapOp.step less) s = some s') :
    Heap.Ordered less s'.1 s'.1.length ∧
      (s'.1 ++ s'.2).Perm (ops.flatMap HeapOp.pushed ++ (s.1 ++ s.2)) := by
  induction ops generalizing s with
  | nil =>
    cases h
    exact ⟨hord, .refl _⟩
  | cons op ops ih =>
    rw [foldlM_cons] at h
    obtain ⟨s₁, h₁, h⟩ := Option.bind_eq_some_iff.mp h
    obtain ⟨hord₁, hperm₁⟩ := step_spec hr hord h₁
    obtain ⟨hord', hperm⟩ := ih hord₁ h
    refine ⟨hord', hperm.trans ((hperm₁.append_left _).trans ?_)⟩
    rw [flatMap_cons, append_assoc]
    exact perm_append_comm_assoc _ _ _

theorem heaped_run {ops : List (HeapOp α)} {out : List α}
    (h : ops.foldlM (HeapOp.step less) ([], []) = some (l, out)) : Heaped less ops l out := by
  obtain ⟨hord, hperm⟩ := HeapOp.run_spec hr (fun _ _ h => absurd h (Nat.not_lt_zero _)) h
  rw [append_nil, append_nil] at hperm
  refine ⟨hord, hperm, fun hl => ⟨rfl, ?_, fun x hx => hord.root_mem hr hx⟩⟩
  rw [get_eq (length_pos_iff.mpr hl)]
  exact getElem_mem _

end Heap

section Runs

variable {D : Type*} [LinearOrder D] [Inhabited D]

/-- Along every sequence of pushes and pops the search heaps are in order. -/
theorem heaps_in_order (ops : List (HeapOp (Candidate D))) (l out : List (Candidate D)) :
    (ops.foldlM (HeapOp.step minLess) ([], []) = some (l, out) → Heaped minLess ops l out ∧
      ∀ c ∈ l, (Heap.get l 0).rank ≤ c.rank) ∧
    (ops.foldlM (HeapOp.step maxLess) ([], []) = some (l, out) → Heaped maxLess ops l out ∧
      ∀ c ∈ l, c.rank ≤ (Heap.get l 0).rank) := by
  constructor
  · intro h
    have hh := heaped_run ranks_minLess h
    refine ⟨hh, fun c hc => ?_⟩
    have := (hh.root (ne_nil_of_mem hc)).2.2 c hc
    rwa [← Bool.not_eq_true, minLess_iff, not_lt] at this
  · intro h
    have hh := heaped_run ranks_maxLess h
    refine ⟨hh, fun c hc => ?_⟩
    have := (hh.root (ne_nil_of_mem hc)).2.2 c hc
    rwa [← Bool.not_eq_true, maxLess_iff, not_lt] at this

theorem heaps_in_order_pops : Heaped (minLess (D := ℕ)) [.push ⟨1, 5⟩, .push ⟨2, 3⟩, .pop]
    [⟨1, 5⟩] [⟨2, 3⟩] :=
  ((heaps_in_order _ _ _).1 rfl).1

end Runs

end VecDb.Index

import Mathlib
import VecDb.Base.Float
import VecDb.Base.Heap

/-! # The top-k heap

Candidates are ranked by distance and then by position, and NaN is farther than any number. The
heap keeps the `k` nearest candidates, with the farthest one at its root.
-/

namespace VecDb.Query

open List

structure Candidate where
  position : UInt32
  distance : Float32
  deriving DecidableEq, Inhabited

def greaterDist (x y : Float32) : Bool :=
  match x.isNaN, y.isNaN with
  | true, true => false
  | true, false => true
  | false, true => false
  | false, false => y.lt x

namespace Candidate

def less (a b : Candidate) : Bool :=
  if !a.distance.eq b.distance then greaterDist a.distance b.distance
  else decide (b.position < a.position)

def rank (c : Candidate) : WithTop (ℤ ×ₗ ℕ) :=
  if c.distance.isNaN then ⊤ else ((toLex (c.distance.key, c.position.toNat) : ℤ ×ₗ ℕ) : WithTop _)

theorem less_iff_rank {a b : Candidate} : less a b = true ↔ b.rank < a.rank := by
  unfold less greaterDist Float32.eq Float32.lt rank
  rcases a.distance.isNaN with _ | _ <;> rcases b.distance.isNaN with _ | _ <;>
    simp only [Bool.not_false, Bool.not_true, Bool.true_and, Bool.and_true, Bool.false_and,
      Bool.and_false, if_true, if_false, Bool.false_eq_true, WithTop.coe_lt_coe, Prod.Lex.lt_iff,
      WithTop.coe_lt_top, lt_irrefl, not_top_lt]
  split
  · rename_i hne
    have hne : b.distance.key ≠ a.distance.key := by
      intro heq
      rw [heq, decide_eq_true rfl] at hne
      exact absurd hne (by decide)
    simp [hne]
  · rename_i heq
    have heq : a.distance.key = b.distance.key := by simpa using heq
    simp [heq, UInt32.lt_iff_toNat_lt]

theorem ranks : Heap.Ranks less :=
  Heap.ranks_of_rank (fun c => OrderDual.toDual c.rank) fun _ _ => less_iff_rank

theorem position_of_rank {a b : Candidate} (ha : a.distance.isNaN = false)
    (h : a.rank = b.rank) : a.position = b.position := by
  unfold rank at h
  rw [ha] at h
  rcases hb : b.distance.isNaN with _ | _ <;> rw [hb] at h
  · simp only [Bool.false_eq_true, if_false, WithTop.coe_inj, toLex_inj, Prod.mk.injEq] at h
    exact UInt32.toNat_inj.mp h.2
  · simp at h

end Candidate

structure TopKHeap where
  data : List Candidate := []
  k : ℕ

def newTopKHeap (k : ℤ) : TopKHeap := { k := (max k 1).toNat }

namespace TopKHeap

def push (h : TopKHeap) (c : Candidate) : TopKHeap :=
  if h.data.length < h.k then { h with data := Heap.push Candidate.less h.data c }
  else
    let root := Heap.get h.data 0
    -- an equally distant candidate replaces the root if its position is smaller
    if greaterDist root.distance c.distance ||
        root.distance.eq c.distance && decide (c.position < root.position) then
      { h with data := Heap.replace Candidate.less h.data c }
    else h

def drain (h : TopKHeap) : List Candidate := Heap.drain Candidate.less h.data

theorem push_eq (h : TopKHeap) (c : Candidate) :
    h.push c = { h with data := Heap.offer Candidate.less h.k h.data c } := by
  unfold push Heap.offer
  have hless : (greaterDist (Heap.get h.data 0).distance c.distance ||
      (Heap.get h.data 0).distance.eq c.distance &&
        decide (c.position < (Heap.get h.data 0).position)) =
      Candidate.less (Heap.get h.data 0) c := by
    unfold Candidate.less
    generalize (Heap.get h.data 0).distance = x, c.distance = y
    unfold greaterDist Float32.eq Float32.lt
    rcases x.isNaN with _ | _ <;> rcases y.isNaN with _ | _ <;> simp
    by_cases hk : x.key = y.key <;> simp [hk]
  dsimp only
  rw [hless]
  split
  · rfl
  · split <;> rfl

theorem foldl_push (h : TopKHeap) (cs : List Candidate) :
    cs.foldl push h = { h with data := cs.foldl (Heap.offer Candidate.less h.k) h.data } := by
  induction cs generalizing h with
  | nil => rfl
  | cons c cs ih => rw [foldl_cons, ih, push_eq, foldl_cons]

theorem keeps_foldl (k : ℤ) (cs : List Candidate) : Heap.Keeps Candidate.less (max k 1).toNat
    cs.reverse (cs.foldl push (newTopKHeap k)).data := by
  rw [foldl_push]
  have := Heap.keeps_foldl Candidate.ranks (show 0 < (max k 1).toNat by omega) cs
    (Heap.keeps_nil (max k 1).toNat)
  rwa [append_nil] at this

theorem drain_perm (k : ℤ) (cs : List Candidate) :
    (cs.foldl push (newTopKHeap k)).drain.Perm (cs.foldl push (newTopKHeap k)).data :=
  (Heap.drain_spec Candidate.ranks (keeps_foldl k cs).ordered).1

theorem mem_data {k : ℤ} {cs : List Candidate} {c : Candidate}
    (h : c ∈ (cs.foldl push (newTopKHeap k)).data) : c ∈ cs := by
  obtain ⟨rest, hperm, -⟩ := (keeps_foldl k cs).lowest
  exact mem_reverse.mp (hperm.mem_iff.mp (mem_append_left _ h))

end TopKHeap

variable {c : Candidate} {cs : List Candidate} {k : ℤ}

/-- Candidates at different positions, with numbers as their distances. -/
structure Separate (cs : List Candidate) : Prop where
  nodup : (cs.map Candidate.position).Nodup
  number : ∀ x ∈ cs, x.distance.isNaN = false

theorem Separate.eq_of_rank (hs : Separate cs) {x y : Candidate}
    (hx : x ∈ cs) (hy : y ∈ cs) (h : x.rank = y.rank) : x = y :=
  inj_on_of_nodup_map hs.nodup hx hy (Candidate.position_of_rank (hs.number x hx) h)

theorem Separate.lowest_drain {k : ℕ} {all l : List Candidate} (hs : Separate cs)
    (hperm : all.Perm cs) (h : Heap.Keeps Candidate.less k all l) :
    Lowest Candidate.rank {x | x ∈ cs} k (Heap.drain Candidate.less l) := by
  refine (h.perm hperm).lowest_drain Candidate.ranks (fun _ _ => Candidate.less_iff_rank)
    (.of_map _ hs.nodup) fun x hx y hy hxy => ?_
  exact hs.eq_of_rank hx hy hxy

def topK (k : ℤ) (cs : List Candidate) : List Candidate :=
  (cs.foldl TopKHeap.push (newTopKHeap k)).drain

theorem mem_of_mem_topK (h : c ∈ topK k cs) : c ∈ cs :=
  TopKHeap.mem_data ((TopKHeap.drain_perm k cs).mem_iff.mp h)

theorem length_topK (k : ℤ) (cs : List Candidate) :
    (topK k cs).length = min (max k 1).toNat cs.length := by
  rw [topK, (TopKHeap.drain_perm k cs).length_eq, (TopKHeap.keeps_foldl k cs).length,
    length_reverse]

theorem mem_topK (h : cs.length ≤ k) : c ∈ topK k cs ↔ c ∈ cs := by
  obtain ⟨rest, hperm, -⟩ := (TopKHeap.keeps_foldl k cs).lowest
  have hlen := hperm.length_eq
  rw [length_append, (TopKHeap.keeps_foldl k cs).length, length_reverse] at hlen
  obtain rfl : rest = [] := eq_nil_of_length_eq_zero (by omega)
  rw [append_nil] at hperm
  rw [topK, (TopKHeap.drain_perm k cs).mem_iff, hperm.mem_iff, mem_reverse]

theorem lowest_topK (hk : 1 ≤ k) (hs : Separate cs) :
    Lowest Candidate.rank {x | x ∈ cs} k.toNat (topK k cs) := by
  have := hs.lowest_drain (reverse_perm cs) (TopKHeap.keeps_foldl k cs)
  rwa [max_eq_left hk] at this

theorem topK_singleton (k : ℤ) (c : Candidate) : topK k [c] = [c] := by
  have hlen : (topK k [c]).length = 1 := by
    rw [length_topK, length_singleton]
    omega
  obtain ⟨x, hx⟩ := length_eq_one_iff.mp hlen
  have hmem : x ∈ topK k [c] := by simp [hx]
  rw [hx, mem_singleton.mp (mem_of_mem_topK hmem)]

end VecDb.Query

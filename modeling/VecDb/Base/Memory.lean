import VecDb.Base.Bytes

/-! # Byte slices in memory

A program holds its byte slices by reference. A slice that is made gets a place of its own;
wiping a slice leaves the others as they are.
-/

namespace VecDb

/-- The slices made so far, by the order in which they were made. -/
structure Memory where
  slices : List Bytes
  deriving DecidableEq

namespace Memory

abbrev Ref := ℕ

def read (m : Memory) (r : Ref) : Bytes := m.slices.getD r []

def alloc (m : Memory) (b : Bytes) : Ref × Memory := (m.slices.length, ⟨m.slices ++ [b]⟩)

def zeroize (m : Memory) (r : Ref) : Memory :=
  ⟨m.slices.modify r fun b => List.replicate b.length 0⟩

def zeroizeAll (m : Memory) (rs : List Ref) : Memory := rs.foldl zeroize m

def Has (m : Memory) (r : Ref) : Prop := r < m.slices.length

variable {m : Memory} {r r' : Ref} {b : Bytes} {rs : List Ref}

@[simp] theorem read_alloc_self : (m.alloc b).2.read (m.alloc b).1 = b := by
  simp [read, alloc]

theorem read_alloc (h : m.Has r) : (m.alloc b).2.read r = m.read r := by
  simp [read, alloc, List.getElem?_append_left h]

@[simp] theorem has_alloc_self : (m.alloc b).2.Has (m.alloc b).1 := by
  simp [Has, alloc]

theorem Has.alloc (h : m.Has r) : (m.alloc b).2.Has r := by
  simp only [Has, Memory.alloc, List.length_append]
  exact Nat.lt_add_right _ h

theorem Has.ne_alloc (h : m.Has r) : r ≠ (m.alloc b).1 := Nat.ne_of_lt h

@[simp] theorem has_zeroize : (m.zeroize r').Has r ↔ m.Has r := by
  simp [Has, zeroize]

theorem read_zeroize (h : r ≠ r') : (m.zeroize r').read r = m.read r := by
  simp [read, zeroize, h.symm]

theorem read_zeroizeAll (h : r ∉ rs) : (m.zeroizeAll rs).read r = m.read r := by
  induction rs generalizing m with
  | nil => rfl
  | cons r' rs ih =>
    rw [List.mem_cons, not_or] at h
    exact (ih h.2).trans (read_zeroize h.1)

end Memory

end VecDb

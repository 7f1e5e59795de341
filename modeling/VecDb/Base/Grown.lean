import Mathlib.Data.List.Basic
import Mathlib.Tactic.Ring

/-! # Lists that have grown

A list agrees with a shorter one element by element, and what it has past the end
of the shorter one does not count. What is summed or collected over the elements
is then the same for both.
-/

namespace VecDb

open List

variable {α : Type*}

section Elements

variable {xs : List α} {x y : α} {f : α → α} {i j : ℕ}

theorem getElem?_modify_of (h : xs[i]? = some x) :
    (xs.modify j f)[i]? = some (if i = j then f x else x) := by
  rw [getElem?_modify, h]
  by_cases hij : j = i
  · simp [hij]
  · simp [hij, Ne.symm hij]

theorem getElem?_modify_cases (h : (xs.modify j f)[i]? = some y) :
    ∃ x, xs[i]? = some x ∧ y = if i = j then f x else x := by
  have hi : i < xs.length := by simpa using (List.getElem?_eq_some_iff.mp h).1
  refine ⟨xs[i], getElem?_eq_getElem hi, ?_⟩
  rw [getElem?_modify_of (getElem?_eq_getElem hi)] at h
  exact (Option.some.inj h).symm

theorem getElem?_concat_cases (h : (xs ++ [x])[i]? = some y) :
    xs[i]? = some y ∨ i = xs.length ∧ y = x := by
  rcases Nat.lt_or_ge i xs.length with hi | hi
  · rw [getElem?_append_left hi] at h
    exact .inl h
  · rw [getElem?_append_right hi, getElem?_singleton] at h
    split at h
    · exact .inr ⟨by omega, (Option.some.inj h).symm⟩
    · cases h

theorem getElem?_concat_of (h : xs[i]? = some y) : (xs ++ [x])[i]? = some y := by
  rwa [getElem?_append_left (List.getElem?_eq_some_iff.mp h).1]

end Elements

/-- The first list agrees with the second by `R`, and holds only what meets `E` after it. -/
inductive Grown (R : α → α → Prop) (E : α → Prop) : List α → List α → Prop
  | nil : Grown R E [] []
  | extra {x : α} {xs : List α} : E x → Grown R E xs [] → Grown R E (x :: xs) []
  | cons {x y : α} {xs ys : List α} : R x y → Grown R E xs ys → Grown R E (x :: xs) (y :: ys)

namespace Grown

variable {R : α → α → Prop} {E : α → Prop} {xs ys zs : List α} {f g : α → α} {i : ℕ}

theorem refl (h : ∀ x, R x x) : ∀ xs, Grown R E xs xs
  | [] => .nil
  | x :: xs => .cons (h x) (refl h xs)

theorem trans (hR : ∀ x y z, R x y → R y z → R x z) (hE : ∀ x y, R x y → E y → E x)
    (h : Grown R E xs ys) (h' : Grown R E ys zs) : Grown R E xs zs := by
  induction h generalizing zs with
  | nil =>
    cases h'
    exact .nil
  | extra hx _ ih =>
    cases h'
    exact .extra hx (ih .nil)
  | cons hxy _ ih =>
    cases h' with
    | extra hy h' => exact .extra (hE _ _ hxy hy) (ih h')
    | cons hyz h' => exact .cons (hR _ _ _ hxy hyz) (ih h')

section

variable (h : Grown R E xs ys)
include h

theorem length_le : ys.length ≤ xs.length := by
  induction h with
  | nil => exact Nat.le_refl _
  | extra => exact Nat.zero_le _
  | cons _ _ ih => exact Nat.succ_le_succ ih

theorem get {y : α} (hy : ys[i]? = some y) : ∃ x, xs[i]? = some x ∧ R x y := by
  induction h generalizing i with
  | nil | extra => cases hy
  | cons hxy _ ih =>
    cases i with
    | zero =>
      cases hy
      exact ⟨_, rfl, hxy⟩
    | succ i => exact ih hy

theorem get_cases {x : α} (hx : xs[i]? = some x) :
    (∃ y, ys[i]? = some y ∧ R x y) ∨ ys[i]? = none ∧ E x := by
  induction h generalizing i with
  | nil => cases hx
  | extra hex _ ih =>
    cases i with
    | zero =>
      cases hx
      exact .inr ⟨rfl, hex⟩
    | succ i => exact .inr ⟨rfl, by simpa using ih hx⟩
  | cons hxy _ ih =>
    cases i with
    | zero =>
      cases hx
      exact .inl ⟨_, rfl, hxy⟩
    | succ i => exact ih hx

theorem modify (hi : i < ys.length)
    (hfg : ∀ x y, xs[i]? = some x → ys[i]? = some y → R x y → R (f x) (g y)) :
    Grown R E (xs.modify i f) (ys.modify i g) := by
  induction h generalizing i with
  | nil | extra => cases hi
  | cons hxy h ih =>
    cases i with
    | zero => exact .cons (hfg _ _ rfl rfl hxy) h
    | succ i => exact .cons hxy (ih (Nat.lt_of_succ_lt_succ hi) hfg)

theorem modify_left
    (hR : ∀ x y, xs[i]? = some x → R x y → R (f x) y) (hE : ∀ x, xs[i]? = some x → E x → E (f x)) :
    Grown R E (xs.modify i f) ys := by
  induction h generalizing i with
  | nil => simpa using .nil
  | extra hx h ih =>
    cases i with
    | zero => exact .extra (hE _ rfl hx) h
    | succ i => exact .extra hx (ih hR hE)
  | cons hxy h ih =>
    cases i with
    | zero => exact .cons (hR _ _ rfl hxy) h
    | succ i => exact .cons hxy (ih hR hE)

theorem append_extra {x : α} (hx : E x) : Grown R E (xs ++ [x]) ys := by
  induction h with
  | nil => exact .extra hx .nil
  | extra hy _ ih => exact .extra hy ih
  | cons hxy _ ih => exact .cons hxy ih

theorem sum_map {f : α → ℕ} (hR : ∀ x y, R x y → f x = f y)
    (hE : ∀ x, E x → f x = 0) : (xs.map f).sum = (ys.map f).sum := by
  induction h with
  | nil => rfl
  | extra hx _ ih => simpa [hE _ hx] using ih
  | cons hxy _ ih => simp [hR _ _ hxy, ih]

theorem flatMap_zipIdx {β : Type*} {f g : α × ℕ → List β} (n : ℕ)
    (hR : ∀ i x y, xs[i]? = some x → ys[i]? = some y → R x y → f (x, n + i) = g (y, n + i))
    (hE : ∀ x i, E x → f (x, i) = []) : (xs.zipIdx n).flatMap f = (ys.zipIdx n).flatMap g := by
  induction h generalizing n with
  | nil => rfl
  | extra hx _ ih =>
    have := ih (n + 1) fun i x y _ hy => nomatch hy
    simpa [hE _ _ hx] using this
  | @cons x y xs ys hxy _ ih =>
    have htail := ih (n + 1) fun i x y hx hy hxy => by
      simpa [Nat.add_assoc, Nat.add_comm 1 i] using hR (i + 1) x y hx hy hxy
    have hhead := hR 0 x y rfl rfl hxy
    simp only [Nat.add_zero] at hhead
    rw [zipIdx_cons, zipIdx_cons, flatMap_cons, flatMap_cons, hhead, htail]

end

end Grown

end VecDb

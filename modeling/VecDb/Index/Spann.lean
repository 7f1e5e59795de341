import Mathlib.Tactic.Linarith

/-! # The number of posting lists

By default an index has about as many lists as the square root of its rows, which Newton's
iteration finds.
-/

namespace VecDb.Index

open Nat

/-- A sum of machine integers wraps. -/
def wrapAdd (a b : ℤ) : Option ℤ := some ((a + b).bmod (2 ^ 64))

/-- A sum that must not wrap. -/
def checkedAdd (a b : ℤ) : Option ℤ :=
  if -2 ^ 63 ≤ a + b ∧ a + b < 2 ^ 63 then some (a + b) else none

/-- The loop, for some rounds at most; a division by zero panics. -/
def isqrtLoop (add : ℤ → ℤ → Option ℤ) (n : ℤ) : ℕ → ℤ → ℤ → Option ℤ
  | 0, _, _ => none
  | rounds + 1, x, y =>
    if y < x then
      if y = 0 then none
      else (add y (n.tdiv y)).bind fun sum => isqrtLoop add n rounds y (sum.tdiv 2)
    else some x

def isqrt (add : ℤ → ℤ → Option ℤ) (n : ℤ) (rounds : ℕ) : Option ℤ :=
  if n < 2 then some n
  else (add n 1).bind fun sum => isqrtLoop add n rounds n (sum.tdiv 2)

variable {add : ℤ → ℤ → Option ℤ} {n x rounds : ℕ}

theorem add_div_le (hx : 0 < x) (hn : x ≤ n) : x + n / x ≤ n + 1 := by
  have hq : 1 ≤ n / x := div_pos hn hx
  have hmul : n / x * x ≤ n := div_mul_le_self n x
  nlinarith

/-- The mean of a number and its quotient is not below the root. -/
theorem lt_mean_succ_sq (hx : 0 < x) : n < ((x + n / x) / 2 + 1) * ((x + n / x) / 2 + 1) := by
  have hlt : n < (n / x + 1) * x := lt_mul_of_div_lt (lt_succ_self _) hx
  have hy := mul_self_le_mul_self (show x + (n / x + 1) ≤ 2 * ((x + n / x) / 2 + 1) by omega)
  linarith [sq_nonneg ((x : ℤ) - (n / x + 1))]

section Exact

variable (hadd : ∀ a b : ℕ, a + b < 2 ^ 63 → add a b = some ((a + b : ℕ) : ℤ))
  (hn : n + 1 < 2 ^ 63)
include hadd hn

/-- The iterates fall and are not below the root. -/
theorem isqrtLoop_eq (hx : 0 < x) (hxn : x ≤ n) (hlt : n < (x + 1) * (x + 1)) (hr : x ≤ rounds) :
    isqrtLoop add n rounds x ((x + n / x) / 2 : ℕ) = some (n.sqrt : ℤ) := by
  induction rounds generalizing x with
  | zero => omega
  | succ rounds ih =>
    have hq : 1 ≤ n / x := div_pos hxn hx
    have hmean := @lt_mean_succ_sq n x hx
    rw [isqrtLoop]
    generalize hy : (x + n / x) / 2 = y at hmean
    by_cases hyx : y < x
    · have hle := add_div_le (show 0 < y by omega) (show y ≤ n by omega)
      rw [if_pos (by omega), if_neg (by omega), ← Int.ofNat_tdiv, hadd _ _ (by omega)]
      exact ih (by omega) (by omega) hmean (by omega)
    · have hsq : x * x ≤ n := (le_div_iff_mul_le hx).mp (by omega)
      rw [if_neg (by omega), Nat.eq_sqrt.mpr ⟨hsq, hlt⟩]

theorem isqrt_eq (hr : n ≤ rounds) : isqrt add n rounds = some (n.sqrt : ℤ) := by
  have hlt : n < (n + 1) * (n + 1) := by nlinarith
  rw [isqrt]
  by_cases h2 : n < 2
  · rw [if_pos (by omega), ← Nat.eq_sqrt.mpr ⟨by nlinarith, hlt⟩]
  · have hstart := isqrtLoop_eq hadd hn (show 0 < n by omega) le_rfl hlt hr
    rw [Nat.div_self (by omega)] at hstart
    rw [if_neg (by omega), ← Nat.cast_one, hadd _ _ hn]
    exact hstart

end Exact

/-- The loop ends at the root and no sum wraps, for every integer but the largest. -/
theorem isqrt_root_iff {n : ℤ} (h0 : 0 ≤ n) (hmax : n < 2 ^ 63) :
    (∃ rounds r, isqrt wrapAdd n rounds = some r ∧ isqrt checkedAdd n rounds = some r ∧
      0 ≤ r ∧ r * r ≤ n ∧ n < (r + 1) * (r + 1)) ↔ n < 2 ^ 63 - 1 := by
  constructor
  · rintro ⟨rounds, r, -, hchecked, -⟩
    by_contra hge
    obtain rfl : n = 2 ^ 63 - 1 := by omega
    cases hchecked
  intro hlt
  lift n to ℕ using h0
  have hn : n + 1 < 2 ^ 63 := by omega
  have hwrap (a b : ℕ) (h : a + b < 2 ^ 63) : wrapAdd a b = some ((a + b : ℕ) : ℤ) := by
    rw [wrapAdd, ← Nat.cast_add, Int.bmod_eq_of_le_mul_two] <;> omega
  have hchecked (a b : ℕ) (h : a + b < 2 ^ 63) : checkedAdd a b = some ((a + b : ℕ) : ℤ) :=
    if_pos (by omega)
  refine ⟨n, n.sqrt, isqrt_eq hwrap hn le_rfl, isqrt_eq hchecked hn le_rfl,
    Int.natCast_nonneg _, ?_, ?_⟩
  · exact_mod_cast Nat.sqrt_le n
  · exact_mod_cast Nat.lt_succ_sqrt n

theorem isqrt_root_ten : ∃ rounds r, isqrt wrapAdd 10 rounds = some r ∧
    isqrt checkedAdd 10 rounds = some r ∧ 0 ≤ r ∧ r * r ≤ 10 ∧ 10 < (r + 1) * (r + 1) :=
  (isqrt_root_iff (by decide) (by decide)).mpr (by decide)

theorem isqrt_wraps : isqrt wrapAdd (2 ^ 63 - 1) 2 = some (-4611686018427387904) := by decide

end VecDb.Index

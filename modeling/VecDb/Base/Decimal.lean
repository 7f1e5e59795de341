import Mathlib.Tactic.IntervalCases
import VecDb.Base.Text

/-! # Decimal numerals

A natural number is written with its decimal digits, without leading zeros, and read
back from them.
-/

namespace VecDb.Decimal

def text (n : ℕ) : Bytes := (Nat.toDigits 10 n).map byte

def value (s : Bytes) : ℕ := s.foldl (fun n c => n * 10 + (c.toNat - 48)) 0

theorem value_append (s : Bytes) (c : UInt8) : value (s ++ [c]) = value s * 10 + (c.toNat - 48) := by
  rw [value, List.foldl_append]
  rfl

theorem toNat_digit {d : ℕ} (h : d < 10) : (byte d.digitChar).toNat = 48 + d := by
  interval_cases d <;> rfl

theorem text_of_lt {n : ℕ} (h : n < 10) : text n = [byte n.digitChar] := by
  rw [text, Nat.toDigits_of_lt_base h]
  rfl

theorem text_of_le {n : ℕ} (h : 10 ≤ n) : text n = text (n / 10) ++ [byte (n % 10).digitChar] := by
  rw [text, Nat.toDigits_of_base_le (by decide) h, List.map_append]
  rfl

@[simp] theorem value_text (n : ℕ) : value (text n) = n := by
  induction n using Nat.strong_induction_on with
  | _ n ih =>
    rcases Nat.lt_or_ge n 10 with h | h
    · rw [text_of_lt h, ← List.nil_append [_], value_append, toNat_digit h]
      simp [value]
    · rw [text_of_le h, value_append, ih (n / 10) (by omega), toNat_digit (Nat.mod_lt n (by decide))]
      omega

end VecDb.Decimal

import Mathlib.Algebra.Order.BigOperators.Group.List
import Mathlib.Algebra.Order.Ring.Abs
import VecDb.Catalog.Schema

/-! # Distance kernels over 8-bit vectors

The kernels add up 32-bit words, so that their results are the exact ones reduced to 32 bits.
-/

namespace VecDb.Distance

open List Int32

def l2SquaredInt8 (a b : List Int8) : Int32 :=
  (a.zip b).foldl (fun sum p =>
    let d := p.1.toInt32 - p.2.toInt32
    sum + d * d) 0

def dotInt8 (a b : List Int8) : Int32 :=
  (a.zip b).foldl (fun sum p => sum + p.1.toInt32 * p.2.toInt32) 0

def squaredDistance (a b : List Int8) : ℤ :=
  ((a.zip b).map fun p => (p.1.toInt - p.2.toInt) * (p.1.toInt - p.2.toInt)).sum

def innerProduct (a b : List Int8) : ℤ := ((a.zip b).map fun p => p.1.toInt * p.2.toInt).sum

theorem bmod_eq_iff {x : ℤ} : x.bmod (2 ^ 32) = x ↔ -2 ^ 31 ≤ x ∧ x < 2 ^ 31 := by
  rw [Int.bmod_def]
  split <;> omega

/-- A sum kept in a 32-bit word is the exact one reduced to 32 bits, whatever its steps lose. -/
theorem toInt_foldl {α : Type*} {f : α → Int32} {g : α → ℤ}
    (hfg : ∀ x, (f x).toInt = (g x).bmod (2 ^ 32)) (l : List α) (sum : Int32) :
    (l.foldl (fun sum x => sum + f x) sum).toInt = (sum.toInt + (l.map g).sum).bmod (2 ^ 32) := by
  induction l generalizing sum with
  | nil => simp
  | cons x l ih =>
    rw [foldl_cons, ih, toInt_add, hfg, Int.bmod_add_bmod, map_cons, sum_cons, add_assoc,
      ← add_assoc, ← Int.bmod_add_bmod, Int.add_bmod_bmod, Int.bmod_add_bmod, add_assoc]

theorem toInt_l2SquaredInt8 (a b : List Int8) :
    (l2SquaredInt8 a b).toInt = (squaredDistance a b).bmod (2 ^ 32) := by
  have hstep (p : Int8 × Int8) : ((p.1.toInt32 - p.2.toInt32) * (p.1.toInt32 - p.2.toInt32)).toInt =
      ((p.1.toInt - p.2.toInt) * (p.1.toInt - p.2.toInt)).bmod (2 ^ 32) := by
    rw [toInt_mul, toInt_sub, Int8.toInt_toInt32, Int8.toInt_toInt32,
      Int.bmod_mul_bmod, Int.mul_bmod_bmod]
  have h := toInt_foldl hstep (a.zip b) 0
  rwa [toInt_zero, zero_add] at h

theorem toInt_dotInt8 (a b : List Int8) :
    (dotInt8 a b).toInt = (innerProduct a b).bmod (2 ^ 32) := by
  have hstep (p : Int8 × Int8) : (p.1.toInt32 * p.2.toInt32).toInt =
      (p.1.toInt * p.2.toInt).bmod (2 ^ 32) := by
    rw [toInt_mul, Int8.toInt_toInt32, Int8.toInt_toInt32]
  have h := toInt_foldl hstep (a.zip b) 0
  rwa [toInt_zero, zero_add] at h

theorem abs_toInt_le (x : Int8) : |x.toInt| ≤ 128 :=
  abs_le.mpr ⟨x.le_toInt, x.toInt_lt.le⟩

/-- At every dimension of a schema the inner product is exact, and the squared distance is where
it fits into 31 bits. -/
theorem int8_kernels_exact {a b : List Int8} (hlen : a.length = b.length)
    (hn : a.length ≤ Catalog.maxDim.toNat) :
    (dotInt8 a b).toInt = innerProduct a b ∧
      ((l2SquaredInt8 a b).toInt = squaredDistance a b ↔ squaredDistance a b < 2 ^ 31) := by
  have hn : a.length ≤ 65535 := hn
  constructor
  · have habs (x : ℤ) (hx : x ∈ (a.zip b).map fun p => p.1.toInt * p.2.toInt) :
        -16384 ≤ x ∧ x ≤ 16384 := by
      obtain ⟨p, -, rfl⟩ := mem_map.mp hx
      rw [← abs_le, abs_mul]
      exact mul_le_mul (abs_toInt_le p.1) (abs_toInt_le p.2) (abs_nonneg _) (by norm_num)
    have hle := sum_le_card_nsmul _ _ fun x hx => (habs x hx).2
    have hge := card_nsmul_le_sum _ _ fun x hx => (habs x hx).1
    simp only [length_map, length_zip, ← hlen, min_self, nsmul_eq_mul] at hle hge
    rw [toInt_dotInt8, bmod_eq_iff]
    unfold innerProduct
    omega
  · have hnonneg : 0 ≤ squaredDistance a b := sum_nonneg fun x hx => by
      obtain ⟨p, -, rfl⟩ := mem_map.mp hx
      exact mul_self_nonneg _
    rw [toInt_l2SquaredInt8, bmod_eq_iff, and_iff_right]
    omega

theorem int8_kernels_exact_two :
    squaredDistance [127, 3] [-128, 5] = 65029 ∧
      (l2SquaredInt8 [127, 3] [-128, 5]).toInt = squaredDistance [127, 3] [-128, 5] :=
  ⟨by decide, (@int8_kernels_exact [127, 3] [-128, 5] rfl (by decide)).2.mpr (by decide)⟩

/-- From 33026 components on the accumulator can leave its word. -/
theorem l2SquaredInt8_wraps : 33026 ≤ Catalog.maxDim.toNat ∧
    (l2SquaredInt8 (replicate 33026 127) (replicate 33026 (-128))).toInt = -2147451646 ∧
    squaredDistance (replicate 33026 127) (replicate 33026 (-128)) = 2147515650 := by
  have hexact : squaredDistance (replicate 33026 127) (replicate 33026 (-128)) = 2147515650 := by
    rw [squaredDistance, zip_replicate', map_replicate, sum_replicate]
    rfl
  refine ⟨by decide, ?_, hexact⟩
  rw [toInt_l2SquaredInt8, hexact]
  rfl

end VecDb.Distance

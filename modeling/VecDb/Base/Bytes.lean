import Mathlib.Data.List.Induction
import Mathlib.Data.Nat.ModEq
import Mathlib.Tactic.Ring

/-! # Byte strings and fixed-width integers

Unsigned integers are laid out in a fixed number of bytes, most or least
significant byte first. Reading back an encoded integer reduces it modulo the
range of its width.
-/

namespace VecDb

open List Nat

abbrev Bytes := List UInt8

instance : LawfulBEq Bytes := inferInstance

namespace Bytes

/-- The big-endian bytes of a number, truncated to the given width. -/
def putBE : ℕ → ℕ → Bytes
  | 0, _ => []
  | n + 1, v => putBE n (v / 256) ++ [UInt8.ofNat v]

def getBE (b : Bytes) : ℕ := b.foldl (fun a x => a * 256 + x.toNat) 0

def putLE : ℕ → ℕ → Bytes
  | 0, _ => []
  | n + 1, v => UInt8.ofNat v :: putLE n (v / 256)

def getLE : Bytes → ℕ
  | [] => 0
  | x :: b => x.toNat + 256 * getLE b

@[simp] theorem length_putBE (n v : ℕ) : (putBE n v).length = n := by
  induction n generalizing v with
  | zero => rfl
  | succ n ih => simp [putBE, ih]

@[simp] theorem length_putLE (n v : ℕ) : (putLE n v).length = n := by
  induction n generalizing v with
  | zero => rfl
  | succ n ih => simp [putLE, ih]

theorem toNat_ofNat_byte (v : ℕ) : (UInt8.ofNat v).toNat = v % 256 := by
  simp

theorem mod_pow_succ (v n : ℕ) : v % 256 ^ (n + 1) = v % 256 + 256 * (v / 256 % 256 ^ n) := by
  rw [pow_succ, mul_comm, mod_mul]

theorem getBE_putBE (n v : ℕ) : getBE (putBE n v) = v % 256 ^ n := by
  induction n generalizing v with
  | zero => simp [putBE, getBE, mod_one]
  | succ n ih =>
    have hs : getBE (putBE (n + 1) v) = getBE (putBE n (v / 256)) * 256 + v % 256 := by
      simp [getBE, putBE]
    rw [hs, ih, mod_pow_succ]
    ring

theorem getLE_putLE (n v : ℕ) : getLE (putLE n v) = v % 256 ^ n := by
  induction n generalizing v with
  | zero => simp [putLE, getLE, mod_one]
  | succ n ih => rw [putLE, getLE, ih, toNat_ofNat_byte, mod_pow_succ]

def be32 (v : UInt32) : Bytes := putBE 4 v.toNat

def be64 (v : UInt64) : Bytes := putBE 8 v.toNat

def le16 (v : UInt16) : Bytes := putLE 2 v.toNat

def le32 (v : UInt32) : Bytes := putLE 4 v.toNat

def le64 (v : UInt64) : Bytes := putLE 8 v.toNat

@[simp] theorem length_be32 (v : UInt32) : (be32 v).length = 4 := length_putBE ..
@[simp] theorem length_be64 (v : UInt64) : (be64 v).length = 8 := length_putBE ..
@[simp] theorem length_le16 (v : UInt16) : (le16 v).length = 2 := length_putLE ..
@[simp] theorem length_le32 (v : UInt32) : (le32 v).length = 4 := length_putLE ..
@[simp] theorem length_le64 (v : UInt64) : (le64 v).length = 8 := length_putLE ..

@[simp] theorem getBE_be32 (v : UInt32) : UInt32.ofNat (getBE (be32 v)) = v := by
  rw [be32, getBE_putBE, mod_eq_of_lt (by simpa using v.toNat_lt), UInt32.ofNat_toNat]

@[simp] theorem getBE_be64 (v : UInt64) : UInt64.ofNat (getBE (be64 v)) = v := by
  rw [be64, getBE_putBE, mod_eq_of_lt (by simpa using v.toNat_lt), UInt64.ofNat_toNat]

@[simp] theorem getLE_le16 (v : UInt16) : UInt16.ofNat (getLE (le16 v)) = v := by
  rw [le16, getLE_putLE, mod_eq_of_lt (by simpa using v.toNat_lt), UInt16.ofNat_toNat]

@[simp] theorem getLE_le32 (v : UInt32) : UInt32.ofNat (getLE (le32 v)) = v := by
  rw [le32, getLE_putLE, mod_eq_of_lt (by simpa using v.toNat_lt), UInt32.ofNat_toNat]

@[simp] theorem getLE_le64 (v : UInt64) : UInt64.ofNat (getLE (le64 v)) = v := by
  rw [le64, getLE_putLE, mod_eq_of_lt (by simpa using v.toNat_lt), UInt64.ofNat_toNat]

theorem getBE_concat (b : Bytes) (x : UInt8) : getBE (b ++ [x]) = getBE b * 256 + x.toNat := by
  simp [getBE]

variable {b : Bytes}

/-- A byte string is the encoding of the number it denotes. -/
theorem putBE_getBE {n : ℕ} (h : b.length = n) : putBE n (getBE b) = b := by
  induction b using List.reverseRecOn generalizing n with
  | nil => subst h; rfl
  | append_singleton b x ih =>
    obtain rfl : n = b.length + 1 := by simpa using h.symm
    have hx := x.toNat_lt
    have hd : (getBE b * 256 + x.toNat) / 256 = getBE b := by omega
    have hm : UInt8.ofNat (getBE b * 256 + x.toNat) = x := by
      apply UInt8.toNat_inj.mp
      rw [toNat_ofNat_byte]; omega
    rw [getBE_concat, putBE, hd, hm, ih rfl]

theorem getBE_lt (b : Bytes) : getBE b < 256 ^ b.length := by
  induction b using List.reverseRecOn with
  | nil => simp [getBE]
  | append_singleton b x ih =>
    have hx := x.toNat_lt
    rw [getBE_concat, length_append, length_singleton, pow_succ]
    omega

theorem be32_getBE (h : b.length = 4) : be32 (UInt32.ofNat (getBE b)) = b := by
  have hl : getBE b < 2 ^ 32 := by simpa [h] using getBE_lt b
  rw [be32, UInt32.toNat_ofNat_of_lt' hl, putBE_getBE h]

theorem be64_getBE (h : b.length = 8) : be64 (UInt64.ofNat (getBE b)) = b := by
  have hl : getBE b < 2 ^ 64 := by simpa [h] using getBE_lt b
  rw [be64, UInt64.toNat_ofNat_of_lt' hl, putBE_getBE h]

def slice (b : Bytes) (off n : ℕ) : Bytes := (b.drop off).take n

variable {off n : ℕ}

theorem length_slice (h : off + n ≤ b.length) : (slice b off n).length = n := by
  simp only [slice, length_take, length_drop]; omega

variable {a b : Bytes}

theorem slice_append_left (h : off + n ≤ a.length) : slice (a ++ b) off n = slice a off n := by
  rw [slice, slice, drop_append_of_le_length (by omega),
    take_append_of_le_length (by simp; omega)]

theorem slice_append_right (h : a.length ≤ off) :
    slice (a ++ b) off n = slice b (off - a.length) n := by
  rw [slice, slice, drop_append, drop_eq_nil_of_le h, nil_append]

theorem slice_slice {off m o n : ℕ} (h : o + n ≤ m) :
    slice (slice b off m) o n = slice b (off + o) n := by
  rw [slice, slice, slice, drop_take, drop_drop, take_take, min_eq_left (by omega)]

theorem slice_append_slice (b : Bytes) (off m n : ℕ) :
    slice b off m ++ slice b (off + m) n = slice b off (m + n) := by
  rw [slice, slice, slice, take_add, drop_drop]

theorem slice_append_drop (b : Bytes) (off n : ℕ) :
    slice b off n ++ b.drop (off + n) = b.drop off := by
  rw [slice, ← drop_drop, take_append_drop]

theorem slice_zero {n : ℕ} (h : a.length = n) : slice (a ++ b) 0 n = a := by
  subst h; simp [slice]

/-- A field of a record laid out as the concatenation of its fields. -/
theorem slice_flatten {fs : List Bytes} {b rest : Bytes} (k : ℕ)
    (hk : fs[k]? = some b) (hoff : ((fs.take k).map List.length).sum = off)
    (hn : b.length = n) : slice (fs.flatten ++ rest) off n = b := by
  obtain ⟨hlt, rfl⟩ := List.getElem?_eq_some_iff.mp hk
  have hsplit : fs.flatten = (fs.take k).flatten ++ (fs[k] ++ (fs.drop (k + 1)).flatten) := by
    rw [← flatten_cons, ← drop_eq_getElem_cons hlt, ← flatten_append, take_append_drop]
  have hlen : (fs.take k).flatten.length = off := by rw [length_flatten, hoff]
  rw [hsplit, append_assoc, slice_append_right hlen.le, hlen, Nat.sub_self, append_assoc,
    slice_zero hn]

theorem getD_of_slice {i : ℕ} {x : UInt8} (h : slice b i 1 = [x]) : b.getD i 0 = x := by
  rcases hd : b.drop i with _ | ⟨y, t⟩
  · simp [slice, hd] at h
  · have hy : y = x := by simpa [slice, hd] using h
    have hi : b[i]? = some y := by
      have := congrArg List.head? hd
      simpa [head?_drop] using this
    simp [List.getD, hi, hy]

end Bytes

end VecDb

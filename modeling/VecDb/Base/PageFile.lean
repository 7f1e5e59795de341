import VecDb.Base.ByteFile

/-! # Files made of pages

Pages of a fixed size are numbered from 1. Writing one page changes no other
page that lies within the file.
-/

namespace VecDb.Bytes

variable {ps q r : ℕ} {f d : Bytes}

def pageOff (ps q : ℕ) : ℕ := (q - 1) * ps

def pageAt (ps : ℕ) (f : Bytes) (q : ℕ) : Bytes := slice f (pageOff ps q) ps

theorem pageOff_add (hq : 1 ≤ q) : pageOff ps q + ps = q * ps := by
  obtain ⟨k, rfl⟩ := Nat.exists_eq_add_of_le hq
  rw [pageOff, Nat.add_sub_cancel_left, Nat.add_mul, Nat.one_mul, Nat.add_comm]

theorem pageOff_le (hq : 1 ≤ q) (h : q < r) : pageOff ps q + ps ≤ pageOff ps r := by
  rw [pageOff_add hq]
  exact Nat.mul_le_mul_right _ (by omega)

theorem length_pageAt (hq : 1 ≤ q) (h : q * ps ≤ f.length) : (pageAt ps f q).length = ps :=
  length_slice (by rw [pageOff_add hq]; exact h)

theorem pageAt_writeAt_self (hd : d.length = ps) :
    pageAt ps (writeAt f (pageOff ps q) d) q = d := by
  rw [pageAt]
  subst hd
  exact slice_writeAt_self ..

theorem pageAt_writeAt_ne (hd : d.length = ps) (hq : 1 ≤ q) (hr : 1 ≤ r) (hne : r ≠ q)
    (hin : r * ps ≤ f.length) : pageAt ps (writeAt f (pageOff ps q) d) r = pageAt ps f r := by
  rcases Nat.lt_or_gt_of_ne hne with h | h
  · exact slice_writeAt_before (pageOff_le hr h) (by rw [pageOff_add hr]; exact hin)
  · exact slice_writeAt_after (by rw [hd]; exact pageOff_le hq h)

theorem length_le_writeAt (off : ℕ) : f.length ≤ (writeAt f off d).length := by
  rw [length_writeAt]; exact le_max_left ..

theorem page_le_writeAt (hd : d.length = ps) (hq : 1 ≤ q) :
    q * ps ≤ (writeAt f (pageOff ps q) d).length := by
  rw [length_writeAt, hd, pageOff_add hq]; exact le_max_right ..

end VecDb.Bytes

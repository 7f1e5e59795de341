import VecDb.Base.Bytes

/-! # Positional reads and writes

A file is a byte string. A write past the end grows it, filling any gap with
zeros; a read returns the bytes that exist. A crash may keep or lose each byte
written since the file was synced.
-/

namespace VecDb.Bytes

open List

def writeAt (f : Bytes) (off : ℕ) (p : Bytes) : Bytes :=
  f.take off ++ List.replicate (off - f.length) 0 ++ p ++ f.drop (off + p.length)

theorem length_writeAt (f p : Bytes) (off : ℕ) :
    (writeAt f off p).length = max f.length (off + p.length) := by
  simp only [writeAt, length_append, length_take, length_replicate, length_drop]
  omega

theorem writeAt_append (a b p : Bytes) :
    writeAt (a ++ b) a.length p = a ++ p ++ b.drop p.length := by
  simp [writeAt, drop_append]

theorem take_writeAt (f p : Bytes) (off : ℕ) :
    (writeAt f off p).take off = f.take off ++ List.replicate (off - f.length) 0 := by
  have hl : (f.take off ++ List.replicate (off - f.length) (0 : UInt8)).length = off := by
    simp only [length_append, length_take, length_replicate]; omega
  rw [writeAt, append_assoc, take_left' hl]

theorem drop_writeAt (f p : Bytes) (off : ℕ) :
    (writeAt f off p).drop off = p ++ f.drop (off + p.length) := by
  have hl : (f.take off ++ List.replicate (off - f.length) (0 : UInt8)).length = off := by
    simp only [length_append, length_take, length_replicate]; omega
  rw [writeAt, append_assoc, drop_left' hl]

theorem slice_writeAt_self (f p : Bytes) (off : ℕ) : slice (writeAt f off p) off p.length = p := by
  rw [slice, drop_writeAt, take_left' rfl]

theorem slice_eq_drop_take (f : Bytes) (off n : ℕ) :
    slice f off n = (f.take (off + n)).drop off := by
  rw [slice, drop_take, Nat.add_sub_cancel_left]

variable {f p : Bytes}

variable {i n o off : ℕ}

theorem slice_writeAt_before (h : o + n ≤ off)
    (hf : o + n ≤ f.length) : slice (writeAt f off p) o n = slice f o n := by
  have ht : (writeAt f off p).take (o + n) = f.take (o + n) := by
    rw [← Nat.min_eq_left h, ← take_take, take_writeAt, Nat.min_eq_left h,
      take_append_of_le_length (by simp only [length_take]; omega),
      take_take, Nat.min_eq_left h]
  rw [slice_eq_drop_take, slice_eq_drop_take, ht]

theorem slice_writeAt_after (h : off + p.length ≤ o) :
    slice (writeAt f off p) o n = slice f o n := by
  obtain ⟨k, rfl⟩ := Nat.exists_eq_add_of_le h
  have hd : (writeAt f off p).drop (off + p.length + k) = f.drop (off + p.length + k) := by
    rw [← drop_drop, ← drop_drop, drop_writeAt, drop_left' rfl, drop_drop]
  rw [slice, slice, hd]

theorem getElem?_writeAt (h : i < f.length) :
    (writeAt f off p)[i]? = if off ≤ i ∧ i < off + p.length then p[i - off]? else f[i]? := by
  by_cases hi : i < off
  · have hl : i < (f.take off).length := by simp only [length_take]; omega
    rw [if_neg (by omega), writeAt, append_assoc, append_assoc,
      getElem?_append_left hl, getElem?_take_of_lt hi]
  · have hd : (writeAt f off p)[i]? = ((writeAt f off p).drop off)[i - off]? := by
      rw [getElem?_drop, Nat.add_sub_cancel' (by omega)]
    rw [hd, drop_writeAt]
    by_cases hp : i < off + p.length
    · rw [if_pos (by omega), getElem?_append_left (by omega)]
    · rw [if_neg (by omega), getElem?_append_right (by omega), getElem?_drop]
      congr 1
      omega

/-- Overwrite the bytes from `off` on, within a buffer that does not grow. -/
def overlay (buf : Bytes) (off : ℕ) (p : Bytes) : Bytes := (writeAt buf off p).take buf.length

@[simp] theorem length_overlay (buf p : Bytes) (off : ℕ) :
    (overlay buf off p).length = buf.length := by
  simp only [overlay, length_take, length_writeAt]
  omega

theorem take_overlay {buf p : Bytes} {k : ℕ} (h : k ≤ buf.length) :
    (overlay buf off p).take k = overlay (buf.take k) off p := by
  have hk : (buf.take k).length = k := by simp only [length_take]; omega
  rw [overlay, overlay, hk, take_take, Nat.min_eq_left h]
  apply ext_getElem?
  intro i
  by_cases hi : i < k
  · rw [getElem?_take_of_lt hi, getElem?_take_of_lt hi, getElem?_writeAt (by omega),
      getElem?_writeAt (by omega), getElem?_take_of_lt hi]
  · rw [getElem?_take_eq_none (by omega), getElem?_take_eq_none (by omega)]

/-- What a crash may leave of a file that was synced as `base` and written to since: each byte is
one that some version of the file had. -/
structure Survives (base : Bytes) (versions : List Bytes) (f : Bytes) : Prop where
  length : base.length ≤ f.length
  bytes : ∀ i < base.length, ∃ v ∈ versions, f[i]? = v[i]?

theorem slice_getElem? {f : Bytes} (h : i < n) : (slice f off n)[i]? = f[off + i]? := by
  rw [slice, getElem?_take_of_lt h, getElem?_drop]

variable {versions : List Bytes}

theorem Survives.version {base f : Bytes} (hf : f ∈ versions)
    (h : base.length ≤ f.length) : Survives base versions f :=
  ⟨h, fun _ _ => ⟨f, hf, rfl⟩⟩

theorem Survives.slice {base f : Bytes} (hs : Survives base versions f)
    {off n : ℕ} (hn : off + n ≤ base.length)
    (h : ∀ v ∈ versions, slice v off n = slice base off n) : slice f off n = slice base off n := by
  apply ext_getElem?
  intro i
  by_cases hi : i < n
  · obtain ⟨v, hv, hfv⟩ := hs.bytes (off + i) (by omega)
    rw [slice_getElem? hi, hfv, ← slice_getElem? hi, h v hv]
  · have hlen : ∀ b : Bytes, (Bytes.slice b off n)[i]? = none := fun b => by
      rw [getElem?_eq_none]
      simp only [Bytes.slice, length_take]
      omega
    rw [hlen, hlen]

end VecDb.Bytes

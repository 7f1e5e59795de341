import VecDb.Base.Varint
import VecDb.Catalog.Value

/-! # Arrays as bytes

The encoding of an array tells its element kind, its elements and where it ends.
-/

namespace VecDb.Catalog

open List Varint

/-- A value that may stand in an array of a kind. The length of a text is a machine integer. -/
structure Item (elem : Kind) (v : Value) : Prop where
  kind : v.kind = elem
  not_null : v ≠ .null
  scalar : v.kind ≠ .array
  length : v.b.length < 2 ^ 63

variable {x y : UInt64} {r s : Bytes} {elem elem' : Kind} {v w : Value} {items items' : List Value}

theorem uvarint_go {g n : ℕ} (h : n < 0x80 ^ (g + 1)) : uvarint.go (g + 1) n = groups g n := by
  induction g generalizing n with
  | zero => exact if_neg (Nat.not_le.mpr h)
  | succ g ih =>
    rw [uvarint.go, groups]
    split
    · rw [ih ((Nat.div_lt_iff_lt_mul (by decide)).mpr h)]
    · rfl

theorem uvarint_inj (h : uvarint x ++ r = uvarint y ++ s) : x = y ∧ r = s := by
  have hput (x : UInt64) : uvarint x = put x :=
    uvarint_go (Nat.lt_trans x.toNat_lt (by decide))
  have hget := get_put x r
  rw [← hput, h, hput, get_put] at hget
  cases hget
  exact ⟨rfl, rfl⟩

theorem uvarint_length_inj {m n : ℕ} (hm : m < 2 ^ 63) (hn : n < 2 ^ 63)
    (h : uvarint (UInt64.ofNat m) ++ r = uvarint (UInt64.ofNat n) ++ s) : m = n ∧ r = s := by
  obtain ⟨hmn, hrs⟩ := uvarint_inj h
  have htoNat {n : ℕ} (hn : n < 2 ^ 63) : (UInt64.ofNat n).toNat = n :=
    UInt64.toNat_ofNat_of_lt' (hn.trans (by decide))
  exact ⟨by rw [← htoNat hm, hmn, htoNat hn], hrs⟩

/-- An element is read off the front, whatever follows it. -/
theorem Item.encodeItem_inj (hv : Item elem v) (hw : Item elem w)
    (h : encodeItem elem v ++ r = encodeItem elem w ++ s) : v = w ∧ r = s := by
  obtain ⟨rfl, hnull, hscalar, hb⟩ := hv
  have hk := hw.kind
  have hb' := hw.length
  cases v <;> cases w <;> cases hk
  case null => exact absurd rfl hnull
  case array => exact absurd rfl hscalar
  case text | blob | json =>
    simp only [Value.kind, encodeItem, append_assoc] at h
    obtain ⟨hlen, h⟩ := uvarint_length_inj hb hb' h
    obtain ⟨rfl, rfl⟩ := append_inj h hlen
    exact ⟨rfl, rfl⟩
  case double f f' | real f f' =>
    obtain ⟨hbits, rfl⟩ := uvarint_inj h
    obtain rfl : f = f' := congrArg Float64.mk hbits
    exact ⟨rfl, rfl⟩
  case bool b b' =>
    obtain ⟨hi, rfl⟩ := uvarint_inj h
    cases b <;> cases b' <;> first | exact ⟨rfl, rfl⟩ | cases hi
  case bigInt n n' | int n n' | timestamp n n' =>
    obtain ⟨hi, rfl⟩ := uvarint_inj h
    obtain rfl : n = n' := congrArg UInt64.toInt64 hi
    exact ⟨rfl, rfl⟩

theorem flatMap_encodeItem_inj (hlen : items.length = items'.length)
    (hx : ∀ v ∈ items, Item elem v) (hy : ∀ v ∈ items', Item elem v)
    (h : items.flatMap (encodeItem elem) ++ r = items'.flatMap (encodeItem elem) ++ s) :
    items = items' ∧ r = s := by
  induction items generalizing items' with
  | nil =>
    cases length_eq_zero_iff.mp hlen.symm
    exact ⟨rfl, h⟩
  | cons v items ih =>
    obtain ⟨w, items', rfl⟩ := exists_cons_of_length_eq_add_one hlen.symm
    obtain ⟨hv, hx⟩ := forall_mem_cons.mp hx
    obtain ⟨hw, hy'⟩ := forall_mem_cons.mp hy
    rw [flatMap_cons, flatMap_cons, append_assoc, append_assoc] at h
    obtain ⟨rfl, hrest⟩ := hv.encodeItem_inj hw h
    obtain ⟨rfl, rfl⟩ := ih (Nat.succ.inj hlen) hx hy' hrest
    exact ⟨rfl, rfl⟩

/-- One encoding starts with another only if the arrays are the same, bit for bit. -/
theorem encodeArray_prefix_iff (hlen : items.length < 2 ^ 63) (hlen' : items'.length < 2 ^ 63)
    (hx : ∀ v ∈ items, Item elem v) (hy : ∀ v ∈ items', Item elem' v) :
    encodeArray elem items <+: encodeArray elem' items' ↔ elem = elem' ∧ items = items' := by
  constructor
  · rintro ⟨t, h⟩
    rw [encodeArray, encodeArray, cons_append, cons_append, cons_append, cons.injEq,
      append_assoc] at h
    obtain ⟨hk, h⟩ := h
    obtain rfl : elem = elem' := by cases elem <;> cases elem' <;> first | rfl | cases hk
    obtain ⟨hcount, h⟩ := uvarint_length_inj hlen hlen' h
    rw [← append_nil (items'.flatMap _)] at h
    exact ⟨rfl, (flatMap_encodeItem_inj hcount hx hy h).1⟩
  · rintro ⟨rfl, rfl⟩
    exact prefix_rfl

theorem encodeArray_prefix_iff_one : ¬ encodeArray .text [] <+: encodeArray .text [.text [1]] := by
  have hitem : ∀ v ∈ [Value.text [1]], Item .text v :=
    forall_mem_singleton.mpr ⟨rfl, nofun, nofun, by decide⟩
  rw [encodeArray_prefix_iff (by decide) (by decide) (forall_mem_nil _) hitem]
  rintro ⟨-, h⟩
  cases h

end VecDb.Catalog

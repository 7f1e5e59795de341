import VecDb.Base.Bytes

/-! # Variable-length integers

A number is cut into groups of seven bits, the lowest first, one to a byte. A number of 64 bits
takes ten groups at most; what the tenth holds beyond the 64 bits is dropped.
-/

namespace VecDb.Varint

open List Nat

/-- The groups of a number, of which there may be some more than one. -/
def groups : ℕ → ℕ → Bytes
  | 0, n => [UInt8.ofNat n]
  | g + 1, n =>
    if 0x80 ≤ n then UInt8.ofNat (n % 0x80 + 0x80) :: groups g (n / 0x80) else [UInt8.ofNat n]

def put (x : UInt64) : Bytes := groups 9 x.toNat

/-- The number at the front, in some groups at most, and what follows it. -/
def take : ℕ → Bytes → Option (ℕ × Bytes)
  | 0, _ => none
  | _ + 1, [] => none
  | g + 1, b :: rest =>
    if b < 0x80 then some (b.toNat, rest)
    else (take g rest).map fun (n, rest') => (b.toNat % 0x80 + 0x80 * n, rest')

def get (b : Bytes) : Option (UInt64 × Bytes) :=
  (take 10 b).map fun (n, rest) => (UInt64.ofNat n, rest)

variable {g n : ℕ} {b rest more : Bytes} {x : UInt64}

theorem take_groups (h : n < 0x80 ^ (g + 1)) : take (g + 1) (groups g n ++ rest) = some (n, rest) := by
  induction g generalizing n with
  | zero =>
    have hn : n < 0x80 := by simpa using h
    have hb : (UInt8.ofNat n).toNat = n := by rw [Bytes.toNat_ofNat_byte]; omega
    have hlt : UInt8.ofNat n < 0x80 := by rw [UInt8.lt_iff_toNat_lt, hb]; exact hn
    rw [groups, singleton_append, take, if_pos hlt, hb]
  | succ g ih =>
    rw [groups]
    split
    · rename_i hn
      have hb : (UInt8.ofNat (n % 0x80 + 0x80)).toNat = n % 0x80 + 0x80 := by
        rw [Bytes.toNat_ofNat_byte]; omega
      have hge : ¬ UInt8.ofNat (n % 0x80 + 0x80) < 0x80 := by
        rw [UInt8.lt_iff_toNat_lt, hb]
        exact Nat.not_lt.mpr (Nat.le_add_left ..)
      have hdiv : n / 0x80 < 0x80 ^ (g + 1) := by
        rw [Nat.div_lt_iff_lt_mul (by decide), ← pow_succ]
        exact h
      have hsum : (n % 0x80 + 0x80) % 0x80 + 0x80 * (n / 0x80) = n := by omega
      rw [cons_append, take, if_neg hge, ih hdiv, hb, Option.map_some]
      dsimp only
      rw [hsum]
    · rename_i hn
      have hb : (UInt8.ofNat n).toNat = n := by rw [Bytes.toNat_ofNat_byte]; omega
      have hlt : UInt8.ofNat n < 0x80 := by
        rw [UInt8.lt_iff_toNat_lt, hb]
        exact not_le.mp hn
      rw [singleton_append, take, if_pos hlt, hb]

theorem length_groups_pos (g n : ℕ) : 0 < (groups g n).length := by
  cases g with
  | zero => exact one_pos
  | succ g =>
    rw [groups]
    split <;> exact succ_pos _

theorem length_groups_mono {n' : ℕ} (h : n ≤ n') : (groups g n).length ≤ (groups g n').length := by
  induction g generalizing n n' with
  | zero => exact le_refl _
  | succ g ih =>
    rw [groups]
    split
    · rename_i hn
      rw [groups, if_pos (hn.trans h)]
      exact succ_le_succ (ih (Nat.div_le_div_right h))
    · exact length_groups_pos (g + 1) n'

theorem get_put (x : UInt64) (rest : Bytes) : get (put x ++ rest) = some (x, rest) := by
  have hx : x.toNat < 0x80 ^ (9 + 1) := lt_trans x.toNat_lt (by decide)
  rw [get, put, take_groups hx, Option.map_some]
  dsimp only
  rw [UInt64.ofNat_toNat]

theorem take_eq_some (h : take g b = some (n, rest)) :
    ∃ front, b = front ++ rest ∧ front ≠ [] ∧ front.length ≤ g ∧
      ∀ more, take g (front ++ more) = some (n, more) := by
  induction g generalizing b n with
  | zero => cases h
  | succ g ih =>
    cases b with
    | nil => cases h
    | cons c b =>
      rw [take] at h
      split at h
      · rename_i hc
        cases h
        refine ⟨[c], rfl, nofun, by simp, fun more => ?_⟩
        rw [singleton_append, take, if_pos hc]
      · rename_i hc
        obtain ⟨⟨m, r⟩, hm, he⟩ := Option.map_eq_some_iff.mp h
        cases he
        obtain ⟨front, rfl, -, hlen, hmore⟩ := ih hm
        refine ⟨c :: front, rfl, nofun, succ_le_succ hlen, fun more => ?_⟩
        rw [cons_append, take, if_neg hc, hmore]
        rfl

theorem get_eq_some (h : get b = some (x, rest)) :
    ∃ front, b = front ++ rest ∧ front ≠ [] ∧ ∀ more, get (front ++ more) = some (x, more) := by
  obtain ⟨⟨n, r⟩, hn, he⟩ := Option.map_eq_some_iff.mp h
  cases he
  obtain ⟨front, hb, hne, -, hmore⟩ := take_eq_some hn
  exact ⟨front, hb, hne, fun more => by rw [get, hmore]; rfl⟩

theorem length_of_get (h : get b = some (x, rest)) : rest.length < b.length := by
  obtain ⟨front, rfl, hne, -⟩ := get_eq_some h
  rw [length_append]
  exact Nat.lt_add_of_pos_left (length_pos_iff.mpr hne)

end VecDb.Varint

import VecDb.Bulk.Source

/-! # Where the binary sources end

The sources of a declared number of rows take any end of their input for the end of the rows, and
those with a dimension before each row an end inside of a dimension.
-/

namespace VecDb.Bulk

open List

variable {S : Type} {next : S → Option (Outcome × S)} {I : S → Prop} {bound rowIdx : S → UInt64}
  {input : S → Bytes} {width : S → ℕ} {s t : S}

/-- The calls between the two states have all given rows. -/
def Gives (next : S → Option (Outcome × S)) : S → S → Prop :=
  Relation.ReflTransGen fun s t => ∃ r, next s = some (.row r, t)

def Stops (next : S → Option (Outcome × S)) (s : S) : Prop := ∃ t, next s = some (.stop, t)

/-- Whenever the source has given nothing but rows and says that it is at its end, it is done. -/
def EndsOnly (next : S → Option (Outcome × S)) (done : S → Prop) (s : S) : Prop :=
  ∀ t, Gives next s t → Stops next t → done t

theorem Gives.stop_unique {u : S} (ht : Gives next s t) (hu : Gives next s u) (hst : Stops next t)
    (hsu : Stops next u) : t = u := by
  have hend {v w : S} (hv : Stops next v) (h : Gives next v w) : v = w := by
    rcases h.cases_head with h | ⟨x, ⟨r, hr⟩, -⟩
    · exact h
    · obtain ⟨y, hy⟩ := hv
      cases hr.symm.trans hy
  induction ht using Relation.ReflTransGen.head_induction_on with
  | refl => exact hend hst hu
  | head h _ ih =>
    obtain ⟨r, hr⟩ := h
    rcases hu.cases_head with rfl | ⟨x, ⟨r', hr'⟩, hu⟩
    · obtain ⟨y, hy⟩ := hsu
      cases hr.symm.trans hy
    · cases hr.symm.trans hr'
      exact ih hu

/-- A source that reads a row of fixed width unless it has counted all of them. -/
structure Counts (next : S → Option (Outcome × S)) (I : S → Prop) (bound rowIdx : S → UInt64)
    (input : S → Bytes) (width : S → ℕ) : Prop where
  stop : ∀ s, bound s ≤ rowIdx s ∨ (input s).length < width s → Stops next s
  row : ∀ s, I s → ¬ bound s ≤ rowIdx s → width s ≤ (input s).length → ∃ r t,
    next s = some (.row r, t) ∧ I t ∧ bound t = bound s ∧ rowIdx t = rowIdx s + 1 ∧
    width t = width s ∧ input t = (input s).drop (width s)

theorem toNat_sub_succ {bound i : UInt64} (h : ¬ bound ≤ i) :
    bound.toNat - (i + 1).toNat + 1 = bound.toNat - i.toNat := by
  have hlt : i.toNat < bound.toNat := UInt64.lt_iff_toNat_lt.mp (UInt64.not_le.mp h)
  have hsucc : (i + 1).toNat = i.toNat + 1 := by
    rw [UInt64.toNat_add]
    exact Nat.mod_eq_of_lt (lt_of_le_of_lt hlt bound.toNat_lt)
  omega

section Counts

variable (h : Counts next I bound rowIdx input width)
include h

theorem Counts.next_row {o : Outcome} (hs : I s) (hn : next s = some (o, t)) (hne : o ≠ .stop) :
    I t ∧ (bound t).toNat - (rowIdx t).toNat + 1 = (bound s).toNat - (rowIdx s).toNat ∧
      width t = width s ∧ (input t).length + width s = (input s).length := by
  have hgo : ¬ (bound s ≤ rowIdx s ∨ (input s).length < width s) := fun hstop => by
    obtain ⟨t', ht'⟩ := h.stop s hstop
    cases hn.symm.trans ht'
    exact hne rfl
  rw [not_or, not_lt] at hgo
  obtain ⟨r, t', ht', hI, hbound, hidx, hwidth, hinput⟩ := h.row s hs hgo.1 hgo.2
  cases hn.symm.trans ht'
  rw [hbound, hidx, hwidth, hinput, length_drop]
  exact ⟨hI, toNat_sub_succ hgo.1, rfl, Nat.sub_add_cancel hgo.2⟩

theorem Counts.endsOnly_iff (hs : I s) : EndsOnly next (fun t => bound t ≤ rowIdx t) s ↔
    ((bound s).toNat - (rowIdx s).toNat) * width s ≤ (input s).length := by
  constructor
  · intro hends
    induction hn : (bound s).toNat - (rowIdx s).toNat generalizing s with
    | zero => simp
    | succ n ih =>
      have hlt : ¬ bound s ≤ rowIdx s := fun hle => by
        have := UInt64.le_iff_toNat_le.mp hle
        omega
      have hwide : width s ≤ (input s).length :=
        not_lt.mp fun hshort => hlt (hends s .refl (h.stop s (.inr hshort)))
      obtain ⟨r, t, ht, -⟩ := h.row s hs hlt hwide
      obtain ⟨hI, hleft, hwidth, hbytes⟩ := h.next_row hs ht nofun
      have := ih hI (fun u hu => hends u (.head ⟨r, ht⟩ hu)) (by omega)
      rw [hwidth] at this
      rw [Nat.succ_mul]
      omega
  · intro hle t ht hstop
    induction ht using Relation.ReflTransGen.head_induction_on with
    | refl =>
      by_contra hlt
      have hpos : 0 < (bound t).toNat - (rowIdx t).toNat := (toNat_sub_succ hlt).symm ▸ Nat.succ_pos _
      obtain ⟨r, u, hu, -⟩ := h.row t hs hlt ((Nat.le_mul_of_pos_left _ hpos).trans hle)
      obtain ⟨v, hv⟩ := hstop
      cases hu.symm.trans hv
    | head hrow _ ih =>
      obtain ⟨r, hr⟩ := hrow
      obtain ⟨hI, hleft, hwidth, hbytes⟩ := h.next_row hs hr nofun
      refine ih hI ?_
      rw [← hleft, Nat.succ_mul] at hle
      rw [hwidth]
      omega

end Counts

variable {input : Bytes} {n : ℕ}

theorem readFull_short (h : input.length < n) : ∃ e, readFull n input = (.error e, []) := by
  rw [readFull, if_neg (Nat.ne_zero_of_lt h), if_pos h]
  split <;> exact ⟨_, rfl⟩

theorem readFull_full (h : n ≤ input.length) :
    readFull n input = (.ok (input.take n), input.drop n) := by
  rw [readFull]
  split
  · subst n
    rfl
  · rw [if_neg (ne_nil_of_length_pos (by omega)), if_neg (Nat.not_lt.mpr h)]

theorem FbinSource.counts (rt : Runtime) : Counts (fun s => some (FbinSource.next rt s))
    (fun _ => True) (fun s => s.count.toUInt64) FbinSource.rowIdx FbinSource.input
    fun s => 4 * s.dim := by
  constructor <;> intro s
  · intro hstop
    change ∃ t, some (FbinSource.next rt s) = _
    rw [FbinSource.next]
    by_cases hdone : s.count.toUInt64 ≤ s.rowIdx
    · exact ⟨s, by rw [if_pos hdone]⟩
    · obtain ⟨e, he⟩ := readFull_short (hstop.resolve_left hdone)
      exact ⟨_, by rw [if_neg hdone, he]⟩
  · intro _ hlt hle
    rw [FbinSource.next, if_neg hlt, readFull_full hle]
    exact ⟨_, _, rfl, trivial, rfl, rfl, rfl, rfl⟩

theorem NpySource.next_eq_read {s : NpySource}
    (h : s.rows.toUInt64 ≤ s.rowIdx ∨ s.input.length < s.width ∨ s.Sized) : s.next = some s.read := by
  refine if_neg ?_
  rintro ⟨hlt, hle, hsized⟩
  rcases h with h | h | h
  · exact absurd h (UInt64.not_le.mpr hlt)
  · exact absurd hle (not_le.mpr h)
  · exact hsized h

theorem NpySource.counts : Counts NpySource.next Sized (fun s => s.rows.toUInt64)
    NpySource.rowIdx NpySource.input NpySource.width := by
  constructor <;> intro s
  · intro hstop
    unfold Stops
    rw [next_eq_read (hstop.imp_right .inl), read]
    by_cases hdone : s.rows.toUInt64 ≤ s.rowIdx
    · exact ⟨s, by rw [if_pos hdone]⟩
    · obtain ⟨e, he⟩ := readFull_short (hstop.resolve_left hdone)
      exact ⟨_, by rw [if_neg hdone, he]⟩
  · intro hsized hlt hle
    rw [next_eq_read (.inr (.inr hsized)), read, if_neg hlt, readFull_full hle]
    exact ⟨_, _, rfl, hsized, rfl, rfl, rfl, rfl⟩

theorem XvecsSource.stop_iff (rt : Runtime) (s : XvecsSource) :
    (s.next rt).1 = .stop ↔ s.input.length < 4 := by
  rw [XvecsSource.next]
  by_cases h : s.input.length < 4
  · obtain ⟨e, he⟩ := readFull_short h
    rw [he]
    exact iff_of_true rfl h
  · rw [readFull_full (not_lt.mp h)]
    refine iff_of_false ?_ h
    dsimp only
    split
    · nofun
    · split
      · nofun
      · split <;> nofun

end VecDb.Bulk

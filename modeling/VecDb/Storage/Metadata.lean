import VecDb.Base.Assoc
import VecDb.Storage.Segment
import VecDb.Storage.Zone

/-! # The metadata store

Each column has a value for every slot of every segment, null where nothing was written, and the
zone map of each segment. A row is written in the order in which Go ranges over the columns, and
fails at the first value that does not fit.
-/

namespace VecDb.Storage

open List

structure ColumnDef where
  id : ColID
  type : ColType
  deriving DecidableEq

/-- The metadata of a point, in the order in which a loop ranges over it. -/
structure MetaRow where
  entries : List (ColID × Value)
  nodup : (entries.map Prod.fst).Nodup

def MetaRow.get? (row : MetaRow) (col : ColID) : Option Value := row.entries.lookup col

/-- The order in which a loop ranges over the columns of a store. -/
structure RangeOrder where
  order : List ColID → List ColID
  perm : ∀ cols, (order cols).Perm cols

def RangeOrder.id : RangeOrder := ⟨fun cols => cols, fun _ => .refl _⟩

structure MetadataStore where
  columns : List ColumnDef
  vals : ColID → ℕ → ℕ → Value := fun _ _ _ => .null
  zone : ColID → ℕ → ℕ → ZoneBlock := fun _ _ _ => {}

def newMetadataStore (defs : List ColumnDef) : MetadataStore := { columns := defs }

namespace MetadataStore

/-- The type of a column: of two definitions with the same id the later one counts. -/
def colType (m : MetadataStore) (col : ColID) : Option ColType :=
  (m.columns.reverse.find? fun d => d.id = col).map ColumnDef.type

def has (m : MetadataStore) (col : ColID) : Bool := (m.colType col).isSome

def colIDs (m : MetadataStore) : List ColID := (m.columns.map ColumnDef.id).dedup

def put (m : MetadataStore) (col : ColID) (segSeq slotPos : ℕ) (v : Value) : MetadataStore :=
  { m with
    vals := fun c s p => if c = col ∧ s = segSeq ∧ p = slotPos then v else m.vals c s p
    zone := fun c s b =>
      if c = col ∧ s = segSeq ∧ b = slotPos / zoneBlockSize then (m.zone c s b).fold v
      else m.zone c s b }

def readAt (m : MetadataStore) (col : ColID) (segSeq slotPos : ℕ) : Except Err Value :=
  if m.has col then .ok (m.vals col segSeq slotPos) else .error .unknownColumn

def writeAt (m : MetadataStore) (col : ColID) (segSeq slotPos : ℕ) (v : Value) :
    Except Err MetadataStore :=
  match m.colType col with
  | none => .error .unknownColumn
  | some t =>
    if !v.isNull && !v.matchesType t then .error .schemaMismatch
    else .ok (m.put col segSeq slotPos v)

/-- Write the given columns of a row; a column that the row does not have is set to null. -/
def writeCols (m : MetadataStore) (segSeq slotPos : ℕ) (row : MetaRow) :
    List ColID → MetadataStore × Except Err Unit
  | [] => (m, .ok ())
  | col :: cols =>
    match m.writeAt col segSeq slotPos ((row.get? col).getD .null) with
    | .error e => (m, .error e)
    | .ok m' => m'.writeCols segSeq slotPos row cols

def writeRow (m : MetadataStore) (order : RangeOrder) (segSeq slotPos : ℕ) (row : MetaRow) :
    MetadataStore × Except Err Unit :=
  match m.writeCols segSeq slotPos row (order.order m.colIDs) with
  | (m', .error e) => (m', .error e)
  | (m', .ok ()) =>
    if row.entries.any fun e => !m.has e.1 then (m', .error .unknownColumn) else (m', .ok ())

/-- The value of a cell as a filter reads it: null for a column that is not there. -/
def cell (m : MetadataStore) (segSeq slotPos : ℕ) (col : ColID) : Value :=
  match m.readAt col segSeq slotPos with
  | .ok v => v
  | .error _ => .null

def Fits (m : MetadataStore) (col : ColID) (v : Value) : Prop :=
  ∃ t, m.colType col = some t ∧ (v.isNull = true ∨ v.matchesType t = true)

instance (m : MetadataStore) (col : ColID) (v : Value) : Decidable (m.Fits col v) :=
  match h : m.colType col with
  | none => .isFalse fun ⟨_, ht, _⟩ => nomatch h.symm.trans ht
  | some t => decidable_of_iff (v.isNull = true ∨ v.matchesType t = true)
      ⟨fun hv => ⟨t, h, hv⟩, fun ⟨_, ht, hv⟩ => by cases h.symm.trans ht; exact hv⟩

/-- Every cell is null or of its column's type, and its block has counted it. -/
structure WF (m : MetadataStore) : Prop where
  typed : ∀ col t seq slot, m.colType col = some t →
    (m.vals col seq slot).isNull = true ∨ (m.vals col seq slot).matchesType t = true
  zones : ∀ col t seq block, m.colType col = some t → (m.zone col seq block).Typed t
  covered : ∀ col seq slot, m.has col = true →
    (m.zone col seq (slot / zoneBlockSize)).Covers (m.vals col seq slot)

theorem wf_new (defs : List ColumnDef) : (newMetadataStore defs).WF where
  typed _ _ _ _ _ := .inl rfl
  zones _ _ _ _ _ h := nomatch h
  covered _ _ _ _ h := nomatch h

/-- One store is another one with new values in the cells of one slot. -/
structure Writes (seq slot : ℕ) (m m' : MetadataStore) : Prop where
  columns : m'.columns = m.columns
  vals : ∀ col s p, ¬ (s = seq ∧ p = slot) → m'.vals col s p = m.vals col s p
  zone : ∀ col s b, (m.zone col s b).Widened (m'.zone col s b)
  wf : m.WF → m'.WF

variable {m m' m'' : MetadataStore} {seq slot : ℕ} {col : ColID} {v : Value} {row : MetaRow}

theorem Writes.refl (m : MetadataStore) : Writes seq slot m m :=
  ⟨rfl, fun _ _ _ _ => rfl, fun _ _ _ => .refl _, id⟩

theorem Writes.trans (h : Writes seq slot m m') (h' : Writes seq slot m' m'') :
    Writes seq slot m m'' where
  columns := h'.columns.trans h.columns
  vals col s p hp := (h'.vals col s p hp).trans (h.vals col s p hp)
  zone col s b := (h.zone col s b).trans (h'.zone col s b)
  wf hm := h'.wf (h.wf hm)

theorem writes_put (hv : m.Fits col v) : Writes seq slot m (m.put col seq slot v) := by
  constructor
  · rfl
  · intro c s p hp
    exact if_neg fun h => hp h.2
  · intro c s b
    dsimp only [put]
    split
    · exact ZoneBlock.widened_fold _ _
    · exact .refl _
  · intro hm
    obtain ⟨t, ht, hvt⟩ := hv
    constructor
    · intro c t' s p hc
      dsimp only [put]
      split
      · rename_i h
        obtain ⟨rfl, -⟩ := h
        cases ht.symm.trans hc
        exact hvt
      · exact hm.typed c t' s p hc
    · intro c t' s b hc
      dsimp only [put]
      split
      · rename_i h
        obtain ⟨rfl, -⟩ := h
        cases ht.symm.trans hc
        exact (hm.zones _ _ _ _ ht).fold hvt
      · exact hm.zones c t' s b hc
    · intro c s p hc
      obtain ⟨t', ht'⟩ := Option.isSome_iff_exists.mp (show (m.colType c).isSome from hc)
      have hcov := hm.covered c s p hc
      dsimp only [put]
      by_cases h : c = col ∧ s = seq ∧ p = slot
      · obtain ⟨rfl, rfl, rfl⟩ := h
        simpa using ZoneBlock.covers_fold_self
      · rw [if_neg h]
        split
        · exact hcov.fold (hm.zones _ _ _ _ ht') (hm.typed _ _ _ _ ht')
        · exact hcov

@[simp] theorem fits_put {c : ColID} {s p : ℕ} {w : Value} :
    (m.put c s p w).Fits col v ↔ m.Fits col v := Iff.rfl

theorem writeAt_fits (h : m.Fits col v) : m.writeAt col seq slot v = .ok (m.put col seq slot v) := by
  obtain ⟨t, ht, hv⟩ := h
  rw [writeAt, ht]
  rcases hv with hv | hv <;> simp [hv]

theorem writeAt_misfit (h : ¬ m.Fits col v) : ∃ e, m.writeAt col seq slot v = .error e := by
  unfold writeAt
  rcases ht : m.colType col with _ | t
  · exact ⟨_, rfl⟩
  · refine ⟨.schemaMismatch, if_pos ?_⟩
    have : ¬ (v.isNull = true ∨ v.matchesType t = true) := fun hv => h ⟨t, ht, hv⟩
    simpa using this

theorem writes_writeCols (cols : List ColID) :
    Writes seq slot m (m.writeCols seq slot row cols).1 := by
  induction cols generalizing m with
  | nil => exact .refl _
  | cons col cols ih =>
    rw [writeCols]
    by_cases h : m.Fits col ((row.get? col).getD .null)
    · rw [writeAt_fits h]
      exact (writes_put h).trans ih
    · obtain ⟨e, he⟩ := @writeAt_misfit m seq slot _ _ h
      rw [he]
      exact .refl _

theorem writes_writeRow (order : RangeOrder) :
    Writes seq slot m (m.writeRow order seq slot row).1 := by
  have h := @writes_writeCols m seq slot row (order.order m.colIDs)
  unfold writeRow
  rcases hw : m.writeCols seq slot row (order.order m.colIDs) with ⟨m', e | _⟩ <;> rw [hw] at h
  · exact h
  · dsimp only
    split <;> exact h

theorem writeCols_ok_iff (cols : List ColID) : (m.writeCols seq slot row cols).2 = .ok () ↔
      ∀ col ∈ cols, m.Fits col ((row.get? col).getD .null) := by
  induction cols generalizing m with
  | nil => simp [writeCols]
  | cons col cols ih =>
    rw [writeCols, forall_mem_cons]
    by_cases h : m.Fits col ((row.get? col).getD .null)
    · rw [writeAt_fits h]
      exact ih.trans (by simp only [fits_put, h, true_and])
    · obtain ⟨e, he⟩ := @writeAt_misfit m seq slot _ _ h
      rw [he]
      simp [h]

theorem mem_colIDs : col ∈ m.colIDs ↔ m.has col = true := by
  simp only [colIDs, mem_dedup, mem_map, has, colType, Option.isSome_map,
    find?_isSome, mem_reverse, decide_eq_true_eq]

theorem fits_null (h : m.has col = true) : m.Fits col .null := by
  obtain ⟨t, ht⟩ := Option.isSome_iff_exists.mp h
  exact ⟨t, ht, .inl rfl⟩

theorem Fits.has (h : m.Fits col v) : m.has col = true := by
  obtain ⟨t, ht, -⟩ := h
  exact Option.isSome_iff_exists.mpr ⟨t, ht⟩

theorem get?_eq_some {row : MetaRow} : row.get? col = some v ↔ (col, v) ∈ row.entries :=
  Assoc.lookup_iff_mem row.nodup

theorem writeRow_ok_iff (order : RangeOrder) :
    (m.writeRow order seq slot row).2 = .ok () ↔ ∀ e ∈ row.entries, m.Fits e.1 e.2 := by
  have hcols := @writeCols_ok_iff m seq slot row (order.order m.colIDs)
  constructor
  · intro h e he
    unfold writeRow at h
    rcases hw : m.writeCols seq slot row (order.order m.colIDs) with ⟨m', r | _⟩ <;>
      rw [hw] at h hcols
    · cases h
    · dsimp only at h
      split at h
      · cases h
      · rename_i hall
        have hhas : m.has e.1 = true := by
          simp only [any_eq_true, not_exists, not_and, Bool.not_eq_true, Bool.not_eq_false'] at hall
          exact hall e he
        have hfit := hcols.mp rfl e.1 ((order.perm _).mem_iff.mpr (mem_colIDs.mpr hhas))
        rwa [get?_eq_some.mpr he] at hfit
  · intro h
    have hok : (m.writeCols seq slot row (order.order m.colIDs)).2 = .ok () := by
      rw [hcols]
      intro col hcol
      have hhas := mem_colIDs.mp ((order.perm _).mem_iff.mp hcol)
      rcases hg : row.get? col with _ | v
      · exact fits_null hhas
      · exact h _ (get?_eq_some.mp hg)
    unfold writeRow
    rcases hw : m.writeCols seq slot row (order.order m.colIDs) with ⟨m', r | _⟩ <;> rw [hw] at hok
    · cases hok
    · dsimp only
      rw [if_neg]
      simp only [any_eq_true, not_exists, not_and, Bool.not_eq_true, Bool.not_eq_false']
      exact fun e he => (h e he).has

theorem colType_of_mem {d : ColumnDef} (h : (m.columns.map ColumnDef.id).Nodup)
    (hd : d ∈ m.columns) : m.colType d.id = some d.type := by
  have hnodup : (m.columns.reverse.map ColumnDef.id).Nodup := by
    rw [map_reverse]
    exact nodup_reverse.mpr h
  rw [colType, Assoc.find?_key hnodup (mem_reverse.mpr hd), Option.map_some]

end MetadataStore

end VecDb.Storage

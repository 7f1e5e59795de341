import VecDb.Storage.Abort
import VecDb.Storage.Owned

/-! # The table of a collection

A collection without its slots is a table from points to a vector and cells; under a transaction
it is two, the current one and the one that an abort brings back. Two collections with the same
table answer alike, wherever their points lie.
-/

namespace VecDb.Storage

open MetadataStore Collection Function Option Draft Engine

/-- What a reader finds of a point. -/
@[ext]
structure Entry where
  vec : Vec
  cells : ColID → Value

def Entry.project (e : Entry) (cols : List ColID) : List (ColID × Value) :=
  cols.filterMap fun col => if (e.cells col).isNull then none else some (col, e.cells col)

structure Shape where
  dims : UInt32
  codec : VecCodec
  columns : List ColumnDef

namespace Shape

def store (s : Shape) : MetadataStore := newMetadataStore s.columns

def rowError (s : Shape) (order : RangeOrder) (row : MetaRow) : Option Err :=
  failure (s.store.writeRow order 0 0 row).2

def entry (s : Shape) (vec : Vec) (row : MetaRow) : Entry where
  vec := s.codec.decode (s.codec.encode vec)
  cells col := if s.store.has col then (row.get? col).getD .null else .null

end Shape

/-- The contents of a collection under a transaction. -/
@[ext]
structure Table where
  shape : Shape
  now : PointID → Option Entry := fun _ => none
  /-- What an abort brings back. -/
  base : PointID → Option Entry := fun _ => none
  /-- The points that entries of the undo log are about. -/
  touched : PointID → Prop := fun _ => False

/-- The call writes or deletes a whole point. -/
def Write.Whole : Write → Prop
  | .updateMeta _ _ => False
  | _ => True

namespace Table

open Classical in
/-- The place of a replaced point is not in the undo log: an abort loses the point. -/
noncomputable def retire (T : Table) (id : PointID) : Table :=
  { T with
    now := update T.now id none
    base := if T.touched id then T.base else update T.base id none }

def put (T : Table) (id : PointID) (e : Option Entry) : Table :=
  { T with
    now := update T.now id e
    touched := fun id' => id' = id ∨ T.touched id' }

def insert (T : Table) (order : RangeOrder) (id : PointID) (vec : Vec) (row : MetaRow) :
    Table × Option Err :=
  if UInt32.ofNat vec.length ≠ T.shape.dims then (T, some .dimensionMismatch)
  else
    match T.now id with
    | some _ => (T, some .duplicateID)
    | none =>
      match T.shape.rowError order row with
      | some e => (T, some e)
      | none => (T.put id (some (T.shape.entry vec row)), none)

def delete (T : Table) (id : PointID) : Table × Option Err :=
  match T.now id with
  | none => (T, some .notFound)
  | some _ => (T.put id none, none)

noncomputable def upsert (T : Table) (order : RangeOrder) (id : PointID) (vec : Vec)
    (row : MetaRow) : Table × Option Err :=
  match T.now id with
  | none => T.insert order id vec row
  | some _ => (T.retire id).insert order id vec row

noncomputable def call (T : Table) : Write → Table × Option Err
  | .insert order id vec row => T.insert order id vec row
  | .delete id => T.delete id
  | .upsert order id vec row => T.upsert order id vec row
  | .updateMeta _ _ => (T, none)

def settle (T : Table) (contents : PointID → Option Entry) : Table :=
  { shape := T.shape, now := contents, base := contents }

end Table

namespace MetadataStore

variable {m m' : MetadataStore} {seq slot seq' slot' : ℕ} {col : ColID} {row : MetaRow}

theorem has_congr (h : m.columns = m'.columns) : m.has col = m'.has col := by
  unfold has colType
  rw [h]

theorem writeCols_congr (h : m.columns = m'.columns) (cols : List ColID) :
    (m.writeCols seq slot row cols).2 = (m'.writeCols seq' slot' row cols).2 := by
  induction cols generalizing m m' with
  | nil => rfl
  | cons col cols ih =>
    have ht : m.colType col = m'.colType col := by
      unfold colType
      rw [h]
    simp only [writeCols, writeAt, ht]
    cases m'.colType col with
    | none => rfl
    | some t =>
      dsimp only
      by_cases hv : (!((row.get? col).getD .null).isNull &&
          !((row.get? col).getD .null).matchesType t) = true
      · rw [if_pos hv, if_pos hv]
      · rw [if_neg hv, if_neg hv]
        exact ih h

theorem writeRow_congr (h : m.columns = m'.columns) (order : RangeOrder) :
    (m.writeRow order seq slot row).2 = (m'.writeRow order seq' slot' row).2 := by
  have hids : m.colIDs = m'.colIDs := by
    unfold colIDs
    rw [h]
  have hcols := @writeCols_congr m m' seq slot seq' slot' row h (order.order m.colIDs)
  unfold writeRow
  rw [hids] at hcols ⊢
  rcases hw : m.writeCols seq slot row (order.order m'.colIDs) with ⟨n, e | _⟩ <;>
    rcases hw' : m'.writeCols seq' slot' row (order.order m'.colIDs) with ⟨n', e' | _⟩ <;>
    rw [hw, hw'] at hcols <;> cases hcols
  · rfl
  · dsimp only
    simp only [has_congr h]
    split <;> rfl

theorem vals_writeCols {cols : List ColID} (h : m.writeCols seq slot row cols = (m', .ok ())) :
    m'.vals col seq slot = if col ∈ cols then (row.get? col).getD .null else m.vals col seq slot := by
  induction cols generalizing m with
  | nil => cases h; simp
  | cons c cols ih =>
    rw [writeCols] at h
    by_cases hf : m.Fits c ((row.get? c).getD .null)
    · rw [writeAt_fits hf] at h
      rw [ih h]
      by_cases hc : col = c
      · subst hc
        simp [put]
      · simp [put, hc]
    · obtain ⟨e, he⟩ := @writeAt_misfit m seq slot _ _ hf
      rw [he] at h
      cases h

theorem cell_writeRow {order : RangeOrder} (h : m.writeRow order seq slot row = (m', .ok ())) :
    m'.cell seq slot = fun col => if m.has col then (row.get? col).getD .null else .null := by
  have hcols : m'.columns = m.columns := by
    have := (@writes_writeRow m seq slot row order).columns
    rwa [h] at this
  unfold writeRow at h
  rcases hw : m.writeCols seq slot row (order.order m.colIDs) with ⟨n, e | _⟩ <;> rw [hw] at h
  · cases h
  · dsimp only at h
    split at h <;> cases h
    funext col
    rw [cell, readAt, has_congr hcols]
    by_cases hhas : m.has col = true
    · have hmem : col ∈ order.order m.colIDs :=
        (order.perm _).mem_iff.mpr (mem_colIDs.mpr hhas)
      simp [hhas, vals_writeCols hw, hmem]
    · simp [hhas]

end MetadataStore

namespace Collection

variable {a b c c' c₀ : Collection} {di : ℕ} {s : Segment} {id id' : PointID} {loc : IdLoc}
  {log log' : List Undo} {m : MetadataStore} {vec : Vec} {w : Write}

def shape (c : Collection) : Shape := ⟨c.dims, c.codec, c.metadata.columns⟩

def entryAt (c : Collection) (di : ℕ) (loc : IdLoc) : Entry :=
  ⟨c.codec.decode ((c.seg di).data loc.slotPos), c.metadata.cell loc.segSeq loc.slotPos⟩

def entry (c : Collection) (id : PointID) : Option Entry :=
  (c.idmap.fwd id).bind fun loc => (c.dirOf loc.segSeq).map fun di => c.entryAt di loc

theorem entry_none (h : c.idmap.fwd id = none) : c.entry id = none := by rw [entry, h]; rfl

theorem entry_some (h : c.idmap.fwd id = some loc) (hd : c.dirOf loc.segSeq = some di) :
    c.entry id = some (c.entryAt di loc) := by
  rw [entry, h, bind_some, hd, map_some]

theorem WF.entry_eq_none (hc : c.WF) : c.entry id = none ↔ c.idmap.fwd id = none := by
  rcases hl : c.idmap.fwd id with _ | loc
  · simp [entry_none hl]
  · obtain ⟨di, s, hd, -⟩ := hc.located id loc hl
    simp [entry_some hl hd]

theorem Near.shape (h : a.Near b) : a.shape = b.shape := by
  rw [Collection.shape, Collection.shape, h.dims, h.codec, h.columns]

theorem Near.entry (h : a.Near b) (hb : b.WF) (hfwd : a.idmap.fwd id = b.idmap.fwd id) :
    a.entry id = b.entry id := by
  rcases hl : b.idmap.fwd id with _ | loc
  · rw [entry_none hl, entry_none (hfwd.trans hl)]
  · obtain ⟨di, t, hd, ht, hslot, -⟩ := hb.located id loc hl
    obtain ⟨s, hs, hn⟩ := h.segs.get ht
    have hseq : t.seqNum = loc.segSeq := by
      obtain ⟨-, t', ht', hseq⟩ := hb.dirs _ _ hd
      cases ht.symm.trans ht'
      exact hseq
    rw [entry_some hl hd, entry_some (hfwd.trans hl) (h.dirOf _ _ hd), entryAt, entryAt, seg_eq hs,
      seg_eq ht, h.codec, (hn.rows _ hslot).1, ← hseq, h.cell ht hslot]

theorem entry_modifySeg {f : Segment → Segment} (hf : ∀ s, (f s).data = s.data) :
    (c.modifySeg di f).entry = c.entry := by
  have hdata : ∀ k, ((c.modifySeg di f).seg k).data = (c.seg k).data := by
    intro k
    simp only [modifySeg, seg, List.getD_eq_getElem?_getD, List.getElem?_modify]
    rcases c.segs[k]? with _ | t
    · rfl
    · by_cases hk : di = k <;> simp [hk, hf]
  funext id
  simp only [entry, entryAt, hdata]
  rfl

theorem entry_dropAt (c : Collection) (di : ℕ) (id : PointID) (slot : ℕ) :
    (c.dropAt di id slot).entry = update c.entry id none := by
  funext id'
  by_cases hid : id' = id
  · subst hid
    rw [update_self, entry_none]
    exact update_self ..
  · have hdata : ∀ s : Segment, (s.tombstone slot).data = s.data := by
      intro s
      rw [Segment.tombstone]
      split <;> rfl
    rw [update_of_ne hid, ← @entry_modifySeg c di _ hdata, entry, entry]
    dsimp only [dropAt]
    rw [update_of_ne hid]
    rfl

theorem WF.entry_insertAt (h : c.WF) (hs : c.segs[di]? = some s)
    (hw : Writes s.seqNum s.nextPos c.metadata m) (id : PointID) (vec : Vec) :
    (c.insertAt di s id vec m).entry = update c.entry id
      (some ⟨c.codec.decode (c.codec.encode vec), m.cell s.seqNum s.nextPos⟩) := by
  have hseg : ∀ k t, c.segs[k]? = some t →
      (c.insertAt di s id vec m).seg k = if k = di then t.append c.codec id vec 0 else t := by
    intro k t ht
    apply seg_eq
    rw [Collection.insertAt]
    exact getElem?_modify_of ht
  funext id'
  by_cases hid : id' = id
  · subst hid
    have hfwd : (c.insertAt di s id' vec m).idmap.fwd id' = some ⟨s.seqNum, s.nextPos⟩ :=
      update_self ..
    have hd : (c.insertAt di s id' vec m).dirOf s.seqNum = some di := h.seqs di s hs
    rw [update_self, entry_some hfwd hd, entryAt, hseg di s hs, if_pos rfl]
    dsimp only [Segment.append]
    rw [update_self]
    rfl
  · have hfwd : (c.insertAt di s id vec m).idmap.fwd id' = c.idmap.fwd id' :=
      update_of_ne hid _ _
    rw [update_of_ne hid]
    rcases hl : c.idmap.fwd id' with _ | loc
    · rw [entry_none hl, entry_none (hfwd.trans hl)]
    · obtain ⟨k, t, hd, ht, hslot, -⟩ := h.located id' loc hl
      have hd' : (c.insertAt di s id vec m).dirOf loc.segSeq = some k := hd
      -- the slot of the other point is filled already
      have hother : ¬ (loc.segSeq = s.seqNum ∧ loc.slotPos = s.nextPos) := by
        rintro ⟨hseq, hpos⟩
        rw [hseq, h.seqs di s hs] at hd
        cases hd
        cases hs.symm.trans ht
        omega
      have hcell : m.cell loc.segSeq loc.slotPos = c.metadata.cell loc.segSeq loc.slotPos := by
        funext col
        simp only [cell, readAt, has_congr hw.columns, hw.vals col _ _ hother]
      have hdata : ((c.insertAt di s id vec m).seg k).data loc.slotPos = t.data loc.slotPos := by
        rw [hseg k t ht]
        split
        · rename_i hk
          subst hk
          cases hs.symm.trans ht
          exact update_of_ne (by omega) _ _
        · rfl
      rw [entry_some hl hd, entry_some (hfwd.trans hl) hd', entryAt, entryAt, hdata, seg_eq ht,
        ← hcell]
      rfl

theorem entry_stampAll (c : Collection) (seq : ℕ) (slots : List (ℕ × ℕ)) :
    (c.stampAll seq slots).entry = c.entry ∧ (c.stampAll seq slots).shape = c.shape := by
  induction slots generalizing c with
  | nil => exact ⟨rfl, rfl⟩
  | cons slot slots ih =>
    have hentry : (c.stampSlot seq slot).entry = c.entry := entry_modifySeg fun _ => rfl
    exact ⟨(ih _).1.trans hentry, (ih _).2⟩

theorem undoAll_shape (c : Collection) (log : List Undo) : (c.undoAll log).shape = c.shape := by
  induction log generalizing c with
  | nil => rfl
  | cons u log ih =>
    have hu : (c.undo u).shape = c.shape := by
      cases u with
      | append | delete | replace => rfl
      | cell col seq slot prev =>
        by_cases hf : c.metadata.Fits col prev
        · rw [undo_cell hf]
          rfl
        · obtain ⟨e, he⟩ := @MetadataStore.writeAt_misfit c.metadata seq slot _ _ hf
          rw [undo, he]
    exact (ih (c.undo u)).trans hu

/-- A collection under a transaction with the given log has the given table. -/
structure Stores (c : Collection) (log : List Undo) (T : Table) : Prop where
  opened : ∃ c₀, Opened c₀ c log
  shape : c.shape = T.shape
  now : c.entry = T.now
  base : (c.undoAll log).entry = T.base
  touched : ∀ id, T.touched id ↔ ∃ u ∈ log, u.about = some id

section Stores

variable {T : Table}

theorem Stores.wf (h : c.Stores log T) : c.WF := by
  obtain ⟨c₀, ho⟩ := h.opened
  exact ho.wf

theorem Stores.fwd_eq_none (h : c.Stores log T) : T.now id = none ↔ c.idmap.fwd id = none := by
  rw [← h.now]
  exact h.wf.entry_eq_none

theorem WF.stores (hc : c.WF) : c.Stores [] ⟨c.shape, c.entry, c.entry, fun _ => False⟩ where
  opened := ⟨c, .refl hc⟩
  shape := rfl
  now := rfl
  base := rfl
  touched _ := by simp

theorem Stores.near_undoAll (h : c.Stores log T) (he : w.Effect c c' log') :
    (c'.undoAll (log' ++ log)).Near (c.undoAll log) := by
  obtain ⟨c₀, ho⟩ := h.opened
  rw [undoAll_append]
  exact he.reverts.near.undoAll ho.reverts.valid

theorem Stores.base_kept (h : c.Stores log T) (he : w.Effect c c' log')
    (hw : w.Replaces c → T.touched w.id) : (c'.undoAll (log' ++ log)).entry = T.base := by
  obtain ⟨c₀, ho⟩ := h.opened
  rw [← h.base]
  funext id
  apply (h.near_undoAll he).entry ho.undoAll_wf
  rw [undoAll_fwd, undoAll_fwd]
  rcases @undoFwd_effect _ _ log _ _ he id with heq | ⟨rfl, hr, hlog, -⟩
  · exact heq
  · obtain ⟨u, hu, habout⟩ := (h.touched _).mp (hw hr)
    exact absurd habout (hlog u hu)

theorem Stores.base_lost (h : c.Stores log T) (he : w.Effect c c' log') (hw : w.Replaces c)
    (ht : ¬ T.touched w.id) : (c'.undoAll (log' ++ log)).entry = update T.base w.id none := by
  obtain ⟨c₀, ho⟩ := h.opened
  have hlog : ∀ u ∈ log, u.about ≠ some w.id := fun u hu habout =>
    ht ((h.touched _).mpr ⟨u, hu, habout⟩)
  rw [← h.base]
  funext id
  by_cases hid : id = w.id
  · subst hid
    rw [update_self, entry_none]
    rw [undoAll_fwd, undoFwd_append, undoFwd_other hlog]
    exact he.lost hw
  · rw [update_of_ne hid]
    apply (h.near_undoAll he).entry ho.undoAll_wf
    rw [undoAll_fwd, undoAll_fwd]
    rcases @undoFwd_effect _ _ log _ _ he id with heq | ⟨heq, -⟩
    · exact heq
    · exact absurd heq hid

end Stores

end Collection

namespace Table

variable {T : Table} {order : RangeOrder} {id : PointID} {vec : Vec} {row : MetaRow}

theorem insert_snd : (T.insert order id vec row).2 =
    if UInt32.ofNat vec.length ≠ T.shape.dims then some .dimensionMismatch
    else if T.now id ≠ none then some .duplicateID
    else T.shape.rowError order row := by
  unfold insert
  split
  · rfl
  · rcases T.now id with _ | e
    · rw [if_neg (not_not_intro rfl)]
      rcases T.shape.rowError order row with _ | e <;> rfl
    · rw [if_pos nofun]

theorem insert_fst : (T.insert order id vec row).1 =
    if (T.insert order id vec row).2 = none then T.put id (some (T.shape.entry vec row)) else T := by
  unfold insert
  split
  · simp
  · rcases T.now id with _ | e
    · rcases T.shape.rowError order row with _ | e <;> simp
    · simp

theorem call_now_of_ne (T : Table) {w : Write} {id : PointID} (h : id ≠ w.id) :
    (T.call w).1.now id = T.now id := by
  have hinsert : ∀ (T : Table) order id' vec row, id ≠ id' →
      (T.insert order id' vec row).1.now id = T.now id := by
    intro T order id' vec row hne
    rw [insert_fst]
    split
    · exact update_of_ne hne _ _
    · rfl
  cases w with
  | insert order id' vec row => exact hinsert T order id' vec row h
  | delete id' =>
    rw [call, delete]
    rcases T.now id' with _ | e
    · rfl
    · exact update_of_ne h _ _
  | upsert order id' vec row =>
    rw [call, upsert]
    rcases T.now id' with _ | e
    · exact hinsert T order id' vec row h
    · exact (hinsert _ order id' vec row h).trans (update_of_ne h _ _)
  | updateMeta id' row => rfl

theorem insert_now (h : (T.insert order id vec row).2 = none) :
    (T.insert order id vec row).1.now = update T.now id (some (T.shape.entry vec row)) := by
  rw [insert_fst, if_pos h]
  rfl

theorem upsert_now (h : (T.upsert order id vec row).2 = none) :
    (T.upsert order id vec row).1.now = update T.now id (some (T.shape.entry vec row)) := by
  unfold upsert at h ⊢
  rcases hid : T.now id with _ | e <;> rw [hid] at h
  · exact insert_now h
  · refine (insert_now h).trans ?_
    dsimp only [retire]
    rw [update_idem]

end Table

namespace Draft

variable {d : Draft} {order : RangeOrder} {id : PointID} {vec : Vec} {row : MetaRow} {T : Table}

theorem appendPoint_failure : failure (d.appendPoint order id vec row).2 =
      if UInt32.ofNat vec.length ≠ d.coll.dims then some .dimensionMismatch
      else if d.coll.idmap.fwd id ≠ none then some .duplicateID
      else d.coll.shape.rowError order row := by
  unfold appendPoint
  split
  · rfl
  · rcases hid : d.coll.idmap.fwd id with _ | loc
    · obtain ⟨hmeta, hidmap, -⟩ := ensureOpen_keeps d.coll
      have hslot : ∀ di, failure (d.coll.ensureOpen.appendSlot order di id vec row).2 =
          d.coll.shape.rowError order row ∧
          (d.coll.ensureOpen.appendSlot order di id vec row).1.idmap = d.coll.idmap := by
        intro di
        have hcongr := @MetadataStore.writeRow_congr d.coll.ensureOpen.metadata
          d.coll.shape.store (d.coll.ensureOpen.seg di).seqNum (d.coll.ensureOpen.seg di).nextPos
          0 0 row (by rw [hmeta]; rfl) order
        rw [Shape.rowError, ← hcongr, ← hidmap]
        unfold Collection.appendSlot
        dsimp only [Collection.modifySeg]
        rcases d.coll.ensureOpen.metadata.writeRow order _ _ row with ⟨m, e | _⟩ <;>
          exact ⟨rfl, rfl⟩
      obtain ⟨hrow, hmap⟩ := hslot (d.coll.ensureOpen.openIdx.getD 0)
      rw [forwardLookup_none hid, if_neg (not_not_intro rfl)]
      dsimp only
      rw [← hrow]
      rcases hslot : d.coll.ensureOpen.appendSlot order (d.coll.ensureOpen.openIdx.getD 0) id vec
        row with ⟨c', e | _⟩ <;> rw [hslot] at hmap
      · rfl
      · dsimp only at hmap ⊢
        rw [IdMap.insert, hmap, hid]
        rfl
    · rw [forwardLookup_some hid, if_pos (some_ne_none _)]
      rfl

theorem appendPoint_table (hc : d.coll.WF) (hshape : d.coll.shape = T.shape)
    (hnow : d.coll.entry = T.now) :
    let r := d.appendPoint order id vec row
    failure r.2 = (T.insert order id vec row).2 ∧ r.1.coll.shape = T.shape ∧
      r.1.coll.entry = (T.insert order id vec row).1.now ∧
      (if (T.insert order id vec row).2 = none then
        ∃ di slot, r.1.undo = .append di slot id :: d.undo else r.1.undo = d.undo) := by
  intro r
  have hfail : failure r.2 = (T.insert order id vec row).2 := by
    rw [appendPoint_failure, Table.insert_snd, ← hshape, ← hnow]
    simp only [ne_eq, hc.entry_eq_none]
    rfl
  refine ⟨hfail, ?_⟩
  rw [Table.insert_fst]
  by_cases h : Accepts d.coll id vec row
  · obtain ⟨di, s, m, hs, hfull, hm, heq⟩ := @appendPoint_eq d order id vec row hc h
    obtain ⟨hmeta, hidmap, hcodec⟩ := ensureOpen_keeps d.coll
    have hw : Writes s.seqNum s.nextPos d.coll.ensureOpen.metadata m := by
      have := @MetadataStore.writes_writeRow d.coll.metadata s.seqNum s.nextPos row order
      rwa [hm, ← hmeta] at this
    have hnone : (T.insert order id vec row).2 = none := by
      rw [← hfail]
      exact congrArg failure (congrArg Prod.snd heq)
    have hentry : d.coll.ensureOpen.entry = d.coll.entry := by
      funext id'
      exact hc.near_ensureOpen.entry hc (by rw [hidmap])
    have hr : r = _ := heq
    rw [hnone, if_pos rfl, if_pos rfl, hr]
    refine ⟨?_, ?_, di, s.nextPos, rfl⟩
    · rw [← hshape, ← hc.near_ensureOpen.shape]
      simp only [Collection.shape, Collection.insertAt, hw.columns]
    · dsimp only [Table.put]
      rw [hc.ensureOpen.entry_insertAt hs hw id vec, hentry, hnow, cell_writeRow hm,
        hcodec, ← hshape]
      rfl
  · obtain ⟨d', e, heq, hsame, -⟩ := @appendPoint_rejected d order id vec row hc h
    have hsome : (T.insert order id vec row).2 = some e := by
      rw [← hfail]
      exact congrArg failure (congrArg Prod.snd heq)
    have hr : r = _ := heq
    rw [hsome, if_neg (some_ne_none e), if_neg (some_ne_none e), hr]
    refine ⟨hsame.near.shape.trans hshape, ?_, hsame.undo⟩
    rw [← hnow]
    funext id'
    exact hsame.near.entry hc (by rw [hsame.idmap])

end Draft

namespace Collection

variable {c : Collection} {log : List Undo} {T : Table} {order : RangeOrder} {id : PointID}
  {vec : Vec} {row : MetaRow}

theorem Stores.appended {d : Draft} (hwf : d.coll.WF) (hshape : d.coll.shape = T.shape)
    (hnow : d.coll.entry = T.now)
    (htouched : ∀ id, T.touched id ↔ ∃ u ∈ d.undo ++ log, u.about = some id)
    {r : Draft × Option Err} (hr : r = ((d.appendPoint order id vec row).1,
      failure (d.appendPoint order id vec row).2))
    (hopened : ∃ c₀, Opened c₀ r.1.coll (r.1.undo ++ log))
    (hbase : (r.1.coll.undoAll (r.1.undo ++ log)).entry = T.base) :
    r.1.coll.Stores (r.1.undo ++ log) (T.insert order id vec row).1 ∧
      r.2 = (T.insert order id vec row).2 := by
  subst hr
  obtain ⟨hfail, hshape', hentry, hlog⟩ :=
    @appendPoint_table d order id vec row T hwf hshape hnow
  refine ⟨⟨hopened, ?_, hentry, ?_, ?_⟩, hfail⟩
  · rw [Table.insert_fst]
    split <;> exact hshape'
  · rw [hbase, Table.insert_fst]
    split <;> rfl
  · intro id'
    rw [Table.insert_fst]
    split at hlog
    · obtain ⟨di, slot, hlog⟩ := hlog
      rw [if_pos ‹_›, hlog]
      simp only [Table.put, htouched, List.cons_append, List.mem_cons, exists_eq_or_imp,
        Undo.about, Option.some.injEq, @eq_comm _ id id']
    · rw [if_neg ‹_›, hlog]
      exact htouched id'

section

variable (h : c.Stores log T)
include h

theorem Stores.insert :
    let r := (Write.insert order id vec row).run { coll := c }
    r.1.coll.Stores (r.1.undo ++ log) (T.insert order id vec row).1 ∧
      r.2 = (T.insert order id vec row).2 := by
  intro r
  obtain ⟨log', hundo, he⟩ := @Write.run_effect { coll := c } h.wf (.insert order id vec row)
  rw [List.append_nil] at hundo
  obtain ⟨c₀, ho⟩ := h.opened
  refine @Stores.appended log T order id vec row { coll := c } h.wf h.shape h.now h.touched _ rfl
    ⟨c₀, hundo ▸ ho.effect he⟩ ?_
  rw [hundo]
  exact h.base_kept he fun hw => hw.elim

theorem Stores.delete :
    let r := (Write.delete id).run { coll := c }
    r.1.coll.Stores (r.1.undo ++ log) (T.delete id).1 ∧ r.2 = (T.delete id).2 := by
  intro r
  obtain ⟨log', hundo, he⟩ := @Write.run_effect { coll := c } h.wf (.delete id)
  rw [List.append_nil] at hundo
  obtain ⟨c₀, ho⟩ := h.opened
  have hbase := h.base_kept he fun hw => hw.elim
  have hopened := ho.effect he
  rw [← hundo] at hbase hopened
  have hnow := @Stores.fwd_eq_none c id log T h
  rcases hl : c.idmap.fwd id with _ | loc
  · rw [hl] at hnow
    have hr : r = ({ coll := c }, some .notFound) := by
      simp only [r, Write.run, @Draft.delete_missing { coll := c } _ hl]
      rfl
    rw [hr, Table.delete, hnow.mpr rfl]
    exact ⟨h, rfl⟩
  · obtain ⟨e, hsome⟩ := ne_none_iff_exists'.mp (mt hnow.mp (hl ▸ some_ne_none loc))
    obtain ⟨di, s, hd, -⟩ := h.wf.located id loc hl
    have hr : r = ({ coll := c.dropAt di id loc.slotPos
                     undo := [.delete di loc.slotPos id loc.segSeq] }, none) := by
      simp only [r, Write.run, @Draft.delete_eq { coll := c } _ _ _ hl hd]
      rfl
    change ((Write.delete id).run { coll := c }) = _ at hr
    rw [hr] at hbase hopened
    simp only [r, hr, Table.delete, hsome]
    refine ⟨⟨⟨c₀, hopened⟩, h.shape, ?_, hbase, ?_⟩, trivial⟩
    · rw [entry_dropAt, h.now]
      rfl
    · intro id'
      simp only [Table.put, h.touched, List.cons_append, List.nil_append, List.mem_cons,
        exists_eq_or_imp, Undo.about, Option.some.injEq, @eq_comm _ id id']

theorem Stores.upsert :
    let r := (Write.upsert order id vec row).run { coll := c }
    r.1.coll.Stores (r.1.undo ++ log) (T.upsert order id vec row).1 ∧
      r.2 = (T.upsert order id vec row).2 := by
  intro r
  have hnow := @Stores.fwd_eq_none c id log T h
  rcases hl : c.idmap.fwd id with _ | loc
  · rw [hl] at hnow
    have hr : r = (Write.insert order id vec row).run { coll := c } := by
      simp only [r, Write.run, Draft.upsert, @Draft.forwardLookup_none { coll := c } _ hl]
      rw [Write.failure_map]
    rw [hr, Table.upsert, hnow.mpr rfl]
    exact h.insert
  · obtain ⟨e, hsome⟩ := ne_none_iff_exists'.mp (mt hnow.mp (hl ▸ some_ne_none loc))
    obtain ⟨di, s, hd, -⟩ := h.wf.located id loc hl
    obtain ⟨log', hundo, he⟩ := @Write.run_effect { coll := c } h.wf (.upsert order id vec row)
    rw [List.append_nil] at hundo
    have hreplaces : (Write.upsert order id vec row).Replaces c := by
      rw [Write.Replaces, hl]
      exact some_ne_none _
    have hretire := @retire_eq { coll := c } _ _ _ hl hd
    have hr : r = ((appendPoint (retire { coll := c } id loc) order id vec row).1,
        failure (appendPoint (retire { coll := c } id loc) order id vec row).2) := by
      simp only [r, Write.run, Draft.upsert, @Draft.forwardLookup_some { coll := c } _ _ hl]
      rw [Write.failure_map]
    obtain ⟨c₀, ho⟩ := h.opened
    have hupsert : T.upsert order id vec row = (T.retire id).insert order id vec row := by
      rw [Table.upsert, hsome]
    rw [hupsert]
    refine @Stores.appended log (T.retire id) order id vec row (retire { coll := c } id loc)
      ?_ ?_ ?_ ?_ r hr ⟨c₀, hundo ▸ ho.effect he⟩ ?_
    · rw [hretire]
      exact h.wf.dropAt hl hd
    · rw [hretire]
      exact h.shape
    · rw [hretire]
      dsimp only [Table.retire]
      rw [entry_dropAt, h.now]
    · intro id'
      rw [hretire]
      simp only [Table.retire, h.touched, List.cons_append, List.nil_append, List.mem_cons,
        exists_eq_or_imp, Undo.about, reduceCtorEq, false_or]
    · rw [hundo]
      dsimp only [Table.retire]
      split
      · exact h.base_kept he fun _ => ‹_›
      · exact h.base_lost he hreplaces ‹_›

/-- Every call but the one that changes single cells is a function of the table. -/
theorem Stores.call {w : Write} (hw : w.Whole) :
    (w.run { coll := c }).1.coll.Stores ((w.run { coll := c }).1.undo ++ log) (T.call w).1 ∧
      (w.run { coll := c }).2 = (T.call w).2 := by
  cases w with
  | insert order id vec row => exact h.insert
  | delete id => exact h.delete
  | upsert order id vec row => exact h.upsert
  | updateMeta id row => exact hw.elim

theorem Stores.commit (seq : ℕ) (slots : List (ℕ × ℕ)) :
    (c.stampAll seq slots).Stores [] (T.settle T.now) := by
  obtain ⟨hentry, hshape⟩ := entry_stampAll c seq slots
  have hs := (h.wf.stampAll seq slots).stores
  rwa [hentry, hshape, h.now, h.shape] at hs

theorem Stores.abort : (c.undoAll log).Stores [] (T.settle T.base) := by
  obtain ⟨c₀, ho⟩ := h.opened
  have hshape := undoAll_shape c log
  have hs := ho.undoAll_wf.stores
  rwa [hshape, h.base, h.shape] at hs

end

section Reads

theorem projectMeta_entryAt (c : Collection) (di : ℕ) (loc : IdLoc) (cols : List ColID) :
    c.projectMeta loc.segSeq loc.slotPos (some cols) = (c.entryAt di loc).project cols := by
  rw [projectMeta, Entry.project, getD_some]
  congr 1
  funext col
  simp only [entryAt, cell, readAt]
  by_cases h : c.metadata.has col = true
  · simp only [if_pos h]
  · simp [h, Value.isNull]

theorem Stores.lookupID_none (h : c.Stores log T) (hn : T.now id = none) :
    c.lookupID id = .error .notFound := by
  rw [lookupID, IdMap.forwardLookup, h.fwd_eq_none.mp hn]

theorem Stores.fetch (h : c.Stores log T) (hg : c.InGrid) {e : Entry} (he : T.now id = some e) :
    ∃ p, c.lookupID id = .ok p ∧ ∀ cols snap, (∀ ver, visibleIn snap ver = true) →
      c.fetch p (some cols) snap = .ok ⟨p, id, e.vec, e.project cols⟩ := by
  have hc := h.wf
  rcases hl : c.idmap.fwd id with _ | loc
  · rw [h.fwd_eq_none.mpr hl] at he
    cases he
  · obtain ⟨di, s, hd, hs, hslot, hlive, hback⟩ := hc.located id loc hl
    have hentry : e = c.entryAt di loc := by
      rw [← h.now, entry_some hl hd] at he
      exact (Option.some.inj he).symm
    have hseq : s.seqNum = loc.segSeq := by
      obtain ⟨-, s', hs', hseq⟩ := hc.dirs _ _ hd
      cases hs.symm.trans hs'
      exact hseq
    have hslive : c.Live di loc.slotPos s := ⟨hs, hslot, hlive⟩
    refine ⟨c.colPos di loc.slotPos, ?_, fun cols snap hvis => ?_⟩
    · rw [lookupID, IdMap.forwardLookup, hl]
      dsimp only
      rw [hd]
    · rw [hslive.fetch hc (c.colPos_toNat (hg _ _ _ hslive)) (some cols) (hvis _), hback, hseq,
        c.projectMeta_entryAt di, hentry, entryAt, seg_eq hs]

end Reads

end Collection

section Shapes

theorem Write.run_shape {c : Collection} (hc : c.WF) (w : Write) :
    (w.run { coll := c }).1.coll.shape = c.shape := by
  obtain ⟨log, -, he⟩ := @Write.run_effect { coll := c } hc w
  rw [← undoAll_shape _ log]
  exact he.reverts.near.shape

theorem Collection.compact_shape {c : Collection} (hc : c.WF) : c.compact.shape = c.shape := by
  obtain ⟨dirOf, openIdx, heq, -⟩ := compact_eq hc
  rw [heq]
  simp only [Collection.shape, (repacked_packed hc).columns]

theorem Sys.step_shape {s s' : Sys} (hi : s.Inv) {ev : Event} (hev : ∀ d, ev ≠ .create d)
    (h : s.step ev = .ok s') (k : UInt64) :
    (s'.engine.colls k).map Collection.shape = (s.engine.colls k).map Collection.shape := by
  have hmodify : ∀ (k' : UInt64) (f : Collection → Collection),
      (∀ c : Collection, c.WF → (f c).shape = c.shape) →
      ((s.engine.modifyColl k' f).colls k).map Collection.shape =
        (s.engine.colls k).map Collection.shape := by
    intro k' f hf
    dsimp only [modifyColl]
    rw [update_apply]
    split
    · subst_vars
      rcases hc : s.engine.colls k' with _ | c
      · rfl
      · exact congrArg some (hf c (hi.wf hc))
    · rfl
  cases Sys.takes_of_step h with
  | created | refused => exact absurd rfl (hev _)
  | begin => rfl
  | @call t k' w ht =>
    rcases hc : s.engine.colls k' with _ | c
    · rw [call_none hc]
    · rw [(@call_some s.engine t k' c w hc).1, update_apply]
      split
      · subst_vars
        rw [hc]
        exact congrArg some (Write.run_shape (hi.wf hc) w)
      · rfl
  | drawSeq => rfl
  | publish =>
    rw [publish_colls, map_map]
    exact congrArg (Option.map · _) (funext fun c => (c.entry_stampAll _ _).2)
  | abort =>
    rw [abort_colls, map_map]
    exact congrArg (Option.map · _) (funext fun c => c.undoAll_shape _)
  | sealSegment => exact hmodify _ _ fun c hc => (near_sealOpen hc.toFramed).shape
  | compact => exact hmodify _ _ fun c hc => compact_shape hc

theorem Sys.Reachable.commit {s : Sys} {t : Txn} (h : s.Reachable) (ht : s.writer = some t)
    (hidle : s.committing = none) : Sys.Reachable { engine := s.engine.commit t } ∧
      ∀ k, ((s.engine.commit t).colls k).map Collection.shape =
        (s.engine.colls k).map Collection.shape := by
  let mid : Sys := ⟨s.engine.drawSeq.1, some t, some s.engine.drawSeq.2⟩
  have hdraw : s.step .drawSeq = .ok mid := by simp only [Sys.step, ht, hidle, mid]
  have hpublish : mid.step .publish = .ok { engine := s.engine.commit t } := rfl
  have hmid := @Sys.Reachable.step _ _ .drawSeq h trivial hdraw
  refine ⟨@Sys.Reachable.step _ _ .publish hmid trivial hpublish, fun k => ?_⟩
  exact Sys.step_shape hmid.inv (fun _ h => by cases h) hpublish k

end Shapes

end VecDb.Storage

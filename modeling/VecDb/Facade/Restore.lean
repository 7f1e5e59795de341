import VecDb.Facade.ReadBack

/-! # Writing points back

All points of a collection are read and written back. A point that the catalog refuses stays as it
is; of the others a value may be lost as in any write, a column without a value gets its default,
and the point with the id zero is copied.
-/

namespace VecDb.Facade

open List Function Option Storage Catalog

open Catalog (Codecs Schema Identity valueFor loweredRow validateMeta)

def Passes (cc : Catalog.Collection) (p : Point) : Prop :=
  (∃ vec, vectorOf cc p = some vec ∧ cc.validateVector (vectorColumn cc) vec = .ok ()) ∧
    (∃ r, cc.prepareID (suppliedID p.id) = .ok r) ∧
    ∃ row, cc.lowerMeta (p.metadata.map fun e => (e.1, e.2.catalogValue)) .null = .ok row

/-- The metadata of a point are the same after they have been written again. -/
def Rewritable (cc : Catalog.Collection) (p : Point) : Prop :=
  (∀ e ∈ p.metadata, e.2.Stable) ∧
    ∀ col ∈ cc.schema.metadataColumns, p.metadata.lookup col.name = none →
      (col.default.getD .null).isNull = true

def written (cc : Catalog.Collection) (shape : Storage.Shape) (p : Point) : Entry :=
  shape.entry ((vectorOf cc p).getD []) (storedRow cc p .null)

section Describes

variable {codecs : Codecs} {k : UInt64} {cc : Catalog.Collection} {c : Storage.Collection}
  {col : Catalog.ColumnDef} {i : ℕ} {e : Entry}

section

variable (h : Describes codecs k cc c)
include h

theorem Describes.primary :
    vectorColumn cc = cc.schema.primary.name ∧ cc.schema.primary ∈ cc.schema.vectorColumns := by
  rw [vectorColumn, Schema.primary]
  rcases hv : cc.schema.vectorColumns with _ | ⟨col, cols⟩
  · exact absurd hv h.plain.vector
  · exact ⟨rfl, mem_cons_self⟩

theorem Describes.codec : c.shape.codec = fp32Codec c.shape.dims.toNat := by
  obtain ⟨-, hmem⟩ := h.primary
  obtain ⟨hmem, hkind⟩ := mem_filter.mp hmem
  have helem : cc.schema.primary.elemType = some .fp32 := by
    rcases h.plain.columns _ hmem with hv | hm
    · exact hv.2.1
    · rw [hm.1] at hkind
      cases hkind
  rw [h.shape, h.lowered]
  dsimp only [Schema.lower]
  rw [helem]
  rfl

theorem Describes.dims {vec : Vec} (hv : cc.validateVector (vectorColumn cc) vec = .ok ()) :
    UInt32.ofNat vec.length = c.shape.dims := by
  obtain ⟨hname, hmem⟩ := h.primary
  have hcol : cc.schema.column (vectorColumn cc) = some cc.schema.primary := by
    rw [Schema.column, hname]
    exact Assoc.find?_key h.plain.names (mem_filter.mp hmem).1
  rw [Catalog.Collection.validateVector, hcol] at hv
  dsimp only at hv
  split at hv
  · cases hv
  rw [validateVector] at hv
  split at hv
  · cases hv
  · rw [h.shape, h.lowered]
    exact not_not.mp ‹_›

theorem Describes.defaultNow (hcol : col ∈ cc.schema.metadataColumns) : col.defaultNow = false := by
  obtain ⟨hmem, hkind⟩ := mem_filter.mp hcol
  rcases h.plain.columns _ hmem with hv | hm
  · rw [hv.1] at hkind
    cases hkind
  · exact hm.2.2

theorem Describes.valueFor_eq
    (hcol : col ∈ cc.schema.metadataColumns) (supplied : List (Bytes × Catalog.Value))
    (now : Catalog.Value) :
    valueFor supplied now col = ((supplied.lookup col.name).or col.default).getD .null := by
  rw [valueFor, suppliedOrDefault, h.defaultNow hcol]
  rcases supplied.lookup col.name with _ | v
  · rcases col.default with _ | v <;> rfl
  · rfl

theorem Describes.metadata_at (id : Storage.PointID) (e : Entry) (hi : cc.schema.MetaAt i col) :
    (pointOf cc id e).metadata.lookup col.name =
      if (e.cells (UInt32.ofNat i)).isNull then none
      else some (valueFromStorage (e.cells (UInt32.ofNat i))) := by
  refine Option.ext fun v => ?_
  rw [h.lookup_metadata, ite_none_left_eq_some, Bool.not_eq_true]
  constructor
  · rintro ⟨j, col', hj, hname, hnull, hv⟩
    obtain rfl := h.plain.name_inj hj hi hname
    exact ⟨hnull, congrArg some hv⟩
  · rintro ⟨hnull, hv⟩
    exact ⟨i, col, hi, rfl, hnull, Option.some.inj hv⟩

theorem Describes.metadata_eq_iff (id : Storage.PointID)
    (e e' : Entry) : (pointOf cc id e).metadata = (pointOf cc id e').metadata ↔
      ∀ i col, cc.schema.MetaAt i col → (pointOf cc id e).metadata.lookup col.name =
        (pointOf cc id e').metadata.lookup col.name := by
  refine ⟨fun heq i col _ => by rw [heq], fun hall => ?_⟩
  rw [h.pointOf_metadata, h.pointOf_metadata]
  refine filterMap_congr fun x hx => ?_
  have hat := hall x.2 x.1 (Schema.metaAt_iff.mpr hx)
  rw [h.metadata_at id e (Schema.metaAt_iff.mpr hx),
    h.metadata_at id e' (Schema.metaAt_iff.mpr hx)] at hat
  rcases hn : (e.cells (UInt32.ofNat x.2)).isNull <;>
    rcases hn' : (e'.cells (UInt32.ofNat x.2)).isNull <;> rw [hn, hn'] at hat
  · rw [if_neg Bool.false_ne_true, if_neg Bool.false_ne_true, Option.some.injEq] at hat
    simp only [Bool.false_eq_true, if_false, hat]
  · cases hat
  · cases hat
  · simp only [if_true]

end

theorem valueFromStorage_storable {v : Storage.Value} (h : v.isNull = false) :
    (valueFromStorage v).Storable := by
  cases v with
  | null => cases h
  | _ => exact ⟨nofun, nofun⟩

theorem lower_isNull (v : Catalog.Value) : v.lower.isNull = v.isNull := by
  cases v <;> rfl

theorem vectorOf_pointOf (cc : Catalog.Collection) (id : Storage.PointID) (e : Entry) :
    vectorOf cc (pointOf cc id e) = some e.vec := by
  simp [vectorOf, pointOf, pointFromRecord]

theorem Describes.metadata_written (h : Describes codecs k cc c) (id : Storage.PointID)
    (e : Entry) (hi : cc.schema.MetaAt i col) :
    (pointOf cc id (written cc c.shape (pointOf cc id e))).metadata.lookup col.name =
        (pointOf cc id e).metadata.lookup col.name ↔
      (∀ v, (pointOf cc id e).metadata.lookup col.name = some v → v.Stable) ∧
      ((pointOf cc id e).metadata.lookup col.name = none →
        (col.default.getD .null).isNull = true) := by
  have hcol : col ∈ cc.schema.metadataColumns := mem_of_getElem? hi
  rw [h.metadata_at id (written ..) hi, written, storedRow, h.cells _ hi, lower_isNull,
    h.valueFor_eq hcol, Assoc.lookup_map_snd]
  rcases hv : (pointOf cc id e).metadata.lookup col.name with _ | v
  · rw [map_none, none_or]
    simp
  · have hstorable : v.Storable := by
      rw [h.metadata_at id e hi, ite_none_left_eq_some, Bool.not_eq_true] at hv
      obtain ⟨hnull, hv⟩ := hv
      rw [← Option.some.inj hv]
      exact valueFromStorage_storable hnull
    obtain ⟨hnull, hstable⟩ := valueFromStorage_lower hstorable
    rw [map_some, some_or, getD_some, ← lower_isNull, hnull,
      if_neg Bool.false_ne_true, Option.some.injEq, hstable]
    simp

theorem Describes.pointOf_written (h : Describes codecs k cc c) {id : Storage.PointID}
    (he : c.entry id = some e) :
    pointOf cc id (written cc c.shape (pointOf cc id e)) = pointOf cc id e ↔
      Rewritable cc (pointOf cc id e) := by
  have hvec : (written cc c.shape (pointOf cc id e)).vec = e.vec := by
    obtain ⟨src, hsrc⟩ := Storage.Collection.entry_vec he
    have hcodec : c.codec = fp32Codec c.shape.dims.toNat := h.codec
    rw [written, vectorOf_pointOf]
    dsimp only [Storage.Shape.entry, getD_some]
    rw [h.codec, fp32Codec_decode_encode]
    rw [hsrc, hcodec, fp32Codec_decode_length]
  have hpoint : pointOf cc id (written cc c.shape (pointOf cc id e)) = pointOf cc id e ↔
      (pointOf cc id (written cc c.shape (pointOf cc id e))).metadata =
        (pointOf cc id e).metadata := by
    refine ⟨congrArg Point.metadata, fun hm => ?_⟩
    have hmk : ∀ e, pointOf cc id e =
        ⟨{ n := id }, [(vectorColumn cc, some e.vec)], (pointOf cc id e).metadata⟩ := fun _ => rfl
    rw [hmk (written ..), hvec, hm]
    rfl
  have hmem := fun x : Bytes × Value => @Assoc.lookup_iff_mem _ _ _ _ _ x.1 x.2 (h.nodup_metadata id e)
  rw [hpoint, h.metadata_eq_iff, Rewritable]
  constructor
  · intro hall
    refine ⟨fun x hx => ?_, fun col hcol hnone => ?_⟩
    · obtain ⟨i, col, hi, hname, -⟩ := (h.lookup_metadata id e).mp ((hmem x).mpr hx)
      refine ((h.metadata_written id e hi).mp (hall i col hi)).1 x.2 ?_
      rw [hname]
      exact (hmem x).mpr hx
    · obtain ⟨i, hi⟩ := getElem?_of_mem hcol
      exact ((h.metadata_written id e hi).mp (hall i col hi)).2 hnone
  · rintro ⟨hstable, hdefault⟩ i col hi
    refine (h.metadata_written id e hi).mpr ⟨fun v hv => ?_, hdefault col (mem_of_getElem? hi)⟩
    exact hstable (col.name, v) ((hmem (col.name, v)).mp hv)

end Describes

section Clock

variable {codecs : Codecs} {k : UInt64} {cc : Catalog.Collection} {c : Storage.Collection}

theorem Describes.loweredRow_now (h : Describes codecs k cc c)
    (supplied : List (Bytes × Catalog.Value)) (now : Catalog.Value) :
    loweredRow cc.schema supplied now = loweredRow cc.schema supplied .null := by
  refine map_congr_left fun x hx => ?_
  have hcol := mem_of_getElem? (Schema.metaAt_iff.mpr hx)
  rw [h.valueFor_eq hcol, h.valueFor_eq hcol]

theorem Describes.lowerMeta_now (h : Describes codecs k cc c)
    {supplied : List (Bytes × Catalog.Value)} {row : List (ColID × Storage.Value)}
    (now : Catalog.Value) :
    cc.lowerMeta supplied now = .ok row ↔ cc.lowerMeta supplied .null = .ok row := by
  rw [lowerMeta_eq_ok h.plain h.colIDs, lowerMeta_eq_ok h.plain h.colIDs, h.loweredRow_now]
  refine and_congr_left fun _ => forall₂_congr fun col hcol => ?_
  rw [h.valueFor_eq hcol, h.valueFor_eq hcol]

end Clock

namespace DB

variable {db : DB} {codecs : Codecs} {name : Bytes} {cc cc' : Catalog.Collection}
  {c : Storage.Collection} {T : Table} {p : Point}

theorem Inv.handle_setHandle (h : db.Inv codecs) (hn : db.handle name = .ok cc)
    (hid : cc'.id = cc.id) : (db.setHandle cc').handle name = .ok cc' := by
  obtain ⟨hclosed, cs, hcs, hcc⟩ := handle_eq_ok hn
  obtain ⟨c, -, hd⟩ := h.handles _ _ hcc
  simp only [DB.handle, DB.state, DB.setHandle, hclosed, hcs, Bool.false_eq_true, if_false]
  rw [hid, hd.id, update_self]

/-- The state in which points are written back: the handle may have another identity state than
at first. -/
structure Rewriting (codecs : Codecs) (name : Bytes) (cc : Catalog.Collection)
    (now : Storage.PointID → Option Entry) (db : DB) (i : Identity) : Prop where
  inv : db.Inv codecs
  writer : db.sys.writer ≠ none
  handle : db.handle name = .ok { cc with identity := i }
  table : ∃ c T, db.Holds cc.id c T ∧ c.Owned ∧ T.now = now

open Classical in
noncomputable def rewritten (cc : Catalog.Collection) (shape : Storage.Shape) (i : Identity)
    (now : Storage.PointID → Option Entry) (p : Point) :
    Storage.PointID → Option Entry :=
  if Passes { cc with identity := i } p then
    update now (target { cc with identity := i } p.id) (some (written cc shape p))
  else now

theorem not_passes_writeOne {t : Txn} (hd : Describes codecs cc.id cc c)
    (h : ¬ Passes cc p) (upsert : Bool) (amb : Ambient) :
    (db.writeOne t cc p upsert amb).1 = db ∨ ∃ cc' q,
      cc.prepareID (suppliedID p.id) = .ok (cc', q) ∧
        (db.writeOne t cc p upsert amb).1 = db.setHandle cc' := by
  rw [DB.writeOne, denseFor]
  rcases hv : vectorOf cc p with _ | vec
  · exact .inl rfl
  dsimp only
  rcases hok : cc.validateVector (vectorColumn cc) vec with e | u
  · exact .inl rfl
  rcases hid : cc.prepareID (suppliedID p.id) with e | ⟨cc', q⟩
  · exact .inl rfl
  rcases hrow : cc'.lowerMeta (p.metadata.map fun e => (e.1, e.2.catalogValue)) amb.now with e | row
  · refine .inr ⟨cc', q, rfl, ?_⟩
    simp only [hrow]
  · -- all checks are passed
    refine absurd ⟨⟨vec, hv, hok⟩, ⟨_, hid⟩, row, ?_⟩ h
    obtain ⟨i, -, rfl⟩ := Catalog.Collection.prepareID_eq_ok.mp hid
    exact (hd.lowerMeta_now amb.now).mp hrow

theorem passes_writeOne {t : Txn} (hd : Describes codecs cc.id cc c) (h : Passes cc p)
    (amb : Ambient) : ∃ i q, cc.identity.prepareID cc.schema.idKind (suppliedID p.id) = .ok (i, q) ∧
      (db.writeOne t cc p true amb).1 = ((db.setHandle { cc with identity := i }).callEngine t cc.id
        (.upsert amb.order (target cc p.id) ((vectorOf cc p).getD []) (storedRow cc p .null))).1 ∧
      UInt32.ofNat ((vectorOf cc p).getD []).length = c.shape.dims ∧
      ∀ e ∈ (storedRow cc p .null).entries, c.shape.store.Fits e.1 e.2 := by
  obtain ⟨⟨vec, hv, hok⟩, ⟨⟨cc', q⟩, hid⟩, row, hrow⟩ := h
  have htarget := target_of_prepareID hid
  obtain ⟨i, hi, rfl⟩ := Catalog.Collection.prepareID_eq_ok.mp hid
  obtain ⟨hall, rfl⟩ := (lowerMeta_eq_ok hd.plain hd.colIDs).mp hrow
  refine ⟨i, q, hi, ?_, by rw [hv]; exact hd.dims hok, hd.fits hall⟩
  have hrow' : Catalog.Collection.lowerMeta { cc with identity := i }
      (p.metadata.map fun e => (e.1, e.2.catalogValue)) amb.now = .ok _ :=
    (hd.lowerMeta_now amb.now).mpr hrow
  rw [DB.writeOne, denseFor]
  simp only [hv, hok, hid, hrow', htarget, writeCall, if_true, getD_some]
  rcases hcall : (db.setHandle { cc with identity := i }).callEngine t cc.id
    (.upsert amb.order (target cc p.id) vec (storedRow cc p .null)) with ⟨db', _ | e⟩ <;>
    rw [storedRow] at hcall <;> rw [hcall]

theorem Rewriting.step {now : Storage.PointID → Option Entry} {i : Identity}
    (h : Rewriting codecs name cc now db i) (hd : Describes codecs cc.id cc c) (p : Point)
    (amb : Ambient) :
    ∃ i', (i' = i ∨ ∃ q, i.prepareID cc.schema.idKind (suppliedID p.id) = .ok (i', q)) ∧
      Rewriting codecs name cc (rewritten cc c.shape i now p)
        (db.act (.write .writer name p true amb)).1 i' := by
  obtain ⟨t, ht⟩ := ne_none_iff_exists'.mp h.writer
  obtain ⟨c₁, T, hT, ho, hnow⟩ := h.table
  obtain ⟨-, c₂, hc₂, hd₂⟩ := h.inv.handle h.handle
  cases hc₂.symm.trans hT.coll
  have hshape : T.shape = c.shape := hT.stores.shape.symm.trans (hd₂.shape.trans hd.shape.symm)
  have hinv := h.inv.act (.write .writer name p true amb)
  have hact : (db.act (.write .writer name p true amb)).1 =
      (db.writeOne t { cc with identity := i } p true amb).1 := by
    simp only [DB.act, DB.write, DB.requireWrite, ht, h.handle]
    rfl
  rw [hact] at hinv ⊢
  by_cases hp : Passes { cc with identity := i } p
  · obtain ⟨i', q, hi', heq, hdim, hfits⟩ := @passes_writeOne db _ _ _ _ t hd₂ hp amb
    rw [heq] at hinv ⊢
    have hT' : (db.setHandle { cc with identity := i' }).Holds cc.id c₁ T := ⟨hT.coll, hT.stores⟩
    obtain ⟨c', hc', -, howned⟩ := hT'.callEngine ht (w := .upsert ..) trivial
    refine ⟨i', .inr ⟨q, hi'⟩, hinv, some_ne_none _,
      h.inv.handle_setHandle h.handle rfl, c', _, hc', howned ho, ?_⟩
    rw [hT.stores.shape] at hdim hfits
    rw [rewritten, if_pos hp, ← hnow, ← hshape]
    exact Table.upsert_now (Table.upsert_accepted hdim hfits amb.order)
  · rw [rewritten, if_neg hp]
    rcases @not_passes_writeOne db _ _ _ _ t hd₂ hp true amb with heq | ⟨cc', q, hid, heq⟩
    · rw [heq] at hinv ⊢
      exact ⟨i, .inl rfl, h⟩
    · rw [heq] at hinv ⊢
      obtain ⟨i', hi', rfl⟩ := Catalog.Collection.prepareID_eq_ok.mp hid
      exact ⟨i', .inr ⟨q, hi'⟩, hinv, h.writer, h.inv.handle_setHandle h.handle rfl, c₁, T,
        ⟨hT.coll, hT.stores⟩, ho, hnow⟩

end DB

/-- The ids still to be written back are below the counter, which does not move while zero is
among them. -/
structure Steady (i₀ i : Identity) (ps : List Point) : Prop where
  auto : i.auto = i₀.auto
  deleted : i.deleted = i₀.deleted
  le : i₀.seq ≤ i.seq
  zero : (∃ p ∈ ps, p.id.n = 0) → i.seq = i₀.seq

section Steady

variable {i₀ i i' : Identity} {ps : List Point} {p : Point} {cc : Catalog.Collection}

theorem Steady.refl (i : Identity) (ps : List Point) : Steady i i ps :=
  ⟨rfl, rfl, UInt64.le_refl _, fun _ => rfl⟩

theorem suppliedID_number {n : UInt64} :
    suppliedID { n } = if n = 0 then none else some (.bigInt n) := by
  by_cases h : n = 0 <;> simp [suppliedID, h]

theorem Steady.step (h : Steady i₀ i (p :: ps)) {n : UInt64} (hp : p.id = { n })
    (hlt : n < i₀.seq) (hnodup : ((p :: ps).map fun p => p.id.n).Nodup) {q : Id}
    (hi : i.prepareID .bigInt (suppliedID p.id) = .ok (i', q)) : Steady i₀ i' ps := by
  rw [hp, suppliedID_number] at hi
  split at hi
  case isTrue hn =>
    -- the counter moves, and no other point has the id zero
    obtain ⟨-, hmax, rfl, -⟩ := Identity.nextAuto_eq_ok hi
    refine ⟨h.auto, h.deleted, UInt64.le_trans h.le (UInt64.le_of_lt (Ahead.lt_add_one hmax)), ?_⟩
    rintro ⟨p', hp', hn'⟩
    have hfirst : p.id.n ∉ ps.map fun p => p.id.n := (nodup_cons.mp hnodup).1
    rw [hp, hn, ← hn'] at hfirst
    exact absurd (mem_map.mpr ⟨p', hp', rfl⟩) hfirst
  case isFalse hn =>
    obtain ⟨-, -, rfl, -⟩ := Identity.prepareID_some_eq_ok hi
    have hno : ¬ (i.auto && i.seq ≤ n) = true := by
      rw [Bool.and_eq_true, decide_eq_true_iff]
      exact fun hle => absurd (UInt64.le_trans h.le hle.2) (UInt64.not_le.mpr hlt)
    rw [Identity.reserveAuto, if_neg hno]
    refine ⟨h.auto, h.deleted, h.le, ?_⟩
    rintro ⟨p', hp', hn'⟩
    exact h.zero ⟨p', mem_cons_of_mem _ hp', hn'⟩

theorem prepareID_ok_congr {kind : IDKind} {supplied : Option Id}
    (hauto : i.auto = i₀.auto) (hdel : i.deleted = i₀.deleted)
    (hseq : supplied = none → i.seq = i₀.seq) :
    (∃ r, i.prepareID kind supplied = .ok r) ↔ ∃ r, i₀.prepareID kind supplied = .ok r := by
  cases supplied with
  | none =>
    simp only [Identity.prepareID, Identity.nextAuto, hauto, hseq rfl]
    split
    · simp
    · split <;> simp
  | some q =>
    have hwas : i.wasDeleted q = i₀.wasDeleted q := by rw [Identity.wasDeleted, hdel]; rfl
    simp only [Identity.prepareID, hwas, Fallible.bind_eq_ok]
    rcases i₀.wasDeleted q <;> simp

theorem Steady.same (h : Steady cc.identity i (p :: ps)) {n : UInt64} (hp : p.id = { n }) :
    target { cc with identity := i } p.id = target cc p.id ∧
      (Passes { cc with identity := i } p ↔ Passes cc p) := by
  have hseq : suppliedID p.id = none → i.seq = cc.identity.seq := by
    rw [hp, suppliedID_number]
    split
    case isTrue hn => exact fun _ => h.zero ⟨p, mem_cons_self, by rw [hp, hn]⟩
    case isFalse => exact nofun
  constructor
  · rw [target, target]
    rcases hs : suppliedID p.id with _ | q
    · exact hseq hs
    · rfl
  · refine and_congr_right fun _ => and_congr_left fun _ => ?_
    rw [Catalog.Collection.prepareID_ok_iff, Catalog.Collection.prepareID_ok_iff]
    exact prepareID_ok_congr h.auto h.deleted hseq

end Steady

namespace DB

def WritesBack (name : Bytes) (p : Point) (op : Op) : Prop := ∃ amb, op = .write .writer name p true amb

section Run

variable {db : DB} {codecs : Codecs} {name : Bytes} {cc : Catalog.Collection}
  {c : Storage.Collection} {ps : List Point} {p : Point} {shape : Storage.Shape}
  {now : Storage.PointID → Option Entry} {i : Identity} {id : Storage.PointID}

theorem Rewriting.acts (h : Rewriting codecs name cc now db i) (hd : Describes codecs cc.id cc c)
    (hs : Steady cc.identity i ps) (hps : ∀ p ∈ ps, ∃ n, p.id = { n } ∧ n < cc.identity.seq)
    (hnodup : (ps.map fun p => p.id.n).Nodup) {ops : List Op}
    (hops : List.Forall₂ (WritesBack name) ps ops) :
    ∃ i', Rewriting codecs name cc (ps.foldl (rewritten cc c.shape cc.identity) now)
      (db.acts ops).1 i' := by
  induction hops generalizing db now i with
  | nil => exact ⟨i, h⟩
  | @cons p op ps ops hop _ ih =>
    obtain ⟨amb, rfl⟩ := hop
    obtain ⟨n, hp, hlt⟩ := hps p mem_cons_self
    obtain ⟨i', hi', hstep⟩ := h.step hd p amb
    have hs' : Steady cc.identity i' ps := by
      rcases hi' with rfl | ⟨q, hi'⟩
      · exact ⟨hs.auto, hs.deleted, hs.le,
          fun ⟨p', hp', hn⟩ => hs.zero ⟨p', mem_cons_of_mem _ hp', hn⟩⟩
      · rw [hd.plain.idKind] at hi'
        exact hs.step hp hlt hnodup hi'
    have hsame : rewritten cc c.shape i now p = rewritten cc c.shape cc.identity now p := by
      obtain ⟨htarget, hpass⟩ := hs.same hp
      by_cases hp : Passes cc p
      · rw [rewritten, rewritten, if_pos (hpass.mpr hp), if_pos hp, htarget]
      · rw [rewritten, rewritten, if_neg (mt hpass.mp hp), if_neg hp]
    rw [hsame] at hstep
    exact ih hstep hs' (fun p' hp' => hps p' (mem_cons_of_mem _ hp'))
      (nodup_cons.mp hnodup).2

theorem foldl_rewritten_of_ne (h : ∀ p ∈ ps, Passes cc p → target cc p.id ≠ id) :
    ps.foldl (rewritten cc shape cc.identity) now id = now id := by
  induction ps generalizing now with
  | nil => rfl
  | cons p ps ih =>
    rw [forall_mem_cons] at h
    rw [foldl_cons, ih h.2, rewritten]
    split
    · exact update_of_ne (h.1 ‹_›).symm _ _
    · rfl

theorem foldl_rewritten_of_mem (h : (ps.map fun p => target cc p.id).Nodup) (hp : p ∈ ps)
    (hpass : Passes cc p) :
    ps.foldl (rewritten cc shape cc.identity) now (target cc p.id) = some (written cc shape p) := by
  induction ps generalizing now with
  | nil => cases hp
  | cons p' ps ih =>
    rw [map_cons, nodup_cons] at h
    rw [foldl_cons]
    rcases mem_cons.mp hp with rfl | hp
    · rw [foldl_rewritten_of_ne, rewritten, if_pos hpass, update_self]
      intro p' hp' _ heq
      exact h.1 (mem_map.mpr ⟨p', hp', heq⟩)
    · exact ih h.2 hp

theorem target_number {n : UInt64} : target cc { n } = if n = 0 then cc.identity.seq else n := by
  rw [target, suppliedID_number]
  by_cases hn : n = 0
  · rw [if_pos hn, if_pos hn]
  · rw [if_neg hn, if_neg hn]
    rfl

theorem nodup_targets (hps : ∀ p ∈ ps, ∃ n, p.id = { n } ∧ n < cc.identity.seq)
    (hnodup : (ps.map fun p => p.id.n).Nodup) : (ps.map fun p => target cc p.id).Nodup := by
  have hself : ps.Nodup := .of_map _ hnodup
  refine (nodup_map_iff_inj_on hself).mpr fun p hp p' hp' heq => ?_
  refine (nodup_map_iff_inj_on hself).mp hnodup p hp p' hp' ?_
  obtain ⟨n, hn, hlt⟩ := hps p hp
  obtain ⟨n', hn', hlt'⟩ := hps p' hp'
  rw [hn, hn', target_number, target_number] at heq
  rw [hn, hn']
  split at heq <;> split at heq
  · exact (‹n = 0›).trans (‹n' = 0›).symm
  · exact absurd (heq ▸ hlt') (UInt64.lt_irrefl _)
  · exact absurd (heq ▸ hlt) (UInt64.lt_irrefl _)
  · exact heq

theorem Rewriting.commit (h : Rewriting codecs name cc now db i) :
    ∃ cc' c T, db.commit.1.handle name = .ok cc' ∧ Revises { cc with identity := i } cc' ∧
      db.commit.1.Holds cc.id c T ∧ c.Owned ∧ T.now = now := by
  obtain ⟨c, T, hT, ho, rfl⟩ := h.table
  obtain ⟨cc', hn, hr⟩ := (h.inv.follows_act .commit).handle h.handle
  obtain ⟨c', T', hT', hturns, howned⟩ := hT.act .commit
  refine ⟨cc', c', T', hn, hr, hT', howned ho nofun, ?_⟩
  cases hturns with
  | same | commit => rfl
  | call hw => exact hw.elim
  | rollback hop => cases hop

theorem Rewriting.scan_commit (h : Rewriting codecs name cc now db i)
    (hg : ∀ c, db.commit.1.sys.engine.colls cc.id = some c → c.InGrid) :
    ∃ ps, db.commit.1.scan name = .ok ps ∧ (ps.map Point.id).Nodup ∧
      ∀ p, p ∈ ps ↔ ∃ id e, now id = some e ∧ p = pointOf cc id e := by
  obtain ⟨cc', c, T, hn, hr, hT, ho, rfl⟩ := h.commit
  have hid : cc'.id = cc.id := hr.id_eq
  rw [← hid] at hT
  obtain ⟨ps, hps, hnodup, hmem⟩ := scan_eq hn hT ho (hg c (hid ▸ hT.coll))
  refine ⟨ps, hps, hnodup, fun p => ?_⟩
  obtain ⟨_, _, -, rfl⟩ := hr
  exact hmem p

theorem pointOf_inj {id id' : Storage.PointID} {e e' : Entry}
    (h : pointOf cc id e = pointOf cc id' e') : id = id' :=
  congrArg (fun p : Point => p.id.n) h

/-- All points of a collection are written back and read again. The records are the same just if
every point that the catalog lets through has another id than zero, no value that is lost and a
value for every column with a default. -/
theorem write_back_iff {builders : Builders} (hr : Reachable codecs builders db)
    (hw : db.sys.writer ≠ none) (hn : db.handle name = .ok cc)
    (hc : db.sys.engine.colls cc.id = some c) (ho : c.Owned) (hg : c.InGrid)
    (hs : db.scan name = .ok ps) (hseq : ∀ p ∈ ps, p.id.n < cc.identity.seq) {ops : List Op}
    (hops : List.Forall₂ (WritesBack name) ps ops)
    (hg' : ∀ c', (db.acts ops).1.commit.1.sys.engine.colls cc.id = some c' → c'.InGrid) :
    (∃ ps', (db.acts ops).1.commit.1.scan name = .ok ps' ∧ (ps'.map Point.id).Nodup ∧
        ∀ p, p ∈ ps' ↔ p ∈ ps) ↔
      ∀ p ∈ ps, Passes cc p → p.id.n ≠ 0 ∧ Rewritable cc p := by
  have hinv := hr.inv
  obtain ⟨-, c₁, hc₁, hd⟩ := hinv.handle hn
  cases hc₁.symm.trans hc
  obtain ⟨T, hT⟩ := hinv.holds hc
  have hentry := congrFun hT.stores.now
  obtain ⟨ps₁, hs₁, hnodup, hmem⟩ := scan_eq hn hT ho hg
  cases hs₁.symm.trans hs
  have hps : ∀ p ∈ ps, ∃ n, p.id = { n } ∧ n < cc.identity.seq := by
    intro p hp
    obtain ⟨id, e, -, rfl⟩ := (hmem p).mp hp
    exact ⟨id, rfl, hseq _ hp⟩
  have hnodup' : (ps.map fun p => p.id.n).Nodup := by
    refine (nodup_map_iff_inj_on (.of_map _ hnodup)).mpr fun p hp p' hp' heq => ?_
    refine inj_on_of_nodup_map hnodup hp hp' ?_
    obtain ⟨n, hn, -⟩ := hps p hp
    obtain ⟨n', hn', -⟩ := hps p' hp'
    rw [hn, hn'] at heq ⊢
    exact congrArg (fun n => PointID.mk n [] false) heq
  have htargets := nodup_targets hps hnodup'
  have hrew : Rewriting codecs name cc T.now db cc.identity := ⟨hinv, hw, hn, c, T, hT, ho, rfl⟩
  obtain ⟨i, hrun⟩ := hrew.acts hd (.refl _ _) hps hnodup' hops
  obtain ⟨ps', hs', hnodup₁, hmem'⟩ := hrun.scan_commit hg'
  constructor
  · rintro ⟨ps₂, hs₂, -, hsame⟩ p hp hpass
    cases hs₂.symm.trans hs'
    have hin := (hsame _).mp ((hmem' _).mpr ⟨_, _, foldl_rewritten_of_mem htargets hp hpass, rfl⟩)
    obtain ⟨id, e, he, rfl⟩ := (hmem p).mp hp
    have hid : id ≠ 0 := by
      rintro rfl
      have hlt : target cc { n := 0 } < cc.identity.seq := hseq _ hin
      rw [target_number, if_pos rfl] at hlt
      exact UInt64.lt_irrefl _ hlt
    have htarget : target cc (pointOf cc id e).id = id := target_number.trans (if_neg hid)
    rw [htarget] at hin
    obtain ⟨id', e', he', heq⟩ := (hmem _).mp hin
    obtain rfl := pointOf_inj heq
    cases he'.symm.trans he
    exact ⟨hid, (hd.pointOf_written ((hentry id).trans he)).mp heq⟩
  · intro hall
    refine ⟨ps', hs', hnodup₁, fun p => ?_⟩
    have hsame : ∀ id, (ps.foldl (rewritten cc c.shape cc.identity) T.now id).map (pointOf cc id) =
        (T.now id).map (pointOf cc id) := by
      intro id
      by_cases hk : ∃ q ∈ ps, Passes cc q ∧ target cc q.id = id
      · obtain ⟨q, hq, hpass, htarget⟩ := hk
        rw [← htarget, foldl_rewritten_of_mem htargets hq hpass, htarget]
        obtain ⟨n, e, he, rfl⟩ := (hmem q).mp hq
        obtain ⟨hne, hrw⟩ := hall _ hq hpass
        obtain rfl : n = id := (target_number.trans (if_neg hne)).symm.trans htarget
        rw [he, map_some, map_some,
          (hd.pointOf_written ((hentry n).trans he)).mpr hrw]
      · rw [foldl_rewritten_of_ne fun q hq hpass htarget => hk ⟨q, hq, hpass, htarget⟩]
    have hread : ∀ now : Storage.PointID → Option Entry,
        (∃ id e, now id = some e ∧ p = pointOf cc id e) ↔
          ∃ id, (now id).map (pointOf cc id) = some p := by
      intro now
      simp only [map_eq_some_iff, eq_comm (a := p)]
    rw [hmem, hmem', hread, hread]
    exact exists_congr fun id => by rw [hsame id]

end Run

section Runs

def opened (p : Point) : DB :=
  (tagged.acts [.write .writer (ascii "a") p false {}, .commit, .begin]).1

theorem opened_kept {builders : Builders} (p : Point) : Kept noCodecs builders (opened p) :=
  tagged_kept.acts (by simp)

def textPoint : Point := { vectorPoint 5 with metadata := [(ascii "t", .text (ascii "x"))] }

theorem write_back_point :
    (opened textPoint).scan (ascii "a") = .ok [textPoint] ∧ ∃ ps,
      ((opened textPoint).acts [.write .writer (ascii "a") textPoint true {}]).1.commit.1.scan
        (ascii "a") = .ok ps ∧ (ps.map Point.id).Nodup ∧ ∀ p, p ∈ ps ↔ p ∈ [textPoint] := by
  have hkept := (@opened_kept noBuilders textPoint).reachable
  have hdone := @Kept.acts _ _ _ (@opened_kept noBuilders textPoint)
    [.write .writer (ascii "a") textPoint true {}, .commit] (by simp)
  have hscan : (opened textPoint).scan (ascii "a") = .ok [textPoint] := by decide +kernel
  refine ⟨hscan, ?_⟩
  obtain ⟨cc, hn, hid, hseq, hcols⟩ : ∃ cc, (opened textPoint).handle (ascii "a") = .ok cc ∧
      cc.id = 1 ∧ cc.identity.seq = 6 ∧
        ∀ col ∈ cc.schema.metadataColumns, (col.default.getD .null).isNull = true :=
    ⟨_, rfl, rfl, rfl, by decide⟩
  obtain ⟨c, hc⟩ : ∃ c, (opened textPoint).sys.engine.colls cc.id = some c := by
    rw [hid]
    exact ⟨_, rfl⟩
  refine (write_back_iff hkept nofun hn hc ((@opened_kept noBuilders textPoint).owned _ c hc) ?_ hscan ?_
    (.cons ⟨{}, rfl⟩ .nil) ?_).mpr ?_
  · refine (hkept.inv.sys.inv.wf hc).within.inGrid ?_
    rw [hid] at hc
    cases hc
    decide +kernel
  · rw [forall_mem_singleton, hseq]
    decide
  · intro c' hc'
    refine (hdone.reachable.inv.sys.inv.wf hc').within.inGrid ?_
    rw [hid] at hc'
    cases hc'
    decide +kernel
  · rw [forall_mem_singleton]
    exact fun _ => ⟨by decide, by simp [textPoint, Value.Stable], fun col hcol _ => hcols col hcol⟩

/-- The point that was given the id 0 is copied when it is written back. -/
theorem write_back_copies_zero : Reachable noCodecs noBuilders (opened (vectorPoint 0)) ∧
    (opened (vectorPoint 0)).scan (ascii "a") = .ok [vectorPoint 0] ∧
    ((opened (vectorPoint 0)).acts [.write .writer (ascii "a") (vectorPoint 0) true {}]).1.commit.1.scan
      (ascii "a") = .ok [vectorPoint 0, vectorPoint 1] :=
  ⟨(opened_kept _).reachable, by decide +kernel, by decide +kernel⟩

end Runs

end DB

end VecDb.Facade

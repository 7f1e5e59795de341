import VecDb.Facade.Tables

/-! # Metadata and cells

The metadata columns of a collection are numbered in the order of its schema. A write
lowers one value for each of them, the one supplied or the default; a read raises the
cells that are not null.
-/

namespace VecDb.Catalog

open List Option Fallible

variable {s : Schema} {col : ColumnDef} {i j : ℕ} {supplied : List (Bytes × Value)}
  {col' : ColumnDef} {now : Value} {α : Type*}

def Schema.MetaAt (s : Schema) (i : ℕ) (col : ColumnDef) : Prop := s.metadataColumns[i]? = some col

theorem Schema.metaAt_iff : s.MetaAt i col ↔ (col, i) ∈ s.metadataColumns.zipIdx := by
  rw [MetaAt, mk_mem_zipIdx_iff_getElem?]

theorem Schema.Plain.lt (h : s.Plain) (hi : s.MetaAt i col) : i < 2 ^ 32 := by
  have hlt := (List.getElem?_eq_some_iff.mp hi).1
  have hfew : s.metadataColumns.length ≤ 1024 := h.few
  omega

theorem Schema.Plain.number_inj (h : s.Plain) (hi : s.MetaAt i col)
    (hj : s.MetaAt j col') (hij : UInt32.ofNat i = UInt32.ofNat j) : i = j := by
  have hval := congrArg UInt32.toNat hij
  rwa [UInt32.toNat_ofNat_of_lt' (h.lt hi), UInt32.toNat_ofNat_of_lt' (h.lt hj)] at hval

theorem Schema.Plain.nodup_names (h : s.Plain) : (s.metadataColumns.map ColumnDef.name).Nodup :=
  h.names.sublist (filter_sublist.map _)

theorem Schema.Plain.name_inj (h : s.Plain) (hi : s.MetaAt i col)
    (hj : s.MetaAt j col') (hname : col.name = col'.name) : i = j := by
  have hlt := (List.getElem?_eq_some_iff.mp hi).1
  rw [Schema.MetaAt] at hi hj
  refine (List.getElem?_inj (by rwa [length_map]) h.nodup_names).mp ?_
  rw [List.getElem?_map, List.getElem?_map, hi, hj, map_some, map_some, hname]

theorem Schema.Plain.nodup_numbers (h : s.Plain) (f : ColumnDef → α) :
    ((s.metadataColumns.zipIdx.map fun x => (UInt32.ofNat x.2, f x.1)).map Prod.fst).Nodup := by
  rw [List.map_map]
  refine (nodup_map_iff_inj_on ?_).mpr ?_
  · refine .of_map Prod.snd ?_
    rw [zipIdx_map_snd]
    exact nodup_range'
  · rintro ⟨a, i⟩ ha ⟨b, j⟩ hb hij
    obtain rfl := h.number_inj (metaAt_iff.mpr ha) (metaAt_iff.mpr hb) hij
    have hab := (metaAt_iff.mpr ha).symm.trans (metaAt_iff.mpr hb)
    rw [Option.some.inj hab]

section Lower

def valueFor (supplied : List (Bytes × Value)) (now : Value) (col : ColumnDef) : Value :=
  (suppliedOrDefault supplied now false col).getD .null

theorem suppliedOrDefault_eq (supplied : List (Bytes × Value)) (now : Value) (col : ColumnDef) :
    suppliedOrDefault supplied now false col = some (valueFor supplied now col) := by
  unfold valueFor suppliedOrDefault
  split
  · rfl
  · split
    · rfl
    · split <;> rfl

theorem valueFor_of_lookup {now v : Value}
    (h : supplied.lookup col.name = some v) : valueFor supplied now col = v := by
  rw [valueFor, suppliedOrDefault, h]
  rfl

theorem resolveColumns_eq_ok {cols : List ColumnDef}
    {row : List (Bytes × Value)} : resolveColumns supplied now false cols = .ok row ↔
      (∀ col ∈ cols, validateMeta col (valueFor supplied now col) false = .ok ()) ∧
        row = cols.map fun col => (col.name, valueFor supplied now col) := by
  induction cols generalizing row with
  | nil => simp [resolveColumns, eq_comm]
  | cons col cols ih =>
    rw [resolveColumns, suppliedOrDefault_eq]
    rw [bind_eq_ok]
    constructor
    · rintro ⟨_, hv, h⟩
      obtain ⟨row', hrow, h⟩ := bind_eq_ok.mp h
      cases h
      obtain ⟨hall, rfl⟩ := ih.mp hrow
      exact ⟨forall_mem_cons.mpr ⟨hv, hall⟩, rfl⟩
    · rintro ⟨hall, rfl⟩
      rw [forall_mem_cons] at hall
      exact ⟨(), hall.1, bind_eq_ok.mpr ⟨_, ih.mpr ⟨hall.2, rfl⟩, rfl⟩⟩

def loweredRow (s : Schema) (supplied : List (Bytes × Value)) (now : Value) :
    List (Storage.ColID × Storage.Value) :=
  s.metadataColumns.zipIdx.map fun x => (UInt32.ofNat x.2, (valueFor supplied now x.1).lower)

theorem Schema.Plain.colID (h : s.Plain) (hi : s.MetaAt i col) :
    s.colIDs.lookup col.name = some (UInt32.ofNat i) := by
  rw [Assoc.lookup_iff_mem]
  · exact List.mem_map.mpr ⟨(col, i), metaAt_iff.mp hi, rfl⟩
  · have hkeys : s.colIDs.map Prod.fst = s.metadataColumns.map ColumnDef.name := by
      rw [Schema.colIDs, List.map_map]
      conv_rhs => rw [← List.zipIdx_map_fst 0 s.metadataColumns, List.map_map]
      rfl
    rw [hkeys]
    exact h.nodup_names

theorem Schema.Plain.filterMap_colID (h : s.Plain) (f : ColumnDef → Storage.ColID → Option α) :
    (s.metadataColumns.filterMap fun col => (s.colIDs.lookup col.name).bind (f col)) =
      s.metadataColumns.zipIdx.filterMap fun x => f x.1 (UInt32.ofNat x.2) := by
  conv_lhs => rw [← List.zipIdx_map_fst 0 s.metadataColumns, filterMap_map]
  refine List.filterMap_congr fun x hx => ?_
  rw [Function.comp_apply, h.colID (metaAt_iff.mpr hx), bind_some]

theorem lowerMeta_eq_ok {cc : Collection} (hp : cc.schema.Plain)
    (hcols : cc.colIDs = cc.schema.colIDs)
    {row : List (Storage.ColID × Storage.Value)} : cc.lowerMeta supplied now = .ok row ↔
      (∀ col ∈ cc.schema.metadataColumns,
        validateMeta col (valueFor supplied now col) false = .ok ()) ∧
      row = loweredRow cc.schema supplied now := by
  have hmode : decide (cc.schema.mode = some .optional) = false := by
    rw [hp.mode]
    rfl
  have hextra : supplied.filter (fun e => false && (cc.schema.column e.1).isNone) = [] := by simp
  have hrow : ((cc.schema.metadataColumns.map fun col : ColumnDef =>
      (col.name, valueFor supplied now col)) ++ []).filterMap (fun e : Bytes × Value =>
        (cc.colID e.1).map fun id => (id, e.2.lower)) = loweredRow cc.schema supplied now := by
    have hmap := hp.filterMap_colID fun col id => some (id, (valueFor supplied now col).lower)
    have hsome : loweredRow cc.schema supplied now = _ := (congrFun filterMap_eq_map _).symm
    rw [hsome, Function.comp_def, ← hmap, append_nil, filterMap_map]
    refine List.filterMap_congr fun col _ => ?_
    rw [Function.comp_apply, Collection.colID, hcols]
    cases cc.schema.colIDs.lookup col.name <;> rfl
  rw [Collection.lowerMeta, bind_eq_ok]
  simp only [Schema.resolveMeta, hmode, hextra]
  constructor
  · rintro ⟨resolved, hres, hok⟩
    obtain ⟨cols, hcheck, hres⟩ := bind_eq_ok.mp hres
    obtain ⟨hall, rfl⟩ := resolveColumns_eq_ok.mp hcheck
    cases hres
    cases hok
    exact ⟨hall, hrow⟩
  · rintro ⟨hall, rfl⟩
    exact ⟨_, bind_eq_ok.mpr ⟨_, resolveColumns_eq_ok.mpr ⟨hall, rfl⟩, rfl⟩, congrArg _ hrow⟩

theorem lower_matchesType {v : Value} (h : validateMeta col v false = .ok ()) :
    v.lower.isNull = true ∨ v.lower.matchesType (lowerColType col.dataType) = true := by
  by_cases hnull : v.isNull = true
  · cases v <;> cases hnull
    exact .inl rfl
  rw [validateMeta, if_neg hnull] at h
  have hkind : kindAssignable col.dataType v.kind = true := by
    by_contra hk
    rw [Bool.not_eq_true] at hk
    simp [hk] at h
  refine .inr ?_
  cases v <;> cases hd : col.dataType <;> rw [hd] at hkind <;> first | rfl | cases hkind
  all_goals exact absurd rfl hnull

end Lower

end VecDb.Catalog

namespace VecDb.Facade

open Catalog (Codecs Schema valueFor loweredRow)

variable {codecs : Codecs} {k : UInt64} {cc : Catalog.Collection} {c : Storage.Collection}
  {col : Catalog.ColumnDef} {i : ℕ} {supplied : List (Bytes × Catalog.Value)} {now : Catalog.Value}
  {s : Schema}

theorem rowOf_loweredRow (hp : s.Plain) :
    (rowOf (loweredRow s supplied now)).entries = loweredRow s supplied now := by
  have hnodup : (([] ++ loweredRow s supplied now).map Prod.fst).Nodup :=
    hp.nodup_numbers fun col => (valueFor supplied now col).lower
  dsimp only [rowOf]
  rw [Assoc.foldl_upsert_pairs hnodup, List.nil_append]

theorem rowOf_loweredRow_get? (hp : s.Plain) (hi : s.MetaAt i col) :
    (rowOf (loweredRow s supplied now)).get? (UInt32.ofNat i) =
      some (valueFor supplied now col).lower := by
  rw [Storage.MetadataStore.get?_eq_some, rowOf_loweredRow hp]
  exact List.mem_map.mpr ⟨(col, i), Schema.metaAt_iff.mp hi, rfl⟩

section

variable (h : Describes codecs k cc c)
include h

theorem Describes.colType (hi : cc.schema.MetaAt i col) :
    c.shape.store.colType (UInt32.ofNat i) = some (Catalog.lowerColType col.dataType) := by
  have hcolumns : c.shape.store.columns = cc.schema.metadataColumns.zipIdx.map fun x =>
      ⟨UInt32.ofNat x.2, Catalog.lowerColType x.1.dataType⟩ := by
    rw [h.shape, h.lowered]
    rfl
  refine @Storage.MetadataStore.colType_of_mem _ ⟨UInt32.ofNat i, Catalog.lowerColType col.dataType⟩
    ?_ ?_ <;> rw [hcolumns]
  · have := h.plain.nodup_numbers fun col => Catalog.lowerColType col.dataType
    rwa [List.map_map] at this ⊢
  · exact List.mem_map.mpr ⟨(col, i), Schema.metaAt_iff.mp hi, rfl⟩

theorem Describes.has (hi : cc.schema.MetaAt i col) : c.shape.store.has (UInt32.ofNat i) = true :=
  Option.isSome_of_eq_some (h.colType hi)

theorem Describes.fits (hall : ∀ col ∈ cc.schema.metadataColumns,
      Catalog.validateMeta col (valueFor supplied now col) false = .ok ()) :
    ∀ e ∈ (rowOf (loweredRow cc.schema supplied now)).entries, c.shape.store.Fits e.1 e.2 := by
  rw [rowOf_loweredRow h.plain]
  intro e he
  obtain ⟨⟨col, i⟩, hi, rfl⟩ := List.mem_map.mp he
  refine ⟨Catalog.lowerColType col.dataType, h.colType (Schema.metaAt_iff.mpr hi), ?_⟩
  exact Catalog.lower_matchesType (hall col (List.mem_of_getElem? (Schema.metaAt_iff.mpr hi)))

theorem Describes.cells (vec : Storage.Vec) (hi : cc.schema.MetaAt i col) :
    (c.shape.entry vec (rowOf (loweredRow cc.schema supplied now))).cells (UInt32.ofNat i) =
      (valueFor supplied now col).lower := by
  simp only [Storage.Shape.entry, h.has hi, if_true, rowOf_loweredRow_get? h.plain hi,
    Option.getD_some]

theorem Describes.pointOf_metadata (id : Storage.PointID) (e : Storage.Entry) :
    (pointOf cc id e).metadata = cc.schema.metadataColumns.zipIdx.filterMap fun x =>
      if (e.cells (UInt32.ofNat x.2)).isNull then none
      else some (x.1.name, valueFromStorage (e.cells (UInt32.ofNat x.2))) := by
  have hcols : allMetaCols cc = cc.schema.metadataColumns.zipIdx.filterMap fun x =>
      some (UInt32.ofNat x.2) := by
    rw [← h.plain.filterMap_colID fun _ id => some id]
    unfold allMetaCols Catalog.Collection.colID
    rw [h.colIDs]
    simp
  dsimp only [pointOf, pointFromRecord, Catalog.Collection.colID]
  rw [h.colIDs, h.plain.filterMap_colID fun col id =>
    ((e.project (allMetaCols cc)).lookup id).map fun v => (col.name, valueFromStorage v)]
  refine List.filterMap_congr fun x hx => ?_
  have hmem : UInt32.ofNat x.2 ∈ allMetaCols cc := by
    rw [hcols]
    exact List.mem_filterMap.mpr ⟨x, hx, rfl⟩
  rw [Storage.Entry.lookup_project]
  rcases hn : (e.cells (UInt32.ofNat x.2)).isNull <;> simp [hmem]

theorem Describes.nodup_metadata (id : Storage.PointID)
    (e : Storage.Entry) : ((pointOf cc id e).metadata.map Prod.fst).Nodup := by
  rw [h.pointOf_metadata, List.Nodup, List.pairwise_map, List.pairwise_filterMap]
  have hnames := h.plain.nodup_names
  rw [← List.zipIdx_map_fst 0 cc.schema.metadataColumns, List.map_map] at hnames
  refine (List.pairwise_map.mp hnames).imp fun {x y} hne a ha b hb => ?_
  rw [Option.ite_none_left_eq_some, Option.some.injEq] at ha hb
  rw [← ha.2, ← hb.2]
  exact hne

theorem Describes.lookup_metadata (id : Storage.PointID)
    (e : Storage.Entry) {name : Bytes} {v : Value} :
    (pointOf cc id e).metadata.lookup name = some v ↔
      ∃ i col, cc.schema.MetaAt i col ∧ col.name = name ∧
        (e.cells (UInt32.ofNat i)).isNull = false ∧
        valueFromStorage (e.cells (UInt32.ofNat i)) = v := by
  rw [Assoc.lookup_iff_mem (h.nodup_metadata id e), h.pointOf_metadata, List.mem_filterMap]
  constructor
  · rintro ⟨⟨col, i⟩, hi, heq⟩
    rw [Option.ite_none_left_eq_some, Option.some.injEq, Prod.mk.injEq] at heq
    obtain ⟨hnull, hname, hv⟩ := heq
    exact ⟨i, col, Schema.metaAt_iff.mpr hi, hname, by simpa using hnull, hv⟩
  · rintro ⟨i, col, hi, rfl, hnull, rfl⟩
    exact ⟨(col, i), Schema.metaAt_iff.mp hi, by simp [hnull]⟩

end

end VecDb.Facade

import VecDb.Facade.Exec
import VecDb.Facade.Writes
import VecDb.Query.Rows

/-! # Reading back what was written

A value is lowered when its point is written and raised when it is read. A boolean loses its flag,
a timestamp is written in microseconds and read as nanoseconds, and metadata under a name that is
no metadata column does not come back at all.
-/

namespace VecDb.Facade

open List

open Catalog (Codecs Schema valueFor loweredRow)

variable {codecs : Codecs} {k : UInt64} {cc : Catalog.Collection} {c : Storage.Collection}
  {col : Catalog.ColumnDef} {i : ℕ}

theorem Describes.metaColMap_lookup (h : Describes codecs k cc c) (hi : cc.schema.MetaAt i col) :
    (metaColMap cc).lookup (columnText col.name) = some (UInt32.ofNat i) := by
  have hmap : metaColMap cc = cc.schema.metadataColumns.zipIdx.map fun x =>
      (columnText x.1.name, UInt32.ofNat x.2) := by
    have hfilter := h.plain.filterMap_colID fun col id => some (columnText col.name, id)
    have hsome := congrFun (@List.filterMap_eq_map _ _ fun x : Catalog.ColumnDef × ℕ =>
      (columnText x.1.name, UInt32.ofNat x.2)) cc.schema.metadataColumns.zipIdx
    rw [← hsome, Function.comp_def, ← hfilter, metaColMap]
    refine filterMap_congr fun col _ => ?_
    rw [Catalog.Collection.colID, h.colIDs]
    cases cc.schema.colIDs.lookup col.name <;> rfl
  rw [hmap, Assoc.lookup_iff_mem]
  · exact mem_map.mpr ⟨(col, i), Schema.metaAt_iff.mp hi, rfl⟩
  · rw [map_map]
    have hnames := h.plain.nodup_names
    rw [← zipIdx_map_fst 0 cc.schema.metadataColumns, map_map] at hnames
    have hmap' := hnames.map fun a b => @columnText_inj a b
    rwa [map_map] at hmap'

namespace DB

variable {db : DB} {T : Storage.Table} {name : Bytes} {machine : Machine} {bq : Query.BoundQuery}
  {results : List Result} {ctx : Query.Ctx} {fuel : ℕ}

theorem execWith_eq_ok (h : db.execWith machine fuel ctx name bq = some (.ok results)) :
    ∃ cs cc plan rs, db.state name = .ok cs ∧ db.cat.collections cs.collID = some cc ∧
      ((Query.Planner.new (db.queryCollection cc cs) machine.platform 0).plan bq).2 = .ok plan ∧
      (⟨db.queryCollection cc cs, machine.workers, machine.kernels⟩ : Query.Executor).execute fuel
        (fun i => ctx (i + 1)) plan bq.vector = some (.ok rs) ∧ results = newRows rs := by
  unfold execWith at h
  split at h
  · cases h
  rcases hs : db.state name with e | cs <;> rw [hs] at h
  · cases h
  dsimp only at h
  rcases hcc : db.cat.collections cs.collID with _ | cc <;> rw [hcc] at h
  · cases h
  dsimp only at h
  split at h
  · cases h
  split at h
  · cases h
  · rename_i plan hplan
    obtain ⟨r, hr, h⟩ := Option.map_eq_some_iff.mp h
    rcases r with e | rs
    · cases h
    · cases h
      exact ⟨cs, cc, plan, rs, rfl, hcc, hplan, hr, rfl⟩

theorem execWith_row (hn : db.handle name = .ok cc) (hd : Describes codecs cc.id cc c)
    (h : db.Holds cc.id c T) (ho : c.Owned)
    (hq : db.execWith machine fuel ctx name bq = some (.ok results)) :
    ∀ r ∈ results, ∃ id e, T.now id = some e ∧ r.id = { n := id } ∧
      ∀ i col, cc.schema.MetaAt i col → columnText col.name ∈ bq.project →
        (e.cells (UInt32.ofNat i)).isNull = false →
        r.columns.lookup (columnText col.name) =
          some (valueFromStorage (e.cells (UInt32.ofNat i))) := by
  obtain ⟨cs, cc', plan, rs, hs, hcc, hplan, hexec, rfl⟩ := execWith_eq_ok hq
  obtain rfl : cc' = cc := by
    rw [DB.handle, hs] at hn
    dsimp only at hn
    rw [hcc] at hn
    exact Except.ok.inj hn
  rintro r hr
  obtain ⟨row, hrow, rfl⟩ := mem_map.mp hr
  obtain ⟨ef, bs, htree, hmem⟩ := Query.Executor.mem_execute hexec hrow
  obtain ⟨x, hx⟩ := Query.buildTree_rowOf htree row hmem
  obtain ⟨e, he, hcells⟩ := hx.entry h.stores.wf ho h.coll (visibleIn_snapshot db none)
  rw [h.stores.now] at he
  refine ⟨row.pointID, e, he, rfl, fun i col hi hproj hnull => ?_⟩
  rw [← (Query.Planner.plan_for hplan).2.2.project] at hproj
  have hcol : (db.queryCollection cc' cs).colID (columnText col.name) = some (UInt32.ofNat i) :=
    hd.metaColMap_lookup hi
  rw [Assoc.lookup_map_snd, hcells _ hproj]
  dsimp only [Query.Executor.context]
  rw [hcol, Option.bind_some, if_neg (by rw [hnull]; exact Bool.false_ne_true)]
  rfl

end DB

/-- The kinds of values that are written and read: all but null and the texts of JSON. -/
def Value.Storable (v : Value) : Prop := v.type ≠ .null ∧ v.type ≠ .json

/-- A value that is the same after it has been lowered and raised. -/
def Value.Stable (v : Value) : Prop := v ≠ .bool true ∧ ∀ us, v = .timestamp us → us = 0 ∨ us = -1

theorem unixMicro_eq_self {us : Int64} : unixMicro us = us ↔ us = 0 ∨ us = -1 := by
  have hlo : -9223372036854775808 ≤ us.toInt := us.minValue_le_toInt
  have hhi : us.toInt ≤ 9223372036854775807 := us.toInt_le
  have hinj : ∀ n : Int64, us = n ↔ us.toInt = n.toInt := fun n => Int64.toInt_inj.symm
  rw [unixMicro, eq_comm, hinj, hinj 0, hinj (-1), Int64.toInt_ofInt_of_le]
  · show us.toInt = us.toInt / 1000 ↔ us.toInt = 0 ∨ us.toInt = -1
    omega
  · omega
  · omega

theorem valueFromStorage_lower {v : Value} (h : v.Storable) : v.catalogValue.lower.isNull = false ∧
      (valueFromStorage v.catalogValue.lower = v ↔ v.Stable) := by
  cases v with
  | null => exact absurd rfl h.1
  | json s => exact absurd rfl h.2
  | timestamp us =>
    have hstable : (Value.timestamp us).Stable ↔ us = 0 ∨ us = -1 :=
      ⟨fun h => h.2 us rfl, fun h => ⟨nofun, fun _ heq => Value.timestamp.inj heq ▸ h⟩⟩
    rw [hstable, ← unixMicro_eq_self]
    exact ⟨rfl, Value.timestamp.inj, congrArg Value.timestamp⟩
  | bool b =>
    refine ⟨rfl, ?_⟩
    cases b with
    | false => exact iff_of_true rfl ⟨nofun, nofun⟩
    | true => exact iff_of_false nofun fun h => h.1 rfl
  | int i | float f | text s | bytes b => exact ⟨rfl, iff_of_true rfl ⟨nofun, nofun⟩⟩

/-- The value of a column is read back by the id, in every scan and in every row that a query
gives. -/
structure ReadsBack (machine : Machine) (db : DB) (name : Bytes) (id : PointID) (column : Bytes)
    (v : Value) : Prop where
  get : ∀ readSeq, ∃ p, db.get readSeq name id = .ok p ∧ p.metadata.lookup column = some v
  scan : ∃ ps, db.scan name = .ok ps ∧ (∃ p ∈ ps, p.id = id) ∧
    ∀ p ∈ ps, p.id = id → p.metadata.lookup column = some v
  query : ∀ fuel ctx bq results, db.execWith machine fuel ctx name bq = some (.ok results) →
    columnText column ∈ bq.project →
      ∀ r ∈ results, r.id = id → r.columns.lookup (columnText column) = some v

namespace DB

variable {db db₁ : DB} {name column : Bytes} {p : Point} {upsert : Bool} {amb : Ambient}
  {id : PointID} {v : Value} {builders : Builders}

theorem Keeps.readsBack_iff {n : Storage.PointID} {e : Storage.Entry}
    (h : Keeps codecs name cc n e db) (hc : db.sys.engine.colls cc.id = some c) (ho : c.Owned)
    (hg : c.InGrid) (machine : Machine) :
    ReadsBack machine db name { n } column v ↔ ∃ i col, cc.schema.MetaAt i col ∧ col.name = column ∧
      (e.cells (UInt32.ofNat i)).isNull = false ∧
      valueFromStorage (e.cells (UInt32.ofNat i)) = v := by
  obtain ⟨hinv, ⟨cc', hn, hr⟩, c', T, hT, he⟩ := h
  cases hT.coll.symm.trans hc
  obtain ⟨-, c'', hc'', hd⟩ := hinv.handle hn
  rw [hr.id_eq] at hc'' hd
  cases hc''.symm.trans hc
  have hT' : db.Holds cc'.id c T := hr.id_eq ▸ hT
  have hd' : Describes codecs cc'.id cc' c := hr.id_eq ▸ hd
  have hget : ∀ readSeq, db.get readSeq name { n } = .ok (pointOf cc' n e) := by
    intro readSeq
    have he' : T.now (enginePID { n }) = some e := he
    rw [get_eq hn hT'.coll hT'.stores hg readSeq, he']
    rfl
  have hread : (pointOf cc' n e).metadata.lookup column = some v ↔ ∃ i col,
      cc.schema.MetaAt i col ∧ col.name = column ∧ (e.cells (UInt32.ofNat i)).isNull = false ∧
        valueFromStorage (e.cells (UInt32.ofNat i)) = v := by
    rw [hd.lookup_metadata]
    exact exists_congr fun i => exists_congr fun col => and_congr_left fun _ => hr.metaAt
  rw [← hread]
  constructor
  · intro hb
    obtain ⟨p, hp, hv⟩ := hb.get none
    rw [hget none] at hp
    rwa [Except.ok.inj hp]
  · intro hv
    refine ⟨fun readSeq => ⟨_, hget readSeq, hv⟩, ?_, ?_⟩
    · obtain ⟨ps, hps, -, hmem⟩ := scan_eq hn hT' ho hg
      refine ⟨ps, hps, ⟨_, (hmem _).mpr ⟨n, e, he, rfl⟩, rfl⟩, fun p hp hid => ?_⟩
      obtain ⟨n', e', he', rfl⟩ := (hmem p).mp hp
      obtain rfl : n' = n := congrArg PointID.n hid
      cases he'.symm.trans he
      exact hv
    · intro fuel ctx bq results hq hproj r hr' hid
      obtain ⟨n', e', he', hid', hcols⟩ := execWith_row hn hd' hT' ho hq r hr'
      obtain rfl : n' = n := congrArg PointID.n (hid'.symm.trans hid)
      cases he'.symm.trans he
      obtain ⟨i, col, hi, rfl, hnull, rfl⟩ := hread.mp hv
      exact hcols i col (hr.metaAt.mpr hi) hproj hnull

/-- A written value comes back, after the commit and calls that spare the point, just if its
column is a metadata column and it is neither the boolean true nor a timestamp past the first
microseconds. -/
theorem read_back_iff (hr : Reachable codecs builders db) (hn : db.handle name = .ok cc)
    (hw : db.write .writer name p upsert amb = (db₁, .ok id)) {others : List Op}
    (hothers : Along opStep (Spares cc.id (enginePID id)) db₁ others)
    (hc : (db₁.acts others).1.commit.1.sys.engine.colls cc.id = some c) (ho : c.Owned)
    (hg : c.InGrid) (hp : p.metadata.lookup column = some v) (hv : v.Storable) (machine : Machine) :
    ReadsBack machine (db₁.acts others).1.commit.1 name id column v ↔
      (∃ i col, cc.schema.MetaAt i col ∧ col.name = column) ∧ v.Stable := by
  obtain ⟨c₀, vec, -, hd, hid, -, hkeeps⟩ := hr.inv.write_keeps hn hw
  have hkeeps' : Keeps codecs name cc _ _ (db₁.acts others).1.commit.1 :=
    @Keeps.act _ _ _ _ _ _ (hkeeps.acts hothers) .commit trivial
  have hsupplied : ∀ col : Catalog.ColumnDef, col.name = column →
      valueFor (p.metadata.map fun e => (e.1, e.2.catalogValue)) amb.now col = v.catalogValue := by
    rintro col rfl
    refine Catalog.valueFor_of_lookup ?_
    rw [Assoc.lookup_map_snd, hp]
    rfl
  obtain ⟨hnull, hstable⟩ := valueFromStorage_lower hv
  rw [hid, hkeeps'.readsBack_iff hc ho hg, ← hstable]
  constructor
  · rintro ⟨i, col, hi, hname, -, hval⟩
    rw [storedRow, hd.cells vec hi, hsupplied col hname] at hval
    exact ⟨⟨i, col, hi, hname⟩, hval⟩
  · rintro ⟨⟨i, col, hi, hname⟩, hval⟩
    refine ⟨i, col, hi, hname, ?_⟩
    rw [storedRow, hd.cells vec hi, hsupplied col hname]
    exact ⟨hnull, hval⟩

section Runs

def taggedSchema : CollectionSchema where
  name := ascii "a"
  columns := [{ name := ascii "v", type := .vector, dim := 1 }, { name := ascii "t", type := .text },
    { name := ascii "b", type := .bool }]

def tagged : DB := (createCollection noCodecs {} false taggedSchema).1.begin.1

def taggedPoint : Point :=
  { vectorPoint 5 with metadata := [(ascii "t", .text (ascii "x")), (ascii "b", .bool true)] }

theorem tagged_kept {builders : Builders} : Kept noCodecs builders tagged := by
  have hcreate := @Kept.step noCodecs builders _
    (.ddl (.create false taggedSchema)) (.new false) (by simp [Allowed]) nofun
  exact @Kept.acts _ _ _ hcreate [.begin] (by simp)

def taggedDone : DB :=
  (tagged.write .writer (ascii "a") taggedPoint false {}).1.commit.1

theorem taggedDone_kept : Kept noCodecs noBuilders taggedDone :=
  @Kept.acts _ _ _ tagged_kept [.write .writer (ascii "a") taggedPoint false {}, .commit] (by simp)

theorem read_back_text :
    (tagged.write .writer (ascii "a") taggedPoint false {}).2 = .ok { n := 5 } ∧
      ∀ machine, ReadsBack machine taggedDone (ascii "a") { n := 5 } (ascii "t")
        (.text (ascii "x")) := by
  refine ⟨by decide +kernel, fun machine => ?_⟩
  refine (@read_back_iff noCodecs _ _ tagged _ (ascii "a") (ascii "t") taggedPoint false {}
    { n := 5 } (.text (ascii "x")) noBuilders tagged_kept.reachable rfl rfl [] trivial rfl
    (taggedDone_kept.owned 1 _ rfl) ?_ rfl ⟨nofun, nofun⟩ machine).mpr ⟨⟨0, _, rfl, rfl⟩, nofun, nofun⟩
  have hwf := taggedDone_kept.reachable.inv.sys.inv.wf (k := 1) rfl
  exact hwf.within.inGrid (by decide +kernel)

/-- The boolean of the same point is written as true and read as false. -/
theorem true_reads_false : Reachable noCodecs noBuilders tagged ∧
    (tagged.write .writer (ascii "a") taggedPoint false {}).2 = .ok { n := 5 } ∧
    taggedPoint.metadata.lookup (ascii "b") = some (.bool true) ∧
    taggedDone.get none (ascii "a") { n := 5 } = .ok { taggedPoint with
      metadata := [(ascii "t", .text (ascii "x")), (ascii "b", .bool false)] } :=
  ⟨tagged_kept.reachable, by decide +kernel, by decide +kernel, by decide +kernel⟩

end Runs

end DB

end VecDb.Facade

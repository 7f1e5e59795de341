import VecDb.Facade.Indexes
import VecDb.Facade.Names
import VecDb.Storage.Table

/-! # Runs of a database

The states that a database comes to by calls of every kind. In all of them the handles of
the catalog describe the collections of the engine, and the engine is in a state that its
own calls lead to.
-/

namespace VecDb.Catalog

/-- A column of a schema that the library registers. -/
def ColumnDef.Plain (c : ColumnDef) : Prop :=
  c.kind = .vector ∧ c.elemType = some .fp32 ∧ c.dim ≠ 0 ∨
    c.kind = .metadata ∧ (∃ t, Facade.metadataKind t = some c.dataType) ∧ c.defaultNow = false

structure Schema.Plain (s : Schema) : Prop where
  idKind : s.idKind = .bigInt
  mode : s.mode = some .fixed
  columns : ∀ c ∈ s.columns, c.Plain
  names : (s.columns.map ColumnDef.name).Nodup
  vector : s.vectorColumns ≠ []
  few : s.metadataColumns.length ≤ maxMetadataColumns

end VecDb.Catalog

namespace VecDb.Facade

open Catalog (Codecs Schema normalizeColumns normalizeKind)

section Plain

theorem normalizeKind_eq_ok {c c' : Catalog.ColumnDef} (h : normalizeKind c = .ok c') :
    c'.name = c.name ∧ c'.kind = c.kind ∧ c'.dataType = c.dataType ∧
      c'.defaultNow = c.defaultNow ∧ (c'.kind = .vector → c'.elemType = some (c.elemType.getD .fp32)) := by
  unfold normalizeKind at h
  split at h
  · split at h
    · cases h
    · dsimp only at h
      split at h <;> cases h
      exact ⟨rfl, rfl, rfl, rfl, fun _ => rfl⟩
  · split at h
    · cases h
    · split at h <;> cases h
      refine ⟨rfl, rfl, rfl, rfl, fun hv => ?_⟩
      simp_all
  · cases h

/-- What a translated column is before it is normalized. -/
def Translated (c : Catalog.ColumnDef) : Prop :=
  c.kind = .vector ∧ c.elemType = some .fp32 ∨
    c.kind = .metadata ∧ (∃ t, metadataKind t = some c.dataType) ∧ c.defaultNow = false

theorem toCatalogColumn_translated {col : ColumnDef} {c : Catalog.ColumnDef}
    (h : toCatalogColumn col = .ok c) : Translated c := by
  unfold toCatalogColumn at h
  split at h
  · split at h <;> cases h
    exact .inl ⟨rfl, rfl⟩
  · rcases hk : metadataKind col.type with _ | k <;> rw [hk] at h <;> cases h
    exact .inr ⟨rfl, ⟨_, hk⟩, rfl⟩

theorem toCatalogColumns_translated {cols : List ColumnDef} {cs : List Catalog.ColumnDef}
    (h : toCatalogColumns cols = .ok cs) : ∀ c ∈ cs, Translated c := by
  induction cols generalizing cs with
  | nil => cases h; simp
  | cons col cols ih =>
    rw [toCatalogColumns] at h
    split at h
    · exact ih h
    · obtain ⟨c, hc, h⟩ := Fallible.bind_eq_ok.mp h
      obtain ⟨ds, hds, h⟩ := Fallible.bind_eq_ok.mp h
      cases h
      intro x hx
      rcases List.mem_cons.mp hx with rfl | hx
      · exact toCatalogColumn_translated hc
      · exact ih hds x hx

theorem normalizeColumns_plain {idName : Bytes} {i : ℕ} {seen : List Bytes}
    {cols cols' : List Catalog.ColumnDef} (h : normalizeColumns idName i seen cols = .ok cols')
    (ht : ∀ c ∈ cols, Translated c) :
    (∀ c ∈ cols', c.Plain ∧ c.name ∉ seen) ∧ (cols'.map Catalog.ColumnDef.name).Nodup := by
  induction cols generalizing i seen cols' with
  | nil => cases h; simp
  | cons c cols ih =>
    have hdim := Catalog.normalizeColumns_dim h
    rw [normalizeColumns] at h
    split at h
    · cases h
    split at h
    · cases h
    split at h
    · cases h
    rename_i hseen
    obtain ⟨d, hd, h⟩ := Fallible.bind_eq_ok.mp h
    obtain ⟨ds, hds, h⟩ := Fallible.bind_eq_ok.mp h
    cases h
    obtain ⟨hall, hnodup⟩ := ih hds fun x hx => ht x (List.mem_cons_of_mem _ hx)
    obtain ⟨hname, hkind, htype, hnow, helem⟩ := normalizeKind_eq_ok hd
    refine ⟨?_, ?_⟩
    · intro x hx
      rcases List.mem_cons.mp hx with rfl | hx
      · refine ⟨?_, by rw [hname]; exact hseen⟩
        rcases ht c List.mem_cons_self with ⟨hv, he⟩ | ⟨hm, hk, hn⟩
        · have hv' : x.kind = .vector := hkind.trans hv
          refine .inl ⟨hv', ?_, hdim x List.mem_cons_self hv'⟩
          rw [helem hv']
          exact congrArg (fun e => some (e.getD .fp32)) he
        · exact .inr ⟨hkind.trans hm, htype ▸ hk, hnow.trans hn⟩
      · exact ⟨(hall x hx).1, fun hmem => (hall x hx).2 (List.mem_cons_of_mem _ hmem)⟩
    · rw [List.map_cons, List.nodup_cons, List.mem_map]
      refine ⟨?_, hnodup⟩
      rintro ⟨x, hx, heq⟩
      exact (hall x hx).2 (by rw [heq, hname]; exact List.mem_cons_self)

theorem plain_of_normalize {schema : CollectionSchema} {s s' : Schema}
    (h : toCatalogSchema schema = .ok s) (hs : s.normalize = .ok s') :
    s'.Plain ∧ s'.autoIncrement = true := by
  have hcols : ∃ columns, toCatalogColumns schema.columns = .ok columns ∧
      s = catalogSchema schema.name columns := by
    unfold toCatalogSchema at h
    split at h
    · cases h
    · rcases hc : toCatalogColumns schema.columns with e | columns <;> rw [hc] at h
      · cases h
      · dsimp only at h
        split at h <;> cases h
        exact ⟨columns, rfl, rfl⟩
  obtain ⟨columns, hc, rfl⟩ := hcols
  rw [Schema.normalize] at hs
  obtain ⟨u, -, hs⟩ := Fallible.bind_eq_ok.mp hs
  split at hs
  · cases hs
  obtain ⟨columns', hcols', hs⟩ := Fallible.bind_eq_ok.mp hs
  have hplain := normalizeColumns_plain hcols' (toCatalogColumns_translated hc)
  obtain ⟨rfl, hvec, hfew⟩ := Catalog.checkCounts_eq_ok hs
  exact ⟨⟨rfl, rfl, fun c hc => (hplain.1 c hc).1, hplain.2, hvec, hfew⟩, rfl⟩

end Plain

/-- A call on a database, or a compaction of its engine. -/
inductive Event
  | ddl (op : Ddl)
  | op (op : Op)
  | createIndex (canceled : Bool) (name : Bytes) (spec : IndexSpec)
  | buildIndex (canceled : Bool) (name : Bytes)
  | dropIndex (canceled : Bool) (name idxName : Bytes)
  | compact (k : UInt64)

/-- What the handle of a collection says about it. -/
structure Describes (codecs : Codecs) (k : UInt64) (cc : Catalog.Collection)
    (c : Storage.Collection) : Prop where
  id : cc.id = k
  plain : cc.schema.Plain
  auto : cc.identity.auto = true
  colIDs : cc.colIDs = cc.schema.colIDs
  lowered : cc.storageDef = cc.schema.lower codecs k 0
  shape : c.shape = ⟨cc.storageDef.dims, cc.storageDef.codec, cc.storageDef.columns⟩

section Revises

variable {codecs : Codecs} {k : UInt64} {cc cc' : Catalog.Collection} {c c' : Storage.Collection}

/-- The second handle is the first one with another name or other identities. -/
def Revises (cc cc' : Catalog.Collection) : Prop :=
  ∃ name identity, identity.auto = cc.identity.auto ∧
    cc' = { cc with schema := { cc.schema with name }, identity }

theorem Revises.id_eq (h : Revises cc cc') : cc'.id = cc.id := by
  obtain ⟨_, _, -, rfl⟩ := h
  rfl

theorem revises_prepareID {supplied : Option Catalog.Id} {p : Catalog.Id}
    (h : cc.prepareID supplied = .ok (cc', p)) : Revises cc cc' := by
  rw [Catalog.Collection.prepareID] at h
  obtain ⟨⟨identity, q⟩, hid, h⟩ := Fallible.bind_eq_ok.mp h
  cases h
  refine ⟨cc.schema.name, identity, ?_, rfl⟩
  cases supplied with
  | none =>
    obtain ⟨-, -, rfl, -⟩ := Catalog.Identity.nextAuto_eq_ok hid
    rfl
  | some q =>
    obtain ⟨-, -, rfl, -⟩ := Catalog.Identity.prepareID_some_eq_ok hid
    cases q with
    | bigInt n =>
      rw [Catalog.Identity.reserveAuto]
      split <;> rfl
    | text | blob => rfl

theorem revises_noteDeleted (cc : Catalog.Collection) (p : Catalog.Id) :
    Revises cc (cc.noteDeleted p) :=
  ⟨cc.schema.name, cc.identity.markDeleted p, rfl, rfl⟩

theorem Describes.revise (h : Describes codecs k cc c) (hr : Revises cc cc')
    (hshape : c'.shape = c.shape) : Describes codecs k cc' c' := by
  obtain ⟨name, identity, hauto, rfl⟩ := hr
  exact ⟨h.id, ⟨h.plain.idKind, h.plain.mode, h.plain.columns, h.plain.names, h.plain.vector,
    h.plain.few⟩, hauto.trans h.auto, h.colIDs, h.lowered, hshape.trans h.shape⟩

end Revises

namespace DB

section Step

variable (codecs : Codecs) (builders : Builders)

def compact (db : DB) (k : UInt64) : DB :=
  match db.sys.step (.compact k) with
  | .error _ => db
  | .ok sys => { db with sys }

def step (db : DB) : Event → DB
  | .ddl op => (db.ddl codecs op).1
  | .op op => (db.act op).1
  | .createIndex canceled name spec => (db.createIndex builders canceled name spec).1
  | .buildIndex canceled name => (db.buildIndex builders canceled name).1
  | .dropIndex canceled name idxName => (db.dropIndex canceled name idxName).1
  | .compact k => db.compact k

/-- The numbers of collections have 64 bits and those of points 32; none of them wraps. -/
def Allowed (db : DB) : Event → Prop
  | .ddl (.create _ _) => db.cat.nextCID ≠ 0
  | .compact k => db.sys.Numbered (.compact k)
  | _ => True

inductive Reachable : DB → Prop
  | new (readOnly : Bool) : Reachable { readOnly }
  | step {db : DB} {ev : Event} : Reachable db → db.Allowed ev →
      Reachable (db.step codecs builders ev)

/-- The engine is in a reachable state, its collections are numbered below the next number, and
every handle describes one of them. -/
structure Inv (db : DB) : Prop where
  sys : db.sys.Reachable
  idle : db.sys.committing = none
  fresh : db.cat.nextCID ≠ 0 →
    ∀ k, (db.sys.engine.colls k).isSome → k.toNat < db.cat.nextCID.toNat
  handles : ∀ k cc, db.cat.collections k = some cc →
    ∃ c, db.sys.engine.colls k = some c ∧ Describes codecs k cc c
  opened : ∀ name cs, db.colls name = some cs → (db.cat.collections cs.collID).isSome

end Step

section Inv

variable {codecs : Codecs} {builders : Builders} {db : DB} {k : UInt64}
  {cc cc' : Catalog.Collection} {name : Bytes} {s : Storage.Sys}

section

variable (h : db.Inv codecs)
include h

theorem Inv.withSys (hs : s.Reachable) (hidle : s.committing = none)
    (hshape : ∀ k, (s.engine.colls k).map Storage.Collection.shape =
      (db.sys.engine.colls k).map Storage.Collection.shape) : Inv codecs { db with sys := s } where
  sys := hs
  idle := hidle
  fresh hnext k hk := by
    refine h.fresh hnext k ?_
    rw [← Option.isSome_map, ← hshape k, Option.isSome_map]
    exact hk
  handles k cc hcc := by
    obtain ⟨c, hc, hd⟩ := h.handles k cc hcc
    have hk := hshape k
    rw [hc, Option.map_some] at hk
    obtain ⟨c', hc', heq⟩ := Option.map_eq_some_iff.mp hk
    exact ⟨c', hc', hd.id, hd.plain, hd.auto, hd.colIDs, hd.lowered, heq.trans hd.shape⟩
  opened := h.opened

theorem Inv.withColls {colls : Bytes → Option CollState}
    (hopen : ∀ name cs, colls name = some cs → (db.cat.collections cs.collID).isSome) :
    Inv codecs { db with colls } :=
  ⟨h.sys, h.idle, h.fresh, h.handles, hopen⟩

theorem Inv.setColl {cs : Option CollState}
    (hcs : ∀ c ∈ cs, (db.cat.collections c.collID).isSome) (name : Bytes) :
    Inv codecs { db with colls := Function.update db.colls name cs } := by
  refine h.withColls fun name' cs' hcs' => ?_
  rw [Function.update_apply] at hcs'
  split at hcs'
  · exact hcs cs' hcs'
  · exact h.opened name' cs' hcs'

theorem Inv.withHandle (hcc : db.cat.collections k = some cc) (hr : Revises cc cc') :
    Inv codecs { db with
      cat := { db.cat with collections := Function.update db.cat.collections k (some cc') } } where
  sys := h.sys
  idle := h.idle
  fresh := h.fresh
  handles k' cc₁ hcc₁ := by
    dsimp only at hcc₁
    rw [Function.update_apply] at hcc₁
    split at hcc₁
    · cases hcc₁
      subst_vars
      obtain ⟨c, hc, hd⟩ := h.handles _ cc hcc
      exact ⟨c, hc, hd.revise hr rfl⟩
    · exact h.handles k' cc₁ hcc₁
  opened name cs hcs := by
    dsimp only
    rw [Function.update_apply]
    split
    · rfl
    · exact h.opened name cs hcs

theorem Inv.sysStep (ev : Storage.Event) (hn : db.sys.Numbered ev)
    (hev : ∀ d, ev ≠ .create d) (hs : db.sys.step ev = .ok s)
    (hidle : s.committing = none) : Inv codecs { db with sys := s } :=
  h.withSys (h.sys.step hn hs) hidle (Storage.Sys.step_shape h.sys.inv hev hs)

theorem Inv.createCollection (hnext : db.cat.nextCID ≠ 0) (canceled : Bool)
    (schema : CollectionSchema) : Inv codecs (db.createCollection codecs canceled schema).1 := by
  have hf : db.Fresh db.cat.nextCID.toNat := ⟨h.fresh hnext, le_refl _⟩
  by_cases hdue : db.guard canceled = .ok () ∧
      (Admissible schema ∧ db.colls schema.name = none) ∧ db.cat.byName schema.name = none
  case neg =>
    rw [(createCollection_refused hdue).1]
    exact h
  obtain ⟨hg, ⟨⟨s, s', hs, hs'⟩, hc⟩, hb⟩ := hdue
  rw [createCollection_ok hf hg hc hs hs' hb]
  have hcreated := @Fresh.createCollection codecs _ _ hf _ _ hs'
  refine ⟨?_, h.idle, fun hnext' k hk => ?_, fun k cc hcc => ?_, fun name cs hcs => ?_⟩
  · refine @Storage.Sys.Reachable.step _ _ (.create (s'.lower codecs db.cat.nextCID 0)) h.sys
      trivial ?_
    rw [Storage.Sys.step, hcreated]
  · dsimp only [Catalog.Registry.register] at hk hnext' ⊢
    have hsucc : (db.cat.nextCID + 1).toNat = db.cat.nextCID.toNat + 1 := by
      rw [UInt64.toNat_add]
      have hlt := db.cat.nextCID.toNat_lt
      have hne : (db.cat.nextCID + 1).toNat ≠ 0 := fun h0 => hnext' (UInt64.toNat_inj.mp h0)
      rw [UInt64.toNat_add] at hne
      have hone : (1 : UInt64).toNat = 1 := rfl
      omega
    rw [hsucc]
    rw [Function.update_apply] at hk
    split at hk
    · subst_vars
      exact Nat.lt_succ_self _
    · exact Nat.lt_succ_of_lt (h.fresh hnext k hk)
  · dsimp only [Catalog.Registry.register] at hcc ⊢
    rw [Function.update_apply] at hcc ⊢
    split at hcc
    · cases hcc
      rw [if_pos ‹_›]
      subst_vars
      obtain ⟨hplain, hauto⟩ := plain_of_normalize hs hs'
      exact ⟨_, rfl, rfl, hplain, hauto, rfl, rfl, rfl⟩
    · rw [if_neg ‹_›]
      exact h.handles k cc hcc
  · dsimp only [Catalog.Registry.register] at hcs ⊢
    rw [Function.update_apply] at hcs ⊢
    split at hcs
    · cases hcs
      rw [if_pos rfl]
      rfl
    · split
      · rfl
      · exact h.opened name cs hcs

theorem Inv.renameCollection (canceled : Bool) (oldName newName : Bytes) :
    Inv codecs (db.renameCollection canceled oldName newName).1 := by
  rw [DB.renameCollection]
  rcases db.guard canceled with e | u
  · exact h
  rcases ho : db.colls oldName with _ | cs
  · exact h
  rcases hn : db.colls newName with _ | cs'
  case some => exact h
  obtain ⟨cc, hcc⟩ := Option.isSome_iff_exists.mp (h.opened oldName cs ho)
  simp only [hcc, Option.map_some]
  refine (h.withHandle hcc ⟨newName, cc.identity, rfl, rfl⟩).withColls fun name cs' hcs' => ?_
  dsimp only
  rw [Function.update_apply]
  split
  · rfl
  · rw [Function.update_apply] at hcs'
    split at hcs'
    · cases hcs'
      exact absurd rfl ‹_›
    · rw [Function.update_apply] at hcs'
      split at hcs'
      · cases hcs'
      · exact h.opened name cs' hcs'

theorem Inv.dropCollection (canceled : Bool) (name : Bytes) :
    Inv codecs (db.dropCollection canceled name).1 := by
  rw [DB.dropCollection]
  rcases db.guard canceled with e | u
  · exact h
  rcases hcs : db.colls name with _ | cs
  · exact h
  rw [Catalog.Registry.dropCollection]
  rcases db.cat.byName name with _ | cid
  · exact h.setColl (by simpa using h.opened name cs hcs) name
  · have h := @Inv.setColl _ _ h none (by simp) name
    exact ⟨h.sys, h.idle, h.fresh, h.handles, h.opened⟩

theorem Inv.ddl {op : Ddl} (ha : db.Allowed (.ddl op)) : Inv codecs (db.ddl codecs op).1 := by
  cases op with
  | create canceled schema => exact h.createCollection ha canceled schema
  | rename canceled oldName newName => exact h.renameCollection canceled oldName newName
  | drop canceled name => exact h.dropCollection canceled name

end

theorem writeOne_fst (t : Storage.Txn) (cc : Catalog.Collection) (p : Point) (upsert : Bool)
    (amb : Ambient) : (db.writeOne t cc p upsert amb).1 = db ∨
      ∃ cc' id, cc.prepareID (suppliedID p.id) = .ok (cc', id) ∧
        ((db.writeOne t cc p upsert amb).1 = db.setHandle cc' ∨
          ∃ vec row, (db.writeOne t cc p upsert amb).1 = ((db.setHandle cc').callEngine t cc'.id
            (writeCall upsert amb.order id.engineID vec row)).1) := by
  rw [DB.writeOne]
  rcases denseFor cc p with e | ⟨col, dense⟩
  · exact .inl rfl
  dsimp only
  rcases cc.validateVector col dense with e | u
  · exact .inl rfl
  rcases cc.prepareID (suppliedID p.id) with e | ⟨cc', id⟩
  · exact .inl rfl
  refine .inr ⟨cc', id, rfl, ?_⟩
  dsimp only
  rcases cc'.lowerMeta _ amb.now with e | row
  · exact .inl rfl
  · refine .inr ⟨dense, rowOf row, ?_⟩
    dsimp only
    rcases (db.setHandle cc').callEngine t cc'.id _ with ⟨db', e | _⟩ <;> rfl

theorem handle_eq_ok (h : db.handle name = .ok cc) :
    db.closed = false ∧ ∃ cs, db.colls name = some cs ∧ db.cat.collections cs.collID = some cc := by
  unfold DB.handle DB.state at h
  rcases hclosed : db.closed <;> rw [hclosed] at h
  case true => cases h
  rcases hcs : db.colls name with _ | cs <;> rw [hcs] at h
  · cases h
  · simp only [Bool.false_eq_true, if_false] at h
    rcases hcc : db.cat.collections cs.collID with _ | cc' <;> rw [hcc] at h <;> cases h
    exact ⟨rfl, cs, rfl, hcc⟩

theorem Inv.handle (h : db.Inv codecs) (hn : db.handle name = .ok cc) :
    db.cat.collections cc.id = some cc ∧
      ∃ c, db.sys.engine.colls cc.id = some c ∧ Describes codecs cc.id cc c := by
  obtain ⟨-, cs, -, hcc⟩ := handle_eq_ok hn
  obtain ⟨c, hc, hd⟩ := h.handles _ _ hcc
  rw [← hd.id] at hcc hc
  exact ⟨hcc, c, hc, hd.id ▸ hd⟩

theorem requireWrite_eq_ok {txn : TxnRef} {t : Storage.Txn}
    (h : db.requireWrite txn name = .ok (t, cc)) :
    txn = .writer ∧ db.sys.writer = some t ∧ db.handle name = .ok cc := by
  cases txn with
  | none | reader => cases h
  | writer =>
    unfold DB.requireWrite at h
    rcases ht : db.sys.writer with _ | t' <;> rw [ht] at h
    · cases h
    · rcases hn : db.handle name with e | cc' <;> rw [hn] at h <;> cases h
      exact ⟨rfl, rfl, rfl⟩

theorem callEngine_eq (t : Storage.Txn) (k : UInt64) (w : Storage.Write) : db.callEngine t k w =
      ({ db with sys := { db.sys with
          engine := (db.sys.engine.call t k w).1, writer := some (db.sys.engine.call t k w).2.1 } },
        (db.sys.engine.call t k w).2.2) := rfl

theorem Inv.callEngine (h : db.Inv codecs) {t : Storage.Txn} (ht : db.sys.writer = some t)
    (k : UInt64) (w : Storage.Write) : Inv codecs (db.callEngine t k w).1 := by
  have hstep : db.sys.step (.call k w) = .ok (db.callEngine t k w).1.sys := by
    rw [callEngine_eq]
    simp only [Storage.Sys.step, ht, h.idle]
  exact h.sysStep (.call k w) trivial (fun _ h => by cases h) hstep h.idle

/-- What a call on points can do to a database. -/
inductive Moves (db : DB) : Op → DB → Prop
  | idle {op : Op} : Moves db op db
  | prepare {txn name p upsert amb cc cc' id} (hn : db.handle name = .ok cc)
      (hid : cc.prepareID (suppliedID p.id) = .ok (cc', id)) :
      Moves db (.write txn name p upsert amb) (db.setHandle cc')
  | write {txn name p upsert amb t cc cc' id vec row} (ht : db.sys.writer = some t)
      (hn : db.handle name = .ok cc) (hid : cc.prepareID (suppliedID p.id) = .ok (cc', id)) :
      Moves db (.write txn name p upsert amb)
        ((db.setHandle cc').callEngine t cc'.id (writeCall upsert amb.order id.engineID vec row)).1
  | miss {txn name id t cc} (ht : db.sys.writer = some t) (hn : db.handle name = .ok cc) :
      Moves db (.delete txn name id) (db.callEngine t cc.id (.delete (enginePID id))).1
  | delete {txn name id t cc} (ht : db.sys.writer = some t) (hn : db.handle name = .ok cc)
      (hthere : (db.callEngine t cc.id (.delete (enginePID id))).2 = none) :
      Moves db (.delete txn name id) ((db.callEngine t cc.id (.delete (enginePID id))).1.setHandle
        (cc.noteDeleted (.bigInt id.n)))
  | begin (ht : db.sys.writer = none) : Moves db .begin { db with
      sys := { engine := db.sys.engine.begin.1, writer := some db.sys.engine.begin.2 } }
  | commit {t} (ht : db.sys.writer = some t) :
      Moves db .commit { db with sys := { engine := db.sys.engine.commit t } }
  | rollback {t} (ht : db.sys.writer = some t) :
      Moves db .rollback { db with sys := { engine := db.sys.engine.abort t } }

theorem act_moves (db : DB) (op : Op) : Moves db op (db.act op).1 := by
  cases op with
  | write txn name p upsert amb =>
    dsimp only [DB.act, DB.write]
    rcases hr : db.requireWrite txn name with e | ⟨t, cc⟩
    · exact .idle
    obtain ⟨-, ht, hn⟩ := requireWrite_eq_ok hr
    rcases db.writeOne_fst t cc p upsert amb with heq | ⟨cc', id, hid, heq | ⟨vec, row, heq⟩⟩ <;>
      rw [heq]
    · exact .idle
    · exact .prepare hn hid
    · exact .write ht hn hid
  | delete txn name id =>
    dsimp only [DB.act, DB.delete]
    rcases hr : db.requireWrite txn name with e | ⟨t, cc⟩
    · exact .idle
    obtain ⟨-, ht, hn⟩ := requireWrite_eq_ok hr
    have hmiss : Moves db (.delete txn name id) _ := .miss ht hn
    have hdelete := @Moves.delete db txn name id t cc ht hn
    dsimp only
    rcases hc : db.callEngine t cc.id (.delete (enginePID id)) with ⟨db', e | _⟩ <;>
      rw [hc] at hmiss hdelete
    · exact hdelete rfl
    · exact hmiss
  | get readSeq name id => exact .idle
  | begin =>
    dsimp only [DB.act, DB.begin]
    split
    · exact .idle
    split
    · exact .idle
    rcases ht : db.sys.writer with _ | t
    · exact .begin ht
    · exact .idle
  | commit | rollback =>
    dsimp only [DB.act, DB.commit, DB.rollback]
    rcases ht : db.sys.writer with _ | t
    · exact .idle
    · constructor
      exact ht

theorem Inv.setHandle (h : db.Inv codecs) (hn : db.handle name = .ok cc)
    (hr : Revises cc cc') : Inv codecs (db.setHandle cc') := by
  rw [DB.setHandle, hr.id_eq]
  exact h.withHandle (h.handle hn).1 hr

theorem Inv.act (h : db.Inv codecs) (op : Op) : Inv codecs (db.act op).1 := by
  have hmove := db.act_moves op
  generalize (db.act op).1 = db' at hmove
  cases hmove with
  | idle => exact h
  | prepare hn hid => exact h.setHandle hn (revises_prepareID hid)
  | write ht hn hid => exact (h.setHandle hn (revises_prepareID hid)).callEngine ht _ _
  | miss ht hn => exact h.callEngine ht _ _
  | delete ht hn =>
    exact (h.callEngine ht _ _).setHandle hn (revises_noteDeleted _ _)
  | begin ht =>
    refine h.sysStep .begin trivial (fun _ h => by cases h) ?_ rfl
    simp only [Storage.Sys.step, ht]
  | commit ht =>
    obtain ⟨hr, hshape⟩ := h.sys.commit ht h.idle
    exact h.withSys hr rfl hshape
  | rollback ht =>
    refine h.sysStep .abort trivial (fun _ h => by cases h) ?_ rfl
    simp only [Storage.Sys.step, ht, h.idle]

theorem buildIndexLocked_collID (engine : Storage.Engine) (cc : Catalog.Collection)
    (cs : CollState) : (buildIndexLocked builders engine cc cs).1.collID = cs.collID := by
  have hconfig : ∀ cs index config, (withConfig cs index config).collID = cs.collID := by
    intro cs index config
    cases config <;> rfl
  rw [buildIndexLocked]
  split
  · split <;> rfl
  · split
    · rfl
    · split
      · exact hconfig _ _ _
      · split <;> exact hconfig _ _ _

theorem buildInto_fst (name : Bytes) (cc : Catalog.Collection) (cs : CollState) :
    (db.buildInto builders name cc cs).1 = { db with
      colls := Function.update db.colls name
        (some (buildIndexLocked builders db.sys.engine cc cs).1) } := rfl

theorem Inv.buildInto (h : db.Inv codecs) {cs : CollState}
    (hcs : (db.cat.collections cs.collID).isSome) (cc : Catalog.Collection) :
    Inv codecs (db.buildInto builders name cc cs).1 := by
  rw [buildInto_fst]
  exact h.setColl (by simpa [buildIndexLocked_collID] using hcs) name

theorem eq_zero_or_one {k : UInt64} (h : k.toNat < 2) : k = 0 ∨ k = 1 := by
  rw [← UInt64.toNat_inj, ← UInt64.toNat_inj]
  exact Nat.le_one_iff_eq_zero_or_eq_one.mp (Nat.le_of_lt_succ h)

theorem Inv.step (h : db.Inv codecs) {ev : Event} (ha : db.Allowed ev) :
    Inv codecs (db.step codecs builders ev) := by
  cases ev with
  | ddl op => exact h.ddl ha
  | op op => exact h.act op
  | createIndex canceled name spec =>
    rw [DB.step, DB.createIndex]
    rcases db.guard canceled with e | u
    · exact h
    rcases hcs : db.colls name with _ | cs
    · exact h
    have hopen := h.opened name cs hcs
    dsimp only
    rcases db.cat.collections cs.collID with _ | cc
    · exact h
    dsimp only
    generalize (if spec.column = [] then vectorColumn cc else spec.column) = column
    split
    · refine h.buildInto ?_ cc
      exact hopen
    · exact h
  | buildIndex canceled name =>
    rw [DB.step, DB.buildIndex]
    split
    · exact h
    split
    · exact h
    rcases hcs : db.colls name with _ | cs
    · exact h
    have hopen := h.opened name cs hcs
    dsimp only
    rcases db.cat.collections cs.collID with _ | cc
    · exact h
    dsimp only
    split
    · exact h
    · exact h.buildInto hopen cc
  | dropIndex canceled name idxName =>
    rw [DB.step, DB.dropIndex]
    rcases db.guard canceled with e | u
    · exact h
    rcases hcs : db.colls name with _ | cs
    · exact h
    have hopen := h.opened name cs hcs
    dsimp only
    split
    · exact h
    · exact h.setColl (by simpa using hopen) name
  | compact k =>
    rw [DB.step, DB.compact]
    rcases hs : db.sys.step (.compact k) with e | s
    · exact h
    · refine h.sysStep (.compact k) ha (fun _ h => by cases h) hs ?_
      cases Storage.Sys.takes_of_step hs
      exact h.idle

theorem Reachable.inv (h : Reachable codecs builders db) : db.Inv codecs := by
  induction h with
  | new readOnly =>
    refine ⟨Storage.Sys.reachable_new, rfl, fun _ _ hk => ?_, fun _ _ hcc => ?_, fun _ _ hcs => ?_⟩
    · cases hk
    · cases hcc
    · cases hcs
  | step _ ha ih => exact ih.step ha

end Inv

section Runs

def noBuilders : Builders := ⟨fun _ => .error .badParams, fun _ _ => .error .badParams⟩

def vectorPoint (n : UInt64) : Point := { id := { n }, vectors := [(ascii "v", some [0])] }

def onePoint : DB :=
  ((createCollection noCodecs {} false (vectorSchema (ascii "a"))).1.acts
    [.begin, .write .writer (ascii "a") (vectorPoint 5) false {}, .commit]).1

theorem onePoint_reachable : Reachable noCodecs noBuilders onePoint := by
  have hcreate := @Reachable.step noCodecs noBuilders _
    (.ddl (.create false (vectorSchema (ascii "a")))) (.new false) (by simp [Allowed])
  have hbegin := @Reachable.step noCodecs noBuilders _ (.op .begin) hcreate trivial
  have hwrite := @Reachable.step noCodecs noBuilders _
    (.op (.write .writer (ascii "a") (vectorPoint 5) false {})) hbegin trivial
  exact @Reachable.step noCodecs noBuilders _ (.op .commit) hwrite trivial

/-- In every state that a database comes to, an open collection is in the catalog, and the engine
has a well-formed collection of its number with the columns that its schema is lowered to. -/
theorem open_collection_stored {codecs : Codecs} {builders : Builders} {db : DB}
    (h : Reachable codecs builders db) {name : Bytes} {cs : CollState}
    (hcs : db.colls name = some cs) : ∃ cc c, db.cat.collections cs.collID = some cc ∧
      db.sys.engine.colls cs.collID = some c ∧ c.WF ∧ cc.schema.Plain ∧
      let d := cc.schema.lower codecs cs.collID 0
      c.shape = ⟨d.dims, d.codec, d.columns⟩ := by
  obtain ⟨cc, hcc⟩ := Option.isSome_iff_exists.mp (h.inv.opened name cs hcs)
  obtain ⟨c, hc, hd⟩ := h.inv.handles _ cc hcc
  exact ⟨cc, c, hcc, hc, h.inv.sys.inv.wf hc, hd.plain, hd.lowered ▸ hd.shape⟩

theorem open_collection_stored_one : ∃ cs cc, onePoint.colls (ascii "a") = some cs ∧
    onePoint.cat.collections cs.collID = some cc ∧ cc.schema.Plain := by
  obtain ⟨cc, -, hcc, -, -, hp, -⟩ := open_collection_stored onePoint_reachable
    (show onePoint.colls (ascii "a") = some _ from rfl)
  exact ⟨_, cc, rfl, hcc, hp⟩

end Runs

end DB

end VecDb.Facade

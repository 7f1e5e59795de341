import VecDb.Facade.History
import VecDb.Storage.Contents
import VecDb.Storage.Room

/-! # The tables behind the points

A call on points makes at most one call on the engine, which changes the table of one
collection. What is read of a point is what is in the table, as long as positions have
room for the slots.
-/

namespace VecDb.Facade

open Function Catalog Storage.Engine

open Catalog (Codecs)

theorem suppliedID_ne_zero (id : PointID) : suppliedID id ≠ some (.bigInt 0) := by
  rw [suppliedID]
  split
  · exact nofun
  · split
    · intro h
      have hn : id.n = 0 := Id.bigInt.inj (Option.some.inj h)
      contradiction
    · exact nofun

theorem writeCall_whole (upsert : Bool) (order : Storage.RangeOrder) (id : Storage.PointID)
    (vec : Storage.Vec) (row : Storage.MetaRow) : (DB.writeCall upsert order id vec row).Whole := by
  rw [DB.writeCall]
  split <;> trivial

theorem writeCall_id (upsert : Bool) (order : Storage.RangeOrder) (id : Storage.PointID)
    (vec : Storage.Vec) (row : Storage.MetaRow) : (DB.writeCall upsert order id vec row).id = id := by
  rw [DB.writeCall]
  split <;> rfl

/-- The engine's id of the point that a write is about. -/
def target (cc : Collection) (id : PointID) : Storage.PointID :=
  match suppliedID id with
  | some p => p.engineID
  | none => cc.identity.seq

theorem target_of_prepareID {cc cc' : Collection} {id : PointID} {p : Id}
    (h : cc.prepareID (suppliedID id) = .ok (cc', p)) : p.engineID = target cc id := by
  rw [Collection.prepareID] at h
  obtain ⟨⟨identity, q⟩, hid, h⟩ := Fallible.bind_eq_ok.mp h
  cases h
  rw [target]
  cases hs : suppliedID id with
  | none =>
    rw [hs] at hid
    obtain ⟨-, -, -, rfl⟩ := Identity.nextAuto_eq_ok hid
    rfl
  | some q =>
    rw [hs] at hid
    obtain ⟨-, -, -, rfl⟩ := Identity.prepareID_some_eq_ok hid
    rfl

def pointOf (cc : Collection) (id : Storage.PointID) (e : Storage.Entry) : Point :=
  pointFromRecord cc ⟨0, id, e.vec, e.project (allMetaCols cc)⟩

namespace DB

variable {db : DB} {n : ℕ} {cc : Collection} {t : Storage.Txn} {w : Storage.Write}
  {c : Storage.Collection} {name : Bytes} {k : UInt64}

def log (db : DB) (k : UInt64) : List Storage.Undo :=
  match db.sys.writer with
  | none => []
  | some t => t.log k

theorem log_callEngine {db : DB}
    (ht : db.sys.writer = some t) (hc : db.sys.engine.colls k = some c) (k' : UInt64) :
    (db.callEngine t k w).1.log k' =
      (if k' = k then (w.run { coll := c }).1.undo else []) ++ db.log k' := by
  have hlog := (@Storage.Engine.call_some db.sys.engine t k c w hc).2.1 k'
  rw [callEngine_eq, DB.log, DB.log, ht]
  exact hlog

theorem visibleIn_snapshot (db : DB) (readSeq : Option ℕ) (ver : ℕ) :
    Storage.visibleIn (some (db.snapshot readSeq)) ver = true := by
  cases readSeq <;> rfl

/-- All positions of a database have room in 32 bits. -/
def InGrid (db : DB) : Prop := ∀ k c, db.sys.engine.colls k = some c → c.InGrid

theorem get_eq {db : DB} {log : List Storage.Undo}
    {T : Storage.Table} (hn : db.handle name = .ok cc) (hc : db.sys.engine.colls cc.id = some c)
    (hT : c.Stores log T) (hg : c.InGrid) (readSeq : Option ℕ) (id : PointID) :
    db.get readSeq name id =
      match T.now (enginePID id) with
      | none => .error .notFound
      | some e => .ok (pointOf cc (enginePID id) e) := by
  unfold DB.get
  rw [hn]
  dsimp only [Storage.Engine.lookupID, Storage.Engine.fetch]
  rw [hc]
  dsimp only
  rcases hnow : T.now (enginePID id) with _ | e
  · rw [hT.lookupID_none hnow]
  · obtain ⟨p, hp, hfetch⟩ := hT.fetch hg hnow
    rw [hp]
    dsimp only
    rw [hfetch _ _ (visibleIn_snapshot db readSeq)]
    rfl

/-- Every collection has positions for some more slots. -/
def Room (db : DB) (n : ℕ) : Prop :=
  ∀ k c, db.sys.engine.colls k = some c → ∃ m, c.Within m ∧ m + n ≤ 2 ^ 32

theorem Room.inGrid (h : db.Room n) : db.InGrid := by
  intro k c hc
  obtain ⟨m, hm, hle⟩ := h k c hc
  exact hm.inGrid (by omega)

/-- The call on a collection of the engine that a call on points may make. -/
def Calls (db : DB) (k : UInt64) (w : Storage.Write) : Op → Prop
  | .write _ name p upsert amb => ∃ cc vec row, db.handle name = .ok cc ∧ cc.id = k ∧
      w = writeCall upsert amb.order (target cc p.id) vec row
  | .delete _ name id => ∃ cc, db.handle name = .ok cc ∧ cc.id = k ∧ w = .delete (enginePID id)
  | _ => False

theorem Calls.whole {w : Storage.Write} {op : Op} (h : db.Calls k w op) : w.Whole := by
  cases op with
  | write txn name p upsert amb =>
    obtain ⟨cc, vec, row, -, -, rfl⟩ := h
    exact writeCall_whole ..
  | delete txn name id =>
    obtain ⟨cc, -, -, rfl⟩ := h
    trivial
  | get | begin | commit | rollback => exact h.elim

theorem callEngine_log {t : Storage.Txn} (ht : db.sys.writer = some t) (k' k : UInt64)
    (w : Storage.Write) : ((db.callEngine t k' w).1.sys.engine.colls k = db.sys.engine.colls k ∧
        (db.callEngine t k' w).1.log k = db.log k) ∨ ∃ c, k' = k ∧ db.sys.engine.colls k = some c ∧
        (db.callEngine t k' w).1.sys.engine.colls k = some (w.run { coll := c }).1.coll ∧
        (db.callEngine t k' w).1.log k = (w.run { coll := c }).1.undo ++ db.log k := by
  rcases hc : db.sys.engine.colls k' with _ | c
  · refine .inl ?_
    rw [callEngine_eq, call_none hc, DB.log, DB.log, ht]
    exact ⟨rfl, rfl⟩
  · rw [log_callEngine ht hc, callEngine_eq]
    rw [(@Storage.Engine.call_some db.sys.engine t k' c w hc).1, update_apply]
    by_cases hk : k = k'
    · subst hk
      rw [if_pos rfl, if_pos rfl]
      exact .inr ⟨c, rfl, hc, rfl, rfl⟩
    · rw [if_neg hk, if_neg hk]
      exact .inl ⟨rfl, rfl⟩

/-- What a call on points does to a collection of the engine and to its log. -/
theorem act_engine (db : DB) (op : Op) (k : UInt64) :
    ((db.act op).1.sys.engine.colls k = db.sys.engine.colls k ∧
        (db.sys.engine.colls k ≠ none → (db.act op).1.log k = db.log k)) ∨
      ∃ c, db.sys.engine.colls k = some c ∧ ((∃ w, db.Calls k w op ∧
            (db.act op).1.sys.engine.colls k = some (w.run { coll := c }).1.coll ∧
            (db.act op).1.log k = (w.run { coll := c }).1.undo ++ db.log k) ∨
          (∃ seq slots, op = .commit ∧
            (db.act op).1.sys.engine.colls k = some (c.stampAll seq slots) ∧
            (db.act op).1.log k = []) ∨
          (op = .rollback ∧ (db.act op).1.sys.engine.colls k = some (c.undoAll (db.log k)) ∧
            (db.act op).1.log k = [])) := by
  have hmove := db.act_moves op
  generalize (db.act op).1 = db' at hmove
  cases hmove with
  | idle | prepare => exact .inl ⟨rfl, fun _ => rfl⟩
  | @write txn name p upsert amb t cc cc' id vec row ht hn hid =>
    rcases @callEngine_log (db.setHandle cc') t ht cc'.id k
      (writeCall upsert amb.order id.engineID vec row) with hsame | ⟨c, hk, hc, hcoll, hlog⟩
    · exact .inl ⟨hsame.1, fun _ => hsame.2⟩
    · rw [(revises_prepareID hid).id_eq] at hk
      refine .inr ⟨c, hc, .inl ⟨_, ⟨cc, vec, row, hn, hk, ?_⟩, hcoll, hlog⟩⟩
      rw [target_of_prepareID hid]
  | @miss txn name id t cc ht hn | @delete txn name id t cc ht hn =>
    rcases @callEngine_log db t ht cc.id k (.delete (enginePID id)) with
      hsame | ⟨c, hk, hc, hcoll, hlog⟩
    · exact .inl ⟨hsame.1, fun _ => hsame.2⟩
    · exact .inr ⟨c, hc, .inl ⟨_, ⟨cc, hn, hk, rfl⟩, hcoll, hlog⟩⟩
  | begin ht =>
    rw [show db.log k = [] by rw [DB.log, ht]]
    exact .inl ⟨rfl, fun _ => rfl⟩
  | commit ht =>
    dsimp only [Storage.Engine.commit]
    rw [publish_colls]
    dsimp only [Storage.Engine.drawSeq]
    rcases hc : db.sys.engine.colls k with _ | c
    · exact .inl ⟨rfl, fun h => absurd rfl h⟩
    · exact .inr ⟨c, rfl, .inr (.inl ⟨_, _, rfl, rfl, rfl⟩)⟩
  | rollback ht =>
    rw [abort_colls]
    rcases hc : db.sys.engine.colls k with _ | c
    · exact .inl ⟨rfl, fun h => absurd rfl h⟩
    · refine .inr ⟨c, rfl, .inr (.inr ⟨rfl, ?_, rfl⟩)⟩
      rw [DB.log, ht]
      rfl

theorem Room.act (h : db.Room (n + 1)) (hwf : ∀ k c, db.sys.engine.colls k = some c → c.WF)
    (op : Op) : (db.act op).1.Room n := by
  intro k c' hc'
  rcases db.act_engine op k with ⟨heq, -⟩ | ⟨c, hc, heq⟩
  · rw [heq] at hc'
    obtain ⟨m, hm, hle⟩ := h k c' hc'
    exact ⟨m, hm, by omega⟩
  obtain ⟨m, hm, hle⟩ := h k c hc
  rcases heq with ⟨w, -, heq, -⟩ | ⟨seq, slots, -, heq, -⟩ | ⟨-, heq, -⟩ <;>
    cases Option.some.inj (heq.symm.trans hc')
  · exact ⟨m + 1, Storage.Write.run_within (hwf k c hc) hm w, by omega⟩
  · exact ⟨m, hm.stampAll seq slots, by omega⟩
  · exact ⟨m, hm.undoAll _, by omega⟩

/-- A collection of the engine and its table under the writing transaction. -/
structure Holds (db : DB) (k : UInt64) (c : Storage.Collection) (T : Storage.Table) : Prop where
  coll : db.sys.engine.colls k = some c
  stores : c.Stores (db.log k) T

section Holds

variable {k : UInt64} {c : Storage.Collection} {T : Storage.Table}

theorem Inv.holds {codecs : Codecs} (h : db.Inv codecs) (hc : db.sys.engine.colls k = some c) :
    ∃ T, db.Holds k c T := by
  refine ⟨⟨c.shape, c.entry, (c.undoAll (db.log k)).entry,
    fun id => ∃ u ∈ db.log k, u.about = some id⟩, hc, ?_, rfl, rfl, rfl, fun _ => Iff.rfl⟩
  rw [DB.log]
  rcases ht : db.sys.writer with _ | t
  · exact ⟨c, .refl (h.sys.inv.wf hc)⟩
  · exact h.sys.inv.opened ht hc

theorem Holds.callEngine (h : db.Holds k c T) (ht : db.sys.writer = some t) (hw : w.Whole) :
    ∃ c', (db.callEngine t k w).1.Holds k c' (T.call w).1 ∧
      (db.callEngine t k w).2 = (T.call w).2 ∧ (c.Owned → c'.Owned) := by
  have hcall := h.stores.call hw
  obtain ⟨hcolls, -, -, -, herr⟩ := @Storage.Engine.call_some db.sys.engine t k c w h.coll
  refine ⟨(w.run { coll := c }).1.coll, ⟨?_, ?_⟩, ?_,
    fun ho => Storage.Write.run_owned h.stores.wf ho w⟩
  · rw [callEngine_eq, hcolls, update_self]
  · rw [log_callEngine ht h.coll, if_pos rfl]
    exact hcall.1
  · rw [callEngine_eq, herr]
    exact hcall.2

theorem call_writeCall {upsert : Bool} {order : Storage.RangeOrder} {id : Storage.PointID}
    {vec : Storage.Vec} {row : Storage.MetaRow}
    (h : (T.call (writeCall upsert order id vec row)).2 = none) :
    (T.call (writeCall upsert order id vec row)).1.now =
      update T.now id (some (T.shape.entry vec row)) := by
  rw [writeCall] at h ⊢
  split at h
  · rw [if_pos ‹_›]
    exact Storage.Table.upsert_now h
  · rw [if_neg ‹_›]
    exact Storage.Table.insert_now h

/-- The outcomes of a call on points for the table of a collection. -/
inductive Turns (db : DB) (k : UInt64) (T : Storage.Table) (op : Op) : Storage.Table → Prop
  | same : Turns db k T op T
  | call {w : Storage.Write} : db.Calls k w op → Turns db k T op (T.call w).1
  | commit : op = .commit → Turns db k T op (T.settle T.now)
  | rollback : op = .rollback → Turns db k T op (T.settle T.base)

theorem Holds.act (h : db.Holds k c T) (op : Op) :
    ∃ c' T', (db.act op).1.Holds k c' T' ∧ db.Turns k T op T' ∧
      (c.Owned → op ≠ .rollback → c'.Owned) := by
  have hwf := h.stores.wf
  rcases db.act_engine op k with ⟨hcoll, hlog⟩ | ⟨c₁, hc, hact⟩
  · refine ⟨c, T, ⟨hcoll.trans h.coll, ?_⟩, .same, fun ho _ => ho⟩
    rw [hlog (by rw [h.coll]; exact nofun)]
    exact h.stores
  cases h.coll.symm.trans hc
  rcases hact with ⟨w, hw, hcoll, hlog⟩ | ⟨seq, slots, hop, hcoll, hlog⟩ | ⟨hop, hcoll, hlog⟩
  · refine ⟨_, _, ⟨hcoll, ?_⟩, .call hw, fun ho _ => Storage.Write.run_owned hwf ho w⟩
    rw [hlog]
    exact (h.stores.call hw.whole).1
  · refine ⟨_, _, ⟨hcoll, ?_⟩, .commit hop, fun ho _ => ho.stampAll seq slots⟩
    rw [hlog]
    exact h.stores.commit seq slots
  · refine ⟨_, _, ⟨hcoll, ?_⟩, .rollback hop, fun _ hne => absurd hop hne⟩
    rw [hlog]
    exact h.stores.abort

theorem scan_eq (hn : db.handle name = .ok cc) (h : db.Holds cc.id c T)
    (ho : c.Owned) (hg : c.InGrid) : ∃ ps, db.scan name = .ok ps ∧ (ps.map Point.id).Nodup ∧
      ∀ p, p ∈ ps ↔ ∃ id e, T.now id = some e ∧ p = pointOf cc id e := by
  have hc := h.stores.wf
  have hvis := visibleIn_snapshot db none
  have : Nonempty Storage.Entry := ⟨⟨[], fun _ => .null⟩⟩
  have hmem := fun x => @Storage.Collection.Owned.mem_scan c (some (db.snapshot none)) ho hc hg hvis x
  choose! idOf entryOf hentry hpos hvec hfetch using hmem
  refine ⟨(c.scanVectors (some (db.snapshot none))).map fun x => pointOf cc (idOf x) (entryOf x),
    ?_, ?_, fun p => ?_⟩
  · unfold DB.scan
    rw [hn]
    simp only [Storage.Engine.scanVectors, Storage.Engine.fetch, h.coll]
    rw [Fallible.mapM_eq_ok, List.forall₂_map_right_iff, List.forall₂_same]
    intro x hx
    rw [hfetch x hx]
    rfl
  · rw [List.map_map]
    refine List.Nodup.map_on (fun x hx y hy hxy => ho.scan_inj hc hg hx hy ?_)
      (.of_map _ (hg.scanVectors_nodup hc _))
    have hid : idOf x = idOf y := congrArg PointID.n hxy
    rw [hpos x hx, hpos y hy, hid]
  · rw [List.mem_map, ← h.stores.now]
    constructor
    · rintro ⟨x, hx, rfl⟩
      exact ⟨_, _, hentry x hx, rfl⟩
    · rintro ⟨id, e, he, rfl⟩
      obtain ⟨x, hx, hlookup⟩ := hc.exists_scan hg hvis he
      cases (hpos x hx).symm.trans hlookup
      cases (hentry x hx).symm.trans he
      exact ⟨x, hx, rfl⟩

end Holds

section Kept

variable {codecs : Codecs} {builders : Builders} {ev : Event}

theorem Inv.owned_act (h : db.Inv codecs) (ho : db.sys.Owned) {op : Op}
    (hop : op ≠ .rollback) : (db.act op).1.sys.Owned := by
  intro k c' hc'
  rcases hc : db.sys.engine.colls k with _ | c
  · rcases db.act_engine op k with ⟨heq, -⟩ | ⟨c, hc₁, -⟩
    · rw [heq, hc] at hc'
      cases hc'
    · cases hc.symm.trans hc₁
  · obtain ⟨T, hT⟩ := h.holds hc
    obtain ⟨c₁, T₁, hT₁, -, hown⟩ := hT.act op
    obtain rfl := Option.some.inj (hT₁.coll.symm.trans hc')
    exact hown (ho k c hc) hop

theorem Inv.owned_create (h : db.Inv codecs) (ho : db.sys.Owned) (hnext : db.cat.nextCID ≠ 0)
    (canceled : Bool) (schema : CollectionSchema) :
    (db.createCollection codecs canceled schema).1.sys.Owned := by
  have hf : db.Fresh db.cat.nextCID.toNat := ⟨h.fresh hnext, le_refl _⟩
  by_cases hdue : db.guard canceled = .ok () ∧
      (Admissible schema ∧ db.colls schema.name = none) ∧ db.cat.byName schema.name = none
  · obtain ⟨hg, ⟨⟨s, s', hs, hs'⟩, hc⟩, hb⟩ := hdue
    rw [createCollection_ok hf hg hc hs hs' hb]
    intro k c hk
    dsimp only at hk
    rw [update_apply] at hk
    split at hk
    · cases hk
      exact fun _ _ _ hl => nomatch hl.seg
    · exact ho k c hk
  · rwa [(createCollection_refused hdue).1]

def Nominal : Event → Prop
  | .ddl (.create _ _) | .op _ | .compact _ => False
  | _ => True

theorem Nominal.step_sys (h : Nominal ev) : (db.step codecs builders ev).sys = db.sys := by
  cases ev with
  | op op | compact k => exact h.elim
  | ddl op =>
    cases op with
    | create canceled schema => exact h.elim
    | rename | drop =>
      dsimp only [DB.step, DB.ddl, DB.renameCollection, DB.dropCollection]
      split
      · rfl
      · split
        · rfl
        · split <;> rfl
  | createIndex canceled name spec =>
    dsimp only [DB.step, DB.createIndex]
    split
    · rfl
    · split
      · rfl
      · split
        · rfl
        · generalize (if spec.column = [] then vectorColumn _ else spec.column) = column
          split <;> rfl
  | buildIndex canceled name =>
    dsimp only [DB.step, DB.buildIndex]
    split
    · rfl
    split
    · rfl
    split
    · rfl
    split
    · rfl
    split <;> rfl
  | dropIndex canceled name idxName =>
    dsimp only [DB.step, DB.dropIndex]
    split
    · rfl
    split
    · rfl
    split <;> rfl

theorem Inv.owned_step (h : db.Inv codecs) (ho : db.sys.Owned) (ha : db.Allowed ev)
    (hev : ev ≠ .op .rollback) : (db.step codecs builders ev).sys.Owned := by
  by_cases hn : Nominal ev
  · rwa [hn.step_sys]
  cases ev with
  | op op => exact h.owned_act ho fun hop => hev (by rw [hop])
  | compact k =>
    rw [DB.step, DB.compact]
    rcases hs : db.sys.step (.compact k) with e | s
    · exact ho
    · exact @Storage.Sys.Owned.step _ _ h.sys.inv ho (.compact k) ha (by intro h; cases h) hs
  | ddl op =>
    cases op with
    | create canceled schema => exact h.owned_create ho ha canceled schema
    | rename | drop => exact absurd trivial hn
  | createIndex | buildIndex | dropIndex => exact absurd trivial hn

/-- The states that a new database can come to without a rollback. -/
inductive Kept (codecs : Codecs) (builders : Builders) : DB → Prop
  | new (readOnly : Bool) : Kept codecs builders { readOnly }
  | step {db : DB} {ev : Event} : Kept codecs builders db → db.Allowed ev → ev ≠ .op .rollback →
      Kept codecs builders (db.step codecs builders ev)

theorem Kept.acts (h : Kept codecs builders db) {ops : List Op} (hops : ∀ op ∈ ops, op ≠ .rollback) :
    Kept codecs builders (db.acts ops).1 := by
  induction ops generalizing db with
  | nil => exact h
  | cons op ops ih =>
    rw [List.forall_mem_cons] at hops
    refine ih (@Kept.step _ _ _ (.op op) h trivial ?_) hops.2
    exact fun heq => hops.1 (Event.op.inj heq)

theorem Kept.reachable (h : Kept codecs builders db) : Reachable codecs builders db := by
  induction h with
  | new readOnly => exact .new readOnly
  | step _ ha _ ih => exact ih.step ha

theorem Kept.owned (h : Kept codecs builders db) : db.sys.Owned := by
  induction h with
  | new readOnly => exact fun _ _ hc => nomatch hc
  | step h ha hev ih => exact h.reachable.inv.owned_step ih ha hev

end Kept

end DB

end VecDb.Facade

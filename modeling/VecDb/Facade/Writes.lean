import VecDb.Facade.Cells
import VecDb.Facade.Rollback

/-! # Writes that are accepted

A write that is accepted puts its point in the table of its collection. The point stays as it is
while later calls are about others.
-/

namespace VecDb.Facade

open Storage Catalog

open Catalog (Codecs Schema valueFor loweredRow)

section Revises

variable {cc cc' cc'' : Catalog.Collection}

theorem Revises.refl (cc : Catalog.Collection) : Revises cc cc :=
  ⟨cc.schema.name, cc.identity, rfl, rfl⟩

theorem Revises.trans (h : Revises cc cc') (h' : Revises cc' cc'') : Revises cc cc'' := by
  obtain ⟨name, identity, hauto, rfl⟩ := h
  obtain ⟨name', identity', hauto', rfl⟩ := h'
  exact ⟨name', identity', hauto'.trans hauto, rfl⟩

theorem Revises.metaAt (h : Revises cc cc') {i : ℕ} {col : Catalog.ColumnDef} :
    cc'.schema.MetaAt i col ↔ cc.schema.MetaAt i col := by
  obtain ⟨_, _, -, rfl⟩ := h
  exact Iff.rfl

end Revises

/-- What a write of a point stores, beside the vector. -/
def storedRow (cc : Catalog.Collection) (p : Point) (now : Catalog.Value) : MetaRow :=
  rowOf (loweredRow cc.schema (p.metadata.map fun e => (e.1, e.2.catalogValue)) now)

namespace DB

variable {db db' : DB} {codecs : Codecs} {name : Bytes} {cc cc' : Catalog.Collection}
  {ops : List Op} {upsert : Bool} {amb : Ambient} {txn : TxnRef} {id : PointID} {p : Point}

structure Follows (db db' : DB) : Prop where
  closed : db'.closed = db.closed
  colls : db'.colls = db.colls
  handles : ∀ k, Option.Rel Revises (db.cat.collections k) (db'.cat.collections k)

theorem Follows.refl (db : DB) : Follows db db where
  closed := rfl
  colls := rfl
  handles k := by
    rcases db.cat.collections k with _ | cc
    · exact .none
    · exact .some (.refl cc)

theorem Follows.setHandle (h : Follows db db') (hcc : db'.cat.collections cc.id = some cc)
    (hr : Revises cc cc') : Follows db (db'.setHandle cc') where
  closed := h.closed
  colls := h.colls
  handles k := by
    dsimp only [DB.setHandle]
    rw [Function.update_apply]
    split
    case isFalse => exact h.handles k
    case isTrue hk =>
      have hk' := h.handles cc.id
      rw [hk, hr.id_eq]
      rcases h₀ : db.cat.collections cc.id with _ | cc₀ <;> rw [h₀, hcc] at hk' <;> cases hk'
      exact .some (Revises.trans ‹_› hr)

theorem Follows.handle (h : Follows db db') (hn : db.handle name = .ok cc) :
    ∃ cc', db'.handle name = .ok cc' ∧ Revises cc cc' := by
  obtain ⟨hclosed, cs, hcs, hcc⟩ := handle_eq_ok hn
  have hk := h.handles cs.collID
  rcases hcc' : db'.cat.collections cs.collID with _ | cc' <;> rw [hcc, hcc'] at hk <;> cases hk
  refine ⟨cc', ?_, ‹_›⟩
  simp only [DB.handle, DB.state, h.closed, hclosed, h.colls, hcs, hcc', Bool.false_eq_true, if_false]

/-- No call on points opens, closes or renames a collection. -/
theorem Inv.follows_act (h : db.Inv codecs) (op : Op) : Follows db (db.act op).1 := by
  have hself := Follows.refl db
  have hmove := db.act_moves op
  generalize (db.act op).1 = db' at hmove
  cases hmove with
  | idle => exact hself
  | prepare hn hid => exact hself.setHandle (h.handle hn).1 (revises_prepareID hid)
  | write ht hn hid =>
    have hset := hself.setHandle (h.handle hn).1 (revises_prepareID hid)
    exact ⟨hset.closed, hset.colls, hset.handles⟩
  | delete ht hn =>
    exact Follows.setHandle ⟨rfl, rfl, hself.handles⟩ (h.handle hn).1 (revises_noteDeleted _ _)
  | miss | begin | commit | rollback => exact ⟨rfl, rfl, hself.handles⟩

theorem Follows.trans {db'' : DB} (h : Follows db db') (h' : Follows db' db'') : Follows db db'' where
  closed := h'.closed.trans h.closed
  colls := h'.colls.trans h.colls
  handles k := by
    rcases rel_cases (h.handles k) with ⟨h₀, h₁⟩ | ⟨cc₀, cc₁, h₀, h₁, hr⟩ <;>
      rcases rel_cases (h'.handles k) with ⟨h₁', h₂⟩ | ⟨_, cc₂, h₁', h₂, hr'⟩ <;>
      cases h₁.symm.trans h₁' <;> rw [h₀, h₂]
    · exact .none
    · exact .some (hr.trans hr')

theorem act_readOnly (db : DB) (op : Op) : (db.act op).1.readOnly = db.readOnly := by
  have hmove := db.act_moves op
  generalize (db.act op).1 = db' at hmove
  cases hmove <;> rfl

theorem acts_readOnly (db : DB) (ops : List Op) : (db.acts ops).1.readOnly = db.readOnly := by
  induction ops generalizing db with
  | nil => rfl
  | cons op ops ih => exact (ih _).trans (db.act_readOnly op)

theorem Inv.acts (h : db.Inv codecs) (ops : List Op) : (db.acts ops).1.Inv codecs := by
  induction ops generalizing db with
  | nil => exact h
  | cons op ops ih => exact ih (h.act op)

theorem Inv.room_acts (h : db.Inv codecs) {n : ℕ} (hr : db.Room (n + ops.length)) :
    (db.acts ops).1.Room n := by
  induction ops generalizing db with
  | nil => exact hr
  | cons op ops ih => exact ih (h.act op) (Room.act hr (fun _ _ hc => h.sys.inv.wf hc) op)

theorem Inv.follows_acts (h : db.Inv codecs) (ops : List Op) : Follows db (db.acts ops).1 := by
  induction ops generalizing db with
  | nil => exact .refl db
  | cons op ops ih => exact (h.follows_act op).trans (ih (h.act op))

theorem write_eq_ok (h : db.write txn name p upsert amb = (db', .ok id)) :
    ∃ t cc cc' q col vec row, db.sys.writer = some t ∧ db.handle name = .ok cc ∧
      denseFor cc p = .ok (col, vec) ∧ cc.validateVector col vec = .ok () ∧
      cc.prepareID (suppliedID p.id) = .ok (cc', q) ∧
      cc'.lowerMeta (p.metadata.map fun e => (e.1, e.2.catalogValue)) amb.now = .ok row ∧
      (db.setHandle cc').callEngine t cc'.id
        (writeCall upsert amb.order q.engineID vec (rowOf row)) = (db', none) ∧
      id = publicID q := by
  unfold DB.write at h
  rcases hr : db.requireWrite txn name with e | ⟨t, cc⟩ <;> rw [hr] at h
  · cases h
  obtain ⟨-, ht, hn⟩ := requireWrite_eq_ok hr
  unfold DB.writeOne at h
  rcases hd : denseFor cc p with e | ⟨col, vec⟩ <;> simp only [hd] at h
  · cases h
  rcases hv : cc.validateVector col vec with e | _ <;> simp only [hv] at h
  · cases h
  rcases hid : cc.prepareID (suppliedID p.id) with e | ⟨cc', q⟩ <;> simp only [hid] at h
  · cases h
  rcases hrow : cc'.lowerMeta (p.metadata.map fun e => (e.1, e.2.catalogValue)) amb.now
    with e | row <;> simp only [hrow] at h
  · cases h
  rcases hcall : (db.setHandle cc').callEngine t cc'.id
    (writeCall upsert amb.order q.engineID vec (rowOf row)) with ⟨db₁, _ | e⟩ <;>
    simp only [hcall] at h <;> cases h
  exact ⟨t, cc, cc', q, col, vec, row, ht, hn, hd, hv, hid, hrow, hcall, rfl⟩

/-- A point is in the table of the collection of a name. -/
def Keeps (codecs : Codecs) (name : Bytes) (cc : Catalog.Collection) (id : Storage.PointID)
    (e : Entry) (db : DB) : Prop :=
  db.Inv codecs ∧ (∃ cc', db.handle name = .ok cc' ∧ Revises cc cc') ∧
    ∃ c T, db.Holds cc.id c T ∧ T.now id = some e

/-- A call that is not about the point, and rolls nothing back. -/
def Spares (k : UInt64) (id : Storage.PointID) (db : DB) : Op → Prop
  | .write _ name p _ _ => ∀ cc, db.handle name = .ok cc → cc.id = k → target cc p.id ≠ id
  | .delete _ name id' => ∀ cc, db.handle name = .ok cc → cc.id = k → enginePID id' ≠ id
  | .get _ _ _ | .begin | .commit => True
  | .rollback => False

section Keeps

variable {id : Storage.PointID} {e : Entry}

theorem Spares.ne {k : UInt64} {op : Op} {w : Storage.Write} (h : Spares k id db op)
    (hw : db.Calls k w op) : id ≠ w.id := by
  cases op with
  | write txn name p upsert amb =>
    obtain ⟨cc, vec, row, hn, hk, rfl⟩ := hw
    rw [writeCall_id]
    exact (h cc hn hk).symm
  | delete txn name id' =>
    obtain ⟨cc, hn, hk, rfl⟩ := hw
    exact (h cc hn hk).symm
  | get | begin | commit | rollback => exact hw.elim

theorem Keeps.act (h : Keeps codecs name cc id e db) {op : Op} (hs : Spares cc.id id db op) :
    Keeps codecs name cc id e (db.act op).1 := by
  obtain ⟨hinv, ⟨cc', hn, hr⟩, c, T, hT, he⟩ := h
  obtain ⟨cc'', hn', hr'⟩ := (hinv.follows_act op).handle hn
  obtain ⟨c', T', hT', hturns, -⟩ := hT.act op
  refine ⟨hinv.act op, ⟨cc'', hn', hr.trans hr'⟩, c', T', hT', ?_⟩
  cases hturns with
  | same => exact he
  | call hw => rwa [Table.call_now_of_ne T (hs.ne hw)]
  | commit => exact he
  | rollback hop =>
    subst hop
    exact hs.elim

theorem Keeps.acts (h : Keeps codecs name cc id e db)
    (hs : Along opStep (Spares cc.id id) db ops) : Keeps codecs name cc id e (db.acts ops).1 := by
  induction ops generalizing db with
  | nil => exact h
  | cons op ops ih => exact ih (h.act hs.1) (hs.2 _ rfl)

end Keeps

theorem engineID_of_prepareID (hkind : cc.schema.idKind = .bigInt) {supplied : Option Id}
    {q : Id} (h : cc.prepareID supplied = .ok (cc', q)) : q = .bigInt q.engineID := by
  rw [Catalog.Collection.prepareID] at h
  obtain ⟨⟨identity, q'⟩, hid, h⟩ := Fallible.bind_eq_ok.mp h
  cases h
  rw [hkind] at hid
  cases supplied with
  | none =>
    obtain ⟨-, -, -, rfl⟩ := Identity.nextAuto_eq_ok hid
    rfl
  | some p =>
    obtain ⟨hp, -, -, rfl⟩ := Identity.prepareID_some_eq_ok hid
    cases q with
    | bigInt n => rfl
    | text | blob => cases hp

theorem Inv.write_keeps (h : db.Inv codecs) (hn : db.handle name = .ok cc)
    (hw : db.write txn name p upsert amb = (db', .ok id)) :
    ∃ c vec, db.sys.engine.colls cc.id = some c ∧ Describes codecs cc.id cc c ∧
      id = { n := enginePID id } ∧ enginePID id = target cc p.id ∧
      Keeps codecs name cc (enginePID id) (c.shape.entry vec (storedRow cc p amb.now)) db' := by
  have hact : (db.act (.write txn name p upsert amb)).1 = db' := congrArg Prod.fst hw
  obtain ⟨t, cc₀, cc', q, col, vec, row, ht, hn₀, -, -, hid, hrow, hcall, rfl⟩ := write_eq_ok hw
  cases hn₀.symm.trans hn
  obtain ⟨hcc, c, hc, hd⟩ := h.handle hn
  have hr := revises_prepareID hid
  have hd' := hd.revise hr rfl
  have hq : publicID q = { n := q.engineID } := by
    rw [engineID_of_prepareID hd.plain.idKind hid]
    rfl
  have hpid : enginePID (publicID q) = q.engineID := by rw [hq]; rfl
  obtain ⟨-, rfl⟩ := (lowerMeta_eq_ok hd'.plain hd'.colIDs).mp hrow
  have hstored : rowOf (loweredRow cc'.schema
      (p.metadata.map fun e => (e.1, e.2.catalogValue)) amb.now) = storedRow cc p amb.now := by
    obtain ⟨_, _, -, rfl⟩ := hr
    rfl
  rw [hstored, hr.id_eq] at hcall
  refine ⟨c, vec, hc, hd, by rw [hpid, hq], by rw [hpid, target_of_prepareID hid], ?_⟩
  obtain ⟨T, hT⟩ := h.holds hc
  have hT' : (db.setHandle cc').Holds cc.id c T := ⟨hT.coll, hT.stores⟩
  obtain ⟨c', hc', herr, -⟩ := hT'.callEngine ht (writeCall_whole ..)
  rw [hcall] at hc' herr
  refine ⟨?_, ?_, c', _, hc', ?_⟩
  · rw [← hact]
    exact h.act _
  · rw [← hact]
    exact (h.follows_act _).handle hn
  · rw [call_writeCall herr.symm, hpid, Function.update_self, hT.stores.shape]

end DB

end VecDb.Facade

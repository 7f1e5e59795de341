import VecDb.Facade.Tables

/-! # Databases that answer alike

Two databases with the same open collections, the same tables and the same identities reply to
every sequence of calls in the same way, wherever their points lie. A mark of the number zero does
not matter, since that number asks for an automatic id.
-/

namespace VecDb.Catalog

/-- Identity states that no sequence of writes tells apart. -/
structure Identity.Alike (i j : Identity) : Prop where
  auto : i.auto = j.auto
  seq : i.seq = j.seq
  deleted : ∀ n, n ≠ 0 → i.wasDeleted (.bigInt n) = j.wasDeleted (.bigInt n)

namespace Identity

variable {i j : Identity}

theorem Alike.reserveAuto (h : i.Alike j) (p : Id) : (i.reserveAuto p).Alike (j.reserveAuto p) := by
  cases p with
  | bigInt n =>
    rw [Identity.reserveAuto, Identity.reserveAuto, ← h.auto, ← h.seq]
    split
    · exact ⟨rfl, rfl, h.deleted⟩
    · exact h
  | text | blob => exact h

theorem wasDeleted_markDeleted (i : Identity) (m n : UInt64) :
    (i.markDeleted (.bigInt m)).wasDeleted (.bigInt n) =
      (decide (n = m) || i.wasDeleted (.bigInt n)) := by
  have hstring : (Id.bigInt n).string = (Id.bigInt m).string ↔ n = m :=
    ⟨string_bigInt_inj, fun h => by rw [h]⟩
  simp only [wasDeleted, markDeleted, List.mem_cons, hstring, Bool.decide_or]

theorem Alike.markDeleted (h : i.Alike j) (n : UInt64) :
    (i.markDeleted (.bigInt n)).Alike (j.markDeleted (.bigInt n)) where
  auto := h.auto
  seq := h.seq
  deleted m hm := by rw [wasDeleted_markDeleted, wasDeleted_markDeleted, h.deleted m hm]

theorem Alike.prepareID (h : i.Alike j) {supplied : Option Id} (h0 : supplied ≠ some (.bigInt 0)) :
    (∃ e, i.prepareID .bigInt supplied = .error e ∧ j.prepareID .bigInt supplied = .error e) ∨
      ∃ i' j' p, i.prepareID .bigInt supplied = .ok (i', p) ∧
        j.prepareID .bigInt supplied = .ok (j', p) ∧ i'.Alike j' := by
  cases supplied with
  | none =>
    simp only [Identity.prepareID, nextAuto, ← h.auto, ← h.seq]
    split
    · exact .inl ⟨_, rfl, rfl⟩
    split
    · exact .inl ⟨_, rfl, rfl⟩
    · exact .inr ⟨_, _, _, rfl, rfl, rfl, rfl, h.deleted⟩
  | some p =>
    cases p with
    | text | blob => exact .inl ⟨_, rfl, rfl⟩
    | bigInt n =>
      have hn : n ≠ 0 := fun hn => h0 (by rw [hn])
      have hform : validateForm .bigInt (.bigInt n) = .ok () := rfl
      simp only [Identity.prepareID, hform, bind, Except.bind, ← h.deleted n hn]
      split
      · exact .inl ⟨_, rfl, rfl⟩
      · exact .inr ⟨_, _, _, rfl, rfl, h.reserveAuto _⟩

end Identity

end VecDb.Catalog

namespace VecDb.Facade

def HandlesAlike (cc cc' : Catalog.Collection) : Prop :=
  cc.schema.idKind = .bigInt ∧
    ∃ identity, cc' = { cc with identity } ∧ cc.identity.Alike identity

theorem HandlesAlike.prepareID {cc cc' : Catalog.Collection} (h : HandlesAlike cc cc')
    (id : PointID) :
    (∃ e, cc.prepareID (suppliedID id) = .error e ∧ cc'.prepareID (suppliedID id) = .error e) ∨
      ∃ cc₁ cc₁' p, cc.prepareID (suppliedID id) = .ok (cc₁, p) ∧
        cc'.prepareID (suppliedID id) = .ok (cc₁', p) ∧ HandlesAlike cc₁ cc₁' := by
  obtain ⟨hkind, identity, rfl, halike⟩ := h
  simp only [Catalog.Collection.prepareID, hkind]
  rcases halike.prepareID (suppliedID_ne_zero id) with ⟨e, he, he'⟩ | ⟨i, j, p, hi, hj, hij⟩
  · rw [he, he']
    exact .inl ⟨e, rfl, rfl⟩
  · rw [hi, hj]
    exact .inr ⟨_, _, p, rfl, rfl, hkind, j, rfl, hij⟩

namespace DB

/-- Databases that reply to all calls on points in the same way. -/
structure Alike (a b : DB) : Prop where
  readOnly : a.readOnly = b.readOnly
  closed : a.closed = b.closed
  colls : a.colls = b.colls
  handles : ∀ k, Option.Rel HandlesAlike (a.cat.collections k) (b.cat.collections k)
  writer : a.sys.writer.isSome = b.sys.writer.isSome
  tables : ∀ k, Option.Rel (fun c d => ∃ T, c.Stores (a.log k) T ∧ d.Stores (b.log k) T)
    (a.sys.engine.colls k) (b.sys.engine.colls k)

section Alike

variable {a b : DB} {t u : Storage.Txn} {w : Storage.Write} {cc cc' : Catalog.Collection}

section

variable (h : Alike a b)
include h

theorem Alike.handle (name : Bytes) : (∃ e, a.handle name = .error e ∧ b.handle name = .error e) ∨
      ∃ cc cc', a.handle name = .ok cc ∧ b.handle name = .ok cc' ∧ HandlesAlike cc cc' := by
  unfold DB.handle DB.state
  rw [← h.closed, ← h.colls]
  rcases a.closed
  case true => exact .inl ⟨_, rfl, rfl⟩
  rcases a.colls name with _ | cs
  · exact .inl ⟨_, rfl, rfl⟩
  simp only [Bool.false_eq_true, if_false]
  rcases rel_cases (h.handles cs.collID) with ⟨ha, hb⟩ | ⟨cc, cc', ha, hb, hcc⟩ <;> rw [ha, hb]
  · exact .inl ⟨_, rfl, rfl⟩
  · exact .inr ⟨cc, cc', rfl, rfl, hcc⟩

theorem Alike.requireWrite (txn : TxnRef) (name : Bytes) :
    (∃ e, a.requireWrite txn name = .error e ∧ b.requireWrite txn name = .error e) ∨
      ∃ t u cc cc', a.requireWrite txn name = .ok (t, cc) ∧ b.requireWrite txn name = .ok (u, cc') ∧
        a.sys.writer = some t ∧ b.sys.writer = some u ∧ HandlesAlike cc cc' := by
  cases txn with
  | none | reader => exact .inl ⟨_, rfl, rfl⟩
  | writer =>
    unfold DB.requireWrite
    have hw := h.writer
    rcases ht : a.sys.writer with _ | t <;> rcases hu : b.sys.writer with _ | u <;>
      rw [ht, hu] at hw <;> cases hw
    · exact .inl ⟨_, rfl, rfl⟩
    · rcases h.handle name with ⟨e, ha, hb⟩ | ⟨cc, cc', ha, hb, halike⟩
      · exact .inl ⟨e, by rw [ha]; rfl, by rw [hb]; rfl⟩
      · exact .inr ⟨t, u, cc, cc', by rw [ha]; rfl, by rw [hb]; rfl, rfl, rfl, halike⟩

theorem Alike.setHandle (hcc : HandlesAlike cc cc') : Alike (a.setHandle cc) (b.setHandle cc') where
  readOnly := h.readOnly
  closed := h.closed
  colls := h.colls
  handles k := by
    obtain ⟨-, identity, heq, -⟩ := id hcc
    have hid : cc'.id = cc.id := by rw [heq]
    dsimp only [DB.setHandle]
    rw [hid, Function.update_apply, Function.update_apply]
    split
    · exact .some hcc
    · exact h.handles k
  writer := h.writer
  tables := h.tables

theorem Alike.callEngine (ht : a.sys.writer = some t) (hu : b.sys.writer = some u)
    (hw : w.Whole) (k : UInt64) : (a.callEngine t k w).2 = (b.callEngine u k w).2 ∧
      Alike (a.callEngine t k w).1 (b.callEngine u k w).1 := by
  rcases rel_cases (h.tables k) with ⟨hc, hd⟩ | ⟨c, d, hc, hd, T, hT, hT'⟩
  · have hsame : ∀ (db : DB) (t : Storage.Txn), db.sys.writer = some t →
        db.sys.engine.colls k = none → db.callEngine t k w = (db, some .unknownCollection) := by
      intro db t ht hc
      rw [callEngine_eq, Storage.Engine.call_none hc]
      rw [← ht]
    rw [hsame a t ht hc, hsame b u hu hd]
    exact ⟨rfl, h⟩
  · obtain ⟨hcolls, -, -, -, he⟩ := @Storage.Engine.call_some a.sys.engine t k c w hc
    obtain ⟨hcolls', -, -, -, he'⟩ := @Storage.Engine.call_some b.sys.engine u k d w hd
    refine ⟨?_, h.readOnly, h.closed, h.colls, h.handles, rfl, fun k' => ?_⟩
    · rw [callEngine_eq, callEngine_eq]
      exact he.trans (((hT.call hw).2.trans (hT'.call hw).2.symm).trans he'.symm)
    · rw [log_callEngine ht hc, log_callEngine hu hd, callEngine_eq, callEngine_eq]
      rw [hcolls, hcolls', Function.update_apply, Function.update_apply]
      split
      · subst_vars
        exact .some ⟨_, (hT.call hw).1, (hT'.call hw).1⟩
      · exact h.tables k'

theorem Alike.writeOne (ht : a.sys.writer = some t) (hu : b.sys.writer = some u)
    (hcc : HandlesAlike cc cc') (p : Point) (upsert : Bool) (amb : Ambient) :
    (a.writeOne t cc p upsert amb).2 = (b.writeOne u cc' p upsert amb).2 ∧
      Alike (a.writeOne t cc p upsert amb).1 (b.writeOne u cc' p upsert amb).1 := by
  have hprep := hcc.prepareID p.id
  have hdense : denseFor cc' p = denseFor cc p := by
    obtain ⟨-, identity, rfl, -⟩ := hcc
    rfl
  have hvec : ∀ col v, cc'.validateVector col v = cc.validateVector col v := by
    obtain ⟨-, identity, rfl, -⟩ := hcc
    exact fun _ _ => rfl
  unfold DB.writeOne
  rw [hdense]
  rcases denseFor cc p with e | ⟨col, dense⟩
  · exact ⟨rfl, h⟩
  dsimp only
  rw [hvec]
  rcases cc.validateVector col dense with e | _
  · exact ⟨rfl, h⟩
  rcases hprep with ⟨e, he, he'⟩ | ⟨cc₁, cc₁', id, hok, hok', hcc₁⟩
  · rw [he, he']
    exact ⟨rfl, h⟩
  rw [hok, hok']
  have hset := h.setHandle hcc₁
  obtain ⟨-, identity, heq, -⟩ := hcc₁
  have hmeta : ∀ m now, cc₁'.lowerMeta m now = cc₁.lowerMeta m now := by
    rw [heq]
    exact fun _ _ => rfl
  have hid : cc₁'.id = cc₁.id := by rw [heq]
  dsimp only
  rw [hmeta]
  rcases cc₁.lowerMeta _ amb.now with e | row
  · exact ⟨rfl, hset⟩
  obtain ⟨herr, hcall⟩ :=
    hset.callEngine ht hu (writeCall_whole upsert amb.order id.engineID dense (rowOf row)) cc₁.id
  dsimp only
  rw [hid]
  rcases hca : (a.setHandle cc₁).callEngine t cc₁.id _ with ⟨a', e | _⟩ <;>
    rcases hcb : (b.setHandle cc₁').callEngine u cc₁.id _ with ⟨b', e' | _⟩ <;>
    rw [hca, hcb] at herr hcall <;> cases herr <;> exact ⟨rfl, hcall⟩

theorem Alike.write (txn : TxnRef) (name : Bytes) (p : Point) (upsert : Bool) (amb : Ambient) :
    (a.write txn name p upsert amb).2 = (b.write txn name p upsert amb).2 ∧
      Alike (a.write txn name p upsert amb).1 (b.write txn name p upsert amb).1 := by
  unfold DB.write
  rcases h.requireWrite txn name with ⟨e, ha, hb⟩ | ⟨t, u, cc, cc', ha, hb, ht, hu, hcc⟩
  · rw [ha, hb]
    exact ⟨rfl, h⟩
  · rw [ha, hb]
    exact h.writeOne ht hu hcc p upsert amb

theorem Alike.delete (txn : TxnRef) (name : Bytes) (id : PointID) :
    (a.delete txn name id).2 = (b.delete txn name id).2 ∧
      Alike (a.delete txn name id).1 (b.delete txn name id).1 := by
  unfold DB.delete
  rcases h.requireWrite txn name with ⟨e, ha, hb⟩ | ⟨t, u, cc, cc', ha, hb, ht, hu, hcc⟩
  · rw [ha, hb]
    exact ⟨rfl, h⟩
  rw [ha, hb]
  obtain ⟨hkind, identity, rfl, halike⟩ := hcc
  obtain ⟨herr, hcall⟩ :=
    @Alike.callEngine _ _ _ _ (.delete (enginePID id)) h ht hu trivial cc.id
  dsimp only
  rcases hca : a.callEngine t cc.id _ with ⟨a', e | _⟩ <;>
    rcases hcb : b.callEngine u cc.id _ with ⟨b', e' | _⟩ <;>
    rw [hca, hcb] at herr hcall <;> cases herr
  · exact ⟨rfl, hcall.setHandle ⟨hkind, _, rfl, halike.markDeleted id.n⟩⟩
  · exact ⟨rfl, hcall⟩

theorem Alike.get (ha : a.InGrid) (hb : b.InGrid) (readSeq : Option ℕ) (name : Bytes)
    (id : PointID) : a.get readSeq name id = b.get readSeq name id := by
  rcases h.handle name with ⟨e, ha', hb'⟩ | ⟨cc, cc', ha', hb', hcc⟩
  · rw [DB.get, DB.get, ha', hb']
  obtain ⟨-, identity, rfl, -⟩ := hcc
  rcases rel_cases (h.tables cc.id) with ⟨hc, hd⟩ | ⟨c, d, hc, hd, T, hT, hT'⟩
  · simp only [DB.get, ha', hb', Storage.Engine.lookupID, hc, hd]
  · rw [get_eq ha' hc hT (ha _ _ hc), get_eq hb' hd hT' (hb _ _ hd)]
    rfl

theorem Alike.settle {sa sb : Storage.Sys} (ha : sa.writer = none) (hb : sb.writer = none)
    (htables : ∀ k, Option.Rel (fun c d => ∃ T, c.Stores [] T ∧ d.Stores [] T)
      (sa.engine.colls k) (sb.engine.colls k)) :
    Alike { a with sys := sa } { b with sys := sb } where
  readOnly := h.readOnly
  closed := h.closed
  colls := h.colls
  handles := h.handles
  writer := by rw [ha, hb]
  tables k := by
    simp only [DB.log, ha, hb]
    exact htables k

theorem Alike.commit : a.commit.2 = b.commit.2 ∧ Alike a.commit.1 b.commit.1 := by
  unfold DB.commit
  have hw := h.writer
  rcases ht : a.sys.writer with _ | t <;> rcases hu : b.sys.writer with _ | u <;>
    rw [ht, hu] at hw <;> cases hw
  · exact ⟨rfl, h⟩
  · refine ⟨rfl, h.settle rfl rfl fun k => ?_⟩
    dsimp only [Storage.Engine.commit]
    rw [Storage.Engine.publish_colls, Storage.Engine.publish_colls]
    dsimp only [Storage.Engine.drawSeq]
    rcases rel_cases (h.tables k) with ⟨hc, hd⟩ | ⟨c, d, hc, hd, T, hT, hT'⟩ <;> rw [hc, hd]
    · exact .none
    · exact .some ⟨_, hT.commit _ _, hT'.commit _ _⟩

theorem Alike.rollback : a.rollback.2 = b.rollback.2 ∧ Alike a.rollback.1 b.rollback.1 := by
  unfold DB.rollback
  have hw := h.writer
  rcases ht : a.sys.writer with _ | t <;> rcases hu : b.sys.writer with _ | u <;>
    rw [ht, hu] at hw <;> cases hw
  · exact ⟨rfl, h⟩
  · refine ⟨rfl, h.settle rfl rfl fun k => ?_⟩
    have hk := h.tables k
    rw [Storage.Engine.abort_colls, Storage.Engine.abort_colls]
    simp only [DB.log, ht, hu] at hk
    rcases rel_cases hk with ⟨hc, hd⟩ | ⟨c, d, hc, hd, T, hT, hT'⟩ <;> rw [hc, hd]
    · exact .none
    · exact .some ⟨_, hT.abort, hT'.abort⟩

theorem Alike.begin : a.begin.2 = b.begin.2 ∧ Alike a.begin.1 b.begin.1 := by
  unfold DB.begin
  rw [← h.closed, ← h.readOnly]
  split
  · exact ⟨rfl, h⟩
  split
  · exact ⟨rfl, h⟩
  have hw := h.writer
  rcases ht : a.sys.writer with _ | t <;> rcases hu : b.sys.writer with _ | u <;>
    rw [ht, hu] at hw <;> cases hw
  · refine ⟨rfl, rfl, rfl, h.colls, h.handles, rfl, fun k => ?_⟩
    have hk := h.tables k
    simp only [DB.log, ht, hu] at hk
    exact hk
  · exact ⟨rfl, h⟩

theorem Alike.act (ha : a.InGrid) (hb : b.InGrid) (op : Op) :
    (a.act op).2 = (b.act op).2 ∧ Alike (a.act op).1 (b.act op).1 := by
  cases op with
  | write txn name p upsert amb =>
    exact ⟨congrArg Reply.id (h.write txn name p upsert amb).1, (h.write txn name p upsert amb).2⟩
  | delete txn name id =>
    exact ⟨congrArg Reply.done (h.delete txn name id).1, (h.delete txn name id).2⟩
  | get readSeq name id => exact ⟨congrArg Reply.point (h.get ha hb readSeq name id), h⟩
  | begin => exact ⟨congrArg Reply.done h.begin.1, h.begin.2⟩
  | commit => exact ⟨congrArg Reply.done h.commit.1, h.commit.2⟩
  | rollback => exact ⟨congrArg Reply.done h.rollback.1, h.rollback.2⟩

end

end Alike

section Room

theorem Alike.wf {a b : DB} (h : Alike a b) :
    (∀ k c, a.sys.engine.colls k = some c → c.WF) ∧ ∀ k c, b.sys.engine.colls k = some c → c.WF := by
  constructor <;> intro k c hc <;> have hk := h.tables k <;> rw [hc] at hk
  · rcases hd : b.sys.engine.colls k with _ | d <;> rw [hd] at hk <;> cases hk
    obtain ⟨T, hT, -⟩ := ‹∃ T, _›
    exact hT.wf
  · rcases hd : a.sys.engine.colls k with _ | d <;> rw [hd] at hk <;> cases hk
    obtain ⟨T, -, hT⟩ := ‹∃ T, _›
    exact hT.wf

theorem Alike.acts {a b : DB} (h : Alike a b) (ops : List Op) (ha : a.Room ops.length)
    (hb : b.Room ops.length) : (a.acts ops).2 = (b.acts ops).2 := by
  induction ops generalizing a b with
  | nil => rfl
  | cons op ops ih =>
    obtain ⟨hreply, hact⟩ := h.act ha.inGrid hb.inGrid op
    have hrest := ih hact (Room.act ha h.wf.1 op) (Room.act hb h.wf.2 op)
    simp only [DB.acts, hreply, hrest]

end Room

end DB

end VecDb.Facade

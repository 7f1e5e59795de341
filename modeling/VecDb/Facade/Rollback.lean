import VecDb.Facade.Alike

/-! # Rolling a transaction back

A rollback does not undo what the calls did to the identities of the catalog, so a point that the
transaction deleted stays marked; and the engine loses a point that was replaced in its place. A
transaction that does neither is forgotten, but for ids it has used up.
-/

namespace VecDb.Catalog

/-- The second identity state is the first one after the use of some ids. -/
structure Identity.Skips (i j : Identity) : Prop where
  auto : i.auto = j.auto
  seq : i.seq ≤ j.seq
  deleted : ∀ n, n ≠ 0 → i.wasDeleted (.bigInt n) = j.wasDeleted (.bigInt n)

namespace Identity

variable {i j j' : Identity}

theorem Skips.refl (i : Identity) : i.Skips i := ⟨rfl, UInt64.le_refl _, fun _ _ => rfl⟩

theorem Skips.alike (h : i.Skips j) : j.Alike { i with seq := j.seq } :=
  ⟨h.auto.symm, rfl, fun n hn => (h.deleted n hn).symm⟩

theorem Skips.prepareID (h : i.Skips j) {supplied : Option Id} {p : Id}
    (hmax : supplied ≠ some (.bigInt (~~~0))) (hok : j.prepareID .bigInt supplied = .ok (j', p)) :
    i.Skips j' := by
  cases supplied with
  | none =>
    obtain ⟨-, hseq, rfl, -⟩ := nextAuto_eq_ok hok
    exact ⟨h.auto, UInt64.le_trans h.seq (UInt64.le_of_lt (Ahead.lt_add_one hseq)), h.deleted⟩
  | some q =>
    obtain ⟨hkind, -, rfl, -⟩ := prepareID_some_eq_ok hok
    cases q with
    | text | blob => cases hkind
    | bigInt n =>
      have hn : n ≠ ~~~0 := fun hn => hmax (by rw [hn])
      rw [reserveAuto]
      split
      case isTrue hle =>
        rw [Bool.and_eq_true, decide_eq_true_iff] at hle
        refine ⟨h.auto, UInt64.le_trans h.seq ?_, h.deleted⟩
        exact UInt64.le_trans hle.2 (UInt64.le_of_lt (Ahead.lt_add_one hn))
      case isFalse => exact h

theorem Skips.markDeleted (h : i.Skips j) {n : UInt64}
    (hn : n = 0 ∨ j.wasDeleted (.bigInt n) = true) : i.Skips (j.markDeleted (.bigInt n)) where
  auto := h.auto
  seq := h.seq
  deleted m hm := by
    rw [wasDeleted_markDeleted, h.deleted m hm]
    by_cases hmn : m = n
    · subst hmn
      rw [hn.resolve_left hm, Bool.or_true]
    · simp [hmn]

end Identity

end VecDb.Catalog

namespace VecDb.Facade

open Catalog (Codecs)

def Skips (cc cc' : Catalog.Collection) : Prop :=
  cc.schema.idKind = .bigInt ∧ ∃ identity, cc' = { cc with identity } ∧ cc.identity.Skips identity

namespace DB

/-- A point is where it was when the transaction began. -/
def InPlace (c₀ c : Storage.Collection) (id : Storage.PointID) : Prop :=
  c₀.idmap.fwd id ≠ none ∧ c.idmap.fwd id = c₀.idmap.fwd id

/-- A call that a rollback makes up for: it replaces no point in its place, marks no id as deleted
that was not marked before, and leaves the largest number alone. -/
def Harmless (db₀ db : DB) : Op → Prop
  | .write _ name p upsert _ =>
    suppliedID p.id ≠ some (.bigInt (~~~0)) ∧
      (upsert = true → ∀ cc c₀ c, db.handle name = .ok cc →
        db₀.sys.engine.colls cc.id = some c₀ → db.sys.engine.colls cc.id = some c →
        ¬ InPlace c₀ c (target cc p.id))
  | .delete _ name id =>
    ∀ cc c, db.handle name = .ok cc → db.sys.engine.colls cc.id = some c →
      c.idmap.fwd (enginePID id) = none ∨ id.n = 0 ∨
        cc.identity.wasDeleted (.bigInt id.n) = true
  | .get _ _ _ | .begin => True
  | .commit | .rollback => False

/-- A database under a transaction that a rollback makes up for. -/
structure Under (db₀ db : DB) (t : Storage.Txn) : Prop where
  writer : db.sys.writer = some t
  readOnly : db.readOnly = db₀.readOnly
  closed : db.closed = db₀.closed
  colls : db.colls = db₀.colls
  tracks : Storage.Engine.Tracks db₀.sys.engine db.sys.engine t
  intact : Storage.Engine.Intact db₀.sys.engine db.sys.engine t
  handles : ∀ k, Option.Rel Skips (db₀.cat.collections k) (db.cat.collections k)
  ids : ∀ k cc, db₀.cat.collections k = some cc → cc.id = k

section Under

variable {db₀ db : DB} {t : Storage.Txn} {cc cc' : Catalog.Collection} {name : Bytes}
  (h : Under db₀ db t)
include h

theorem Under.setHandle (hcc : Option.Rel Skips (db₀.cat.collections cc.id) (some cc)) :
    Under db₀ (db.setHandle cc) t where
  writer := h.writer
  readOnly := h.readOnly
  closed := h.closed
  colls := h.colls
  tracks := h.tracks
  intact := h.intact
  handles k := by
    dsimp only [DB.setHandle]
    rw [Function.update_apply]
    split
    · subst_vars
      exact hcc
    · exact h.handles k
  ids := h.ids

theorem Under.callEngine (k : UInt64) {w : Storage.Write}
    (hw : ∀ c₀ c, db₀.sys.engine.colls k = some c₀ → db.sys.engine.colls k = some c →
      ¬ w.Overwrites c₀ c) : ∃ t', Under db₀ (db.callEngine t k w).1 t' := by
  exact ⟨(db.sys.engine.call t k w).2.1, rfl, h.readOnly, h.closed, h.colls, h.tracks.call k w,
    (h.tracks.intact_call k w).mpr ⟨h.intact, hw⟩, h.handles, h.ids⟩

theorem Under.handle (hn : db.handle name = .ok cc) :
    ∃ cc₀, db₀.cat.collections cc.id = some cc₀ ∧ Skips cc₀ cc := by
  obtain ⟨-, cs, -, hcc⟩ := handle_eq_ok hn
  have hk := h.handles cs.collID
  rcases h₀ : db₀.cat.collections cs.collID with _ | cc₀ <;> rw [h₀, hcc] at hk <;> cases hk
  obtain ⟨hkind, identity, rfl, hskips⟩ := ‹Skips cc₀ cc›
  have hid := h.ids _ _ h₀
  exact ⟨cc₀, by dsimp only; rw [hid, h₀], hkind, identity, rfl, hskips⟩

omit h in
theorem not_overwrites_writeCall {c₀ c : Storage.Collection} {upsert : Bool}
    {order : Storage.RangeOrder} {id : Storage.PointID} {vec : Storage.Vec} {row : Storage.MetaRow}
    (h : upsert = true → ¬ InPlace c₀ c id) : ¬ (writeCall upsert order id vec row).Overwrites c₀ c := by
  rw [writeCall]
  split
  · exact h ‹_›
  · exact fun hover => hover

theorem Under.prepare {cc cc' : Catalog.Collection}
    {supplied : Option Catalog.Id} {id : Catalog.Id} (hmax : supplied ≠ some (.bigInt (~~~0)))
    (hn : db.handle name = .ok cc) (hid : cc.prepareID supplied = .ok (cc', id)) :
    Under db₀ (db.setHandle cc') t := by
  obtain ⟨cc₀, hcc₀, hkind, identity, hcc, hskips⟩ := h.handle hn
  rw [Catalog.Collection.prepareID] at hid
  obtain ⟨⟨identity', q⟩, hid', hok⟩ := Fallible.bind_eq_ok.mp hid
  cases hok
  refine h.setHandle ?_
  rw [hcc₀, hcc]
  subst hcc
  rw [hkind] at hid'
  exact .some ⟨hkind, identity', rfl, hskips.prepareID hmax hid'⟩

theorem Under.act {op : Op} (hh : Harmless db₀ db op) : ∃ t', Under db₀ (db.act op).1 t' := by
  have hmove := db.act_moves op
  generalize (db.act op).1 = db' at hmove
  cases hmove with
  | idle => exact ⟨t, h⟩
  | prepare hn hid => exact ⟨t, h.prepare hh.1 hn hid⟩
  | @write txn name p upsert amb t' cc cc' id vec row ht hn hid =>
    cases h.writer.symm.trans ht
    refine (h.prepare hh.1 hn hid).callEngine cc'.id fun c₀ c h₀ hc =>
      not_overwrites_writeCall fun hup => ?_
    rw [(revises_prepareID hid).id_eq] at h₀ hc
    rw [target_of_prepareID hid]
    exact hh.2 hup cc c₀ c hn h₀ hc
  | miss ht hn =>
    cases h.writer.symm.trans ht
    exact h.callEngine _ fun _ _ _ _ h => h
  | @delete txn name id t' cc ht hn hthere =>
    cases h.writer.symm.trans ht
    obtain ⟨cc₀, hcc₀, hkind, identity, hcc, hskips⟩ := h.handle hn
    obtain ⟨t', hcall⟩ := @Under.callEngine _ _ _ h cc.id (.delete (enginePID id)) fun _ _ _ _ h => h
    refine ⟨t', hcall.setHandle ?_⟩
    have hmark : id.n = 0 ∨ cc.identity.wasDeleted (.bigInt id.n) = true := by
      rw [callEngine_eq] at hthere
      rcases hcoll : db.sys.engine.colls cc.id with _ | c
      · rw [Storage.Engine.call_none hcoll] at hthere
        cases hthere
      · refine (hh cc c hn hcoll).resolve_left fun hnone => ?_
        rw [(@Storage.Engine.call_some db.sys.engine t cc.id c _ hcoll).2.2.2.2] at hthere
        rw [Storage.Write.run, @Storage.Draft.delete_missing { coll := c } _ hnone] at hthere
        cases hthere
    subst hcc
    dsimp only [Catalog.Collection.noteDeleted]
    rw [hcc₀]
    exact .some ⟨hkind, _, rfl, hskips.markDeleted hmark⟩
  | begin ht => cases h.writer.symm.trans ht
  | commit | rollback => exact hh.elim

def opStep (db : DB) (op : Op) : Except Empty DB := .ok (db.act op).1

theorem Under.acts {ops : List Op} (hh : Along opStep (Harmless db₀) db ops) :
    ∃ t', Under db₀ (db.acts ops).1 t' := by
  induction ops generalizing db t with
  | nil => exact ⟨t, h⟩
  | cons op ops ih =>
    obtain ⟨t', h'⟩ := h.act hh.1
    exact ih h' (hh.2 _ rfl)

def counter (db : DB) (k : UInt64) : UInt64 :=
  match db.cat.collections k with
  | none => 0
  | some cc => cc.identity.seq

def withCounters (db : DB) (seq : UInt64 → UInt64) : DB :=
  { db with
    cat := { db.cat with
      collections := fun k => (db.cat.collections k).map fun cc =>
        { cc with identity := { cc.identity with seq := seq k } } } }

theorem Under.counter_le (k : UInt64) : db₀.counter k ≤ db.counter k := by
  rw [counter, counter]
  rcases rel_cases (h.handles k) with ⟨h₀, hc⟩ | ⟨cc₀, cc, h₀, hc, -, identity, rfl, hskips⟩ <;>
    rw [h₀, hc]
  · exact UInt64.le_refl _
  · exact hskips.seq

theorem Under.rollback_eq :
    db.rollback.1 = { db with sys := { engine := db.sys.engine.abort t } } := by
  rw [DB.rollback, h.writer]

theorem Under.rollback (hw : db₀.sys.writer = none) :
    Alike db.rollback.1 (db₀.withCounters db.rollback.1.counter) := by
  rw [h.rollback_eq]
  refine ⟨h.readOnly, h.closed, h.colls, fun k => ?_, ?_, fun k => ?_⟩
  · dsimp only [withCounters, counter]
    rcases rel_cases (h.handles k) with
      ⟨h₀, hc⟩ | ⟨cc₀, cc, h₀, hc, hkind, identity, rfl, hskips⟩ <;> rw [h₀, hc]
    · exact .none
    · exact .some ⟨hkind, _, rfl, hskips.alike⟩
  · exact (congrArg Option.isSome hw).symm
  · have hlog : ∀ seq, (db₀.withCounters seq).log k = [] := by
      intro seq
      rw [DB.log, show (db₀.withCounters seq).sys.writer = none from hw]
    rw [hlog]
    dsimp only [DB.log, withCounters]
    rw [Storage.Engine.abort_colls]
    rcases rel_cases (h.tracks k) with ⟨h₀, hc⟩ | ⟨c₀, c, h₀, hc, ho⟩ <;> rw [h₀, hc]
    · exact .none
    · refine .some ⟨_, ?_, ho.base.stores⟩
      have hs := ho.undoAll_wf.stores
      have hentry : (c.undoAll (t.log k)).entry = c₀.entry := by
        funext id
        apply ho.reverts.near.entry ho.base
        rw [Storage.Collection.undoAll_fwd]
        exact h.intact k c₀ c h₀ hc id
      rwa [hentry, ho.reverts.near.shape] at hs

theorem Under.room {seq : UInt64 → UInt64} {n : ℕ}
    (hroom : ∀ k c, db.rollback.1.sys.engine.colls k = some c →
      c.segs.length * c.capacity.toNat + n ≤ 2 ^ 32) :
    db.rollback.1.Room n ∧ (db₀.withCounters seq).Room n := by
  rw [h.rollback_eq] at hroom ⊢
  refine ⟨fun k c hc => ?_, fun k c₀ h₀ => ?_⟩
  · have hle := hroom k c hc
    rw [Storage.Engine.abort_colls] at hc
    obtain ⟨c', hc', rfl⟩ := Option.map_eq_some_iff.mp hc
    obtain ⟨c₀, -, ho⟩ := h.tracks.base hc'
    exact ⟨_, ho.undoAll_wf.within, hle⟩
  · have hk := h.tracks k
    have h₀' : db₀.sys.engine.colls k = some c₀ := h₀
    rcases hc : db.sys.engine.colls k with _ | c <;> rw [h₀', hc] at hk <;> cases hk
    have ho := ‹Storage.Collection.Opened c₀ c (t.log k)›
    have hle := hroom k (c.undoAll (t.log k)) (by rw [Storage.Engine.abort_colls, hc]; rfl)
    have hnear := ho.reverts.near
    refine ⟨_, ho.base.within, ?_⟩
    have hlen := Nat.mul_le_mul_right c₀.capacity.toNat hnear.segs.length_le
    rw [hnear.capacity] at hle
    omega

end Under

theorem Inv.under_begin {codecs : Codecs} {db : DB} (h : db.Inv codecs) (hb : db.begin.2 = .ok ()) :
    db.sys.writer = none ∧ ∃ t, Under db db.begin.1 t := by
  unfold DB.begin at hb ⊢
  rcases hclosed : db.closed <;> rw [hclosed] at hb
  case true => cases hb
  rcases hro : db.readOnly <;> rw [hro] at hb
  case true => cases hb
  rcases hw : db.sys.writer with _ | t <;> rw [hw] at hb
  case some => cases hb
  refine ⟨rfl, db.sys.engine.begin.2, rfl, hro.symm, hclosed.symm, rfl, ?_, ?_, fun k => ?_, ?_⟩
  · exact Storage.Engine.tracks_begin fun k c hc => h.sys.inv.wf hc
  · intro k c₀ c h₀ hc id
    cases h₀.symm.trans hc
    rfl
  · rcases hcc : db.cat.collections k with _ | cc
    · simp only [Bool.false_eq_true, if_false, hcc]
      exact .none
    · obtain ⟨c, -, hd⟩ := h.handles k cc hcc
      simp only [Bool.false_eq_true, if_false, hcc]
      exact .some ⟨hd.plain.idKind, cc.identity, rfl, .refl _⟩
  · intro k cc hcc
    obtain ⟨c, -, hd⟩ := h.handles k cc hcc
    exact hd.id

/-- After a transaction of harmless calls that is rolled back, a database replies as if there had
been no transaction, with counters that may have skipped some ids. -/
theorem rollback_forgotten {codecs : Codecs} {builders : Builders} {db : DB}
    (hr : Reachable codecs builders db) (hb : db.begin.2 = .ok ()) {calls : List Op}
    (hh : Along opStep (Harmless db) db.begin.1 calls) :
    let db' := (db.begin.1.acts calls).1.rollback.1
    (∀ k, db.counter k ≤ db'.counter k) ∧
      ∀ later, (∀ k c, db'.sys.engine.colls k = some c →
          c.segs.length * c.capacity.toNat + later.length ≤ 2 ^ 32) →
        (db'.acts later).2 = ((db.withCounters db'.counter).acts later).2 := by
  obtain ⟨hw, t, hunder⟩ := hr.inv.under_begin hb
  obtain ⟨t', hunder'⟩ := hunder.acts hh
  refine ⟨fun k => ?_, fun later hroom => ?_⟩
  · have hle := hunder'.counter_le k
    rw [hunder'.rollback_eq]
    exact hle
  · obtain ⟨ha, hb'⟩ := hunder'.room hroom
    exact (hunder'.rollback hw).acts later ha hb'

section Runs

def insertUndone : DB :=
  (onePoint.begin.1.acts [.write .writer (ascii "a") (vectorPoint 0) false {}]).1.rollback.1

theorem rollback_forgotten_insert :
    let later : List Op := [.begin, .write .writer (ascii "a") (vectorPoint 0) false {}]
    onePoint.counter 1 = 6 ∧ insertUndone.counter 1 = 7 ∧
      (insertUndone.acts later).2 = [.done (.ok ()), .id (.ok { n := 7 })] ∧
      (insertUndone.acts later).2 =
        ((onePoint.withCounters insertUndone.counter).acts later).2 := by
  refine ⟨by decide +kernel, by decide +kernel, by decide +kernel, ?_⟩
  refine (@rollback_forgotten noCodecs noBuilders onePoint onePoint_reachable (by decide +kernel)
    [.write .writer (ascii "a") (vectorPoint 0) false {}] ?_).2 _ fun k c hc => ?_
  · exact ⟨⟨by decide, nofun⟩, fun _ _ => trivial⟩
  · have hinv := ((onePoint_reachable.inv.act .begin).act
      (.write .writer (ascii "a") (vectorPoint 0) false {})).act .rollback
    obtain rfl | rfl :=
      eq_zero_or_one (hinv.fresh (by decide +kernel) k (Option.isSome_of_eq_some hc))
    · cases hc
    · cases hc
      decide +kernel

def deleteUndone : DB :=
  (onePoint.begin.1.acts [.delete .writer (ascii "a") { n := 5 }]).1.rollback.1

/-- The point that was deleted in vain is still there, but cannot be replaced any more. -/
theorem rollback_leaves_mark :
    Reachable noCodecs noBuilders onePoint ∧ onePoint.begin.2 = .ok () ∧
      let later : List Op := [.get none (ascii "a") { n := 5 }, .begin,
        .write .writer (ascii "a") (vectorPoint 5) true {}]
      (deleteUndone.acts later).2 =
        [.point (.ok (vectorPoint 5)), .done (.ok ()), .id (.error .alreadyExists)] ∧
      ((onePoint.withCounters deleteUndone.counter).acts later).2 =
        [.point (.ok (vectorPoint 5)), .done (.ok ()), .id (.ok { n := 5 })] :=
  ⟨onePoint_reachable, by decide +kernel, by decide +kernel, by decide +kernel⟩

end Runs

end DB

end VecDb.Facade

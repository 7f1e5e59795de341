import VecDb.Facade.Restore
import VecDb.Query.Synced

/-! # Queries after an index was built

An index holds the points of the moment in which it was built. While no point leaves its place,
every query is answered from live points; a query that is given the old position of a point that
has left fails.
-/

namespace VecDb.Facade

open List Function Storage Query.Planner Query Storage.Collection

open Catalog (Codecs)

/-- What the index package promises: an index finds only the positions it was built from. -/
def Builders.Sound (builders : Builders) : Prop :=
  ∀ config vs ix, builders.build config vs = .ok ix → ∀ q k f params cs,
    ix.search q k f params = .ok cs → ∀ x ∈ cs, x.position ∈ vs.map Prod.fst

theorem Describes.ofNat_dims {codecs : Codecs} {k : UInt64} {cc : Catalog.Collection}
    {c : Storage.Collection} (h : Describes codecs k cc c) :
    UInt32.ofNat cc.storageDef.dims.toNat = c.dims := by
  rw [UInt32.ofNat_toNat]
  exact (congrArg Storage.Shape.dims h.shape).symm

namespace DB

def eventStep (codecs : Codecs) (builders : Builders) (db : DB) (ev : Event) : Except Empty DB :=
  .ok (db.step codecs builders ev)

def Has (db : DB) (k : UInt64) (id : Storage.PointID) : Prop :=
  ∃ p, db.sys.engine.lookupID k id = .ok p

/-- No point of the collection is deleted, replaced or moved. -/
def Grows (k : UInt64) (db : DB) : Event → Prop
  | .op (.write _ name p upsert _) => ∀ cc, db.handle name = .ok cc → cc.id = k → Passes cc p →
      upsert = true → ¬ db.Has k (target cc p.id)
  | .op (.delete _ name id) => ∀ cc, db.handle name = .ok cc → cc.id = k →
      ¬ db.Has k (enginePID id)
  | .op .rollback => db.log k = []
  | .op (.get _ _ _) | .op .begin | .op .commit => True
  | .compact k' => k' = k → ∀ c, db.sys.engine.colls k = some c → c.Dense
  | .ddl _ | .createIndex _ _ _ | .buildIndex _ _ | .dropIndex _ _ _ => False

def Rests (k : UInt64) (db : DB) : Event → Prop
  | .op (.write _ name p upsert _) => ∀ cc, db.handle name = .ok cc → cc.id = k → Passes cc p →
      upsert = false ∧ db.Has k (target cc p.id)
  | _ => True

variable {codecs : Codecs} {builders : Builders} {db db₁ : DB} {k : UInt64} {name : Bytes}
  {cc : Catalog.Collection} {c : Storage.Collection} {p : Point} {n : ℕ}

theorem has_iff (hc : db.sys.engine.colls k = some c) (hw : c.WF) {id : Storage.PointID} :
    db.Has k id ↔ c.idmap.fwd id ≠ none := by
  rw [Has, Engine.lookupID, hc]
  dsimp only [lookupID, IdMap.forwardLookup]
  rcases hl : c.idmap.fwd id with _ | loc
  · simp
  · obtain ⟨di, s, hd, -⟩ := hw.located id loc hl
    simp [hd]

theorem Inv.write_refused (h : db.Inv codecs) (hn : db.handle name = .ok cc) (hp : ¬ Passes cc p)
    (txn : TxnRef) (upsert : Bool) (amb : Ambient) :
    (db.act (.write txn name p upsert amb)).1.sys = db.sys := by
  obtain ⟨-, c, -, hd⟩ := h.handle hn
  dsimp only [DB.act, DB.write]
  rcases hr : db.requireWrite txn name with e | ⟨t, cc'⟩
  · rfl
  obtain ⟨-, -, hn'⟩ := requireWrite_eq_ok hr
  cases hn'.symm.trans hn
  rcases @not_passes_writeOne db _ _ _ _ t hd hp upsert amb with heq | ⟨cc₁, q, -, heq⟩ <;> rw [heq]
  rfl

section Step

variable (h : db.Inv codecs) (hc : db.sys.engine.colls k = some c) (ho : c.Owned)

include h hc ho

theorem Inv.act_placed {op : Op} (hg : Grows k db (.op op)) :
    ∃ c', (db.act op).1.sys.engine.colls k = some c' ∧ c'.Owned ∧
      (∀ x ∈ c.placed, x ∈ c'.placed) ∧ (Rests k db (.op op) → ∀ x ∈ c'.placed, x ∈ c.placed) := by
  have hw := h.sys.inv.wf hc
  have hself : (db.act op).1.sys.engine.colls k = some c → ∃ c',
      (db.act op).1.sys.engine.colls k = some c' ∧ c'.Owned ∧ (∀ x ∈ c.placed, x ∈ c'.placed) ∧
        (Rests k db (.op op) → ∀ x ∈ c'.placed, x ∈ c.placed) :=
    fun heq => ⟨c, heq, ho, fun _ hx => hx, fun _ _ hx => hx⟩
  rcases db.act_engine op k with ⟨heq, -⟩ | ⟨c₁, hc₁, hact⟩
  · exact hself (heq.trans hc)
  cases hc₁.symm.trans hc
  rcases hact with ⟨w, hcalls, hcoll, -⟩ | ⟨seq, slots, rfl, hcoll, -⟩ | ⟨rfl, hcoll, -⟩
  · cases op with
    | write txn name p upsert amb =>
      obtain ⟨cc, vec, row, hn, hk, rfl⟩ := hcalls
      by_cases hp : Passes cc p
      · refine ⟨_, hcoll, Storage.Write.run_owned hw ho _, fun x hx => ?_, fun hr x hx => ?_⟩
        · refine Storage.Write.run_placed hw ?_ hx
          cases upsert with
          | true =>
            have hnew := hg cc hn hk hp rfl
            rw [has_iff hc hw, not_not] at hnew
            exact hnew
          | false => trivial
        · obtain ⟨rfl, hhas⟩ := hr cc hn hk hp
          rwa [@Storage.Write.run_refused c (writeCall false _ _ _ _)
            ((has_iff hc hw).mp hhas)] at hx
      · refine hself ?_
        rw [h.write_refused hn hp, hc]
    | delete txn name id =>
      obtain ⟨cc, hn, hk, rfl⟩ := hcalls
      have hnone := hg cc hn hk
      rw [has_iff hc hw, not_not] at hnone
      refine hself ?_
      rw [hcoll, @Storage.Write.run_refused c (.delete _) hnone]
    | get | begin | commit | rollback => exact hcalls.elim
  · refine ⟨_, hcoll, ho.stampAll seq slots, fun x hx => ?_, fun _ x hx => ?_⟩
    · rwa [c.placed_stampAll]
    · rwa [c.placed_stampAll] at hx
  · refine hself ?_
    rw [hcoll, show db.log k = [] from hg]
    rfl

theorem Inv.compact_placed (hd : Describes codecs k cc c) {k' : UInt64}
    (ha : db.Allowed (.compact k')) (hg : Grows k db (.compact k')) :
    ∃ c', (db.compact k').sys.engine.colls k = some c' ∧ c'.Owned ∧
      (∀ x ∈ c.placed, x ∈ c'.placed) ∧ ∀ x ∈ c'.placed, x ∈ c.placed := by
  have hw := h.sys.inv.wf hc
  rw [DB.compact]
  rcases hs : db.sys.step (.compact k') with e | s
  · exact ⟨c, hc, ho, fun _ hx => hx, fun _ hx => hx⟩
  cases Storage.Sys.takes_of_step hs
  dsimp only [Engine.modifyColl]
  rw [update_apply]
  split
  case isFalse => exact ⟨c, hc, ho, fun _ hx => hx, fun _ hx => hx⟩
  case isTrue hk =>
    subst hk
    have hlen := ha c hc
    have hcodec : ∀ lr ∈ c.liveRefs,
        c.codec.decode (c.codec.encode (c.vectorOf lr)) = c.vectorOf lr := by
      intro lr hlr
      obtain ⟨y, hy⟩ : ∃ y, c.vectorOf lr = c.codec.decode y := by
        obtain ⟨di, slot, s, -, hx⟩ := hw.mem_placed.mp (hw.mem_placed_iff_liveRef.mpr ⟨lr, hlr, rfl⟩)
        exact ⟨_, congrArg Prod.snd hx⟩
      have hfp : c.codec = fp32Codec c.shape.dims.toNat := hd.codec
      rw [hy, hfp, fp32Codec_decode_encode (fp32Codec_decode_length _)]
    have hiff := fun x => @WF.mem_placed_compact c x hw hlen (hg rfl c hc) hcodec
    rw [hc]
    exact ⟨c.compact, rfl, ho.compact hw hlen, fun x => (hiff x).mpr, fun x => (hiff x).mp⟩

end Step

/-- The open collection of a name, with all points that its index was built from in their
places. -/
structure Built (codecs : Codecs) (name : Bytes) (cs : CollState) (vs : List (UInt32 × Vec))
    (db : DB) : Prop where
  inv : db.Inv codecs
  state : db.state name = .ok cs
  coll : ∃ c, db.sys.engine.colls cs.collID = some c ∧ c.Owned ∧ ∀ x ∈ vs, x ∈ c.placed

def Full (cs : CollState) (vs : List (UInt32 × Vec)) (db : DB) : Prop :=
  ∀ c, db.sys.engine.colls cs.collID = some c → ∀ x ∈ c.placed, x ∈ vs

section Built

variable {cs : CollState} {vs : List (UInt32 × Vec)}

theorem state_eq_ok : db.state name = .ok cs ↔ db.closed = false ∧ db.colls name = some cs := by
  unfold DB.state
  rcases db.closed <;> rcases db.colls name with _ | cs' <;> simp

theorem Inv.describes (h : db.Inv codecs) (hs : db.state name = .ok cs) :
    ∃ cc c, db.handle name = .ok cc ∧ cc.id = cs.collID ∧ db.cat.collections cs.collID = some cc ∧
      db.sys.engine.colls cs.collID = some c ∧ Describes codecs cs.collID cc c := by
  obtain ⟨-, hcs⟩ := state_eq_ok.mp hs
  obtain ⟨cc, hcc⟩ := Option.isSome_iff_exists.mp (h.opened name cs hcs)
  obtain ⟨c, hc, hd⟩ := h.handles _ _ hcc
  refine ⟨cc, c, ?_, hd.id, hcc, hc, hd⟩
  rw [DB.handle, hs]
  dsimp only
  rw [hcc]

theorem Built.step (h : Built codecs name cs vs db) {ev : Event} (ha : db.Allowed ev)
    (hg : Grows cs.collID db ev) :
    Built codecs name cs vs (db.step codecs builders ev) ∧ (Full cs vs db → Rests cs.collID db ev →
      Full cs vs (db.step codecs builders ev)) := by
  have hinv := @Inv.step codecs builders db h.inv ev ha
  obtain ⟨c, hc, ho, hvs⟩ := h.coll
  obtain ⟨cc, c₁, -, -, -, hc₁, hd⟩ := h.inv.describes h.state
  cases hc₁.symm.trans hc
  cases ev with
  | op op =>
    obtain ⟨c', hc', ho', hto, hfrom⟩ := h.inv.act_placed hc ho hg
    have hf := h.inv.follows_act op
    refine ⟨⟨hinv, ?_, c', hc', ho', fun x hx => hto x (hvs x hx)⟩, fun hfull hr c₂ hc₂ x hx => ?_⟩
    · have hs := state_eq_ok.mp h.state
      exact state_eq_ok.mpr ⟨hf.closed.trans hs.1, (congrFun hf.colls name).trans hs.2⟩
    · cases hc₂.symm.trans hc'
      exact hfull c hc x (hfrom hr x hx)
  | compact k' =>
    obtain ⟨c', hc', ho', hto, hfrom⟩ := h.inv.compact_placed hc ho hd ha hg
    refine ⟨⟨hinv, ?_, c', hc', ho', fun x hx => hto x (hvs x hx)⟩, fun hfull _ c₂ hc₂ x hx => ?_⟩
    · rw [← h.state, DB.step, DB.compact]
      split <;> rfl
    · cases hc'.symm.trans hc₂
      exact hfull c hc x (hfrom x hx)
  | ddl | createIndex | buildIndex | dropIndex => exact hg.elim

end Built

section Create

variable {cs cs' : CollState}

theorem buildIndexLocked_eq_ok {engine : Engine}
    (h : buildIndexLocked builders engine cc cs = (cs', .ok ())) :
    cs'.collID = cs.collID ∧ ∀ ix, cs'.index = some ix → ∃ config vs,
      engine.scanVectors cc.id (some engine.snapshot) = .ok vs ∧
      builders.build config vs = .ok ix := by
  have hconfig : ∀ (cs : CollState) (ix : Index) config,
      (withConfig cs ix config).collID = cs.collID := by
    intro cs ix config
    cases config <;> rfl
  unfold buildIndexLocked at h
  dsimp only at h
  rcases hconf : indexConfig cc { cs with index := none } with _ | config <;> rw [hconf] at h <;>
    dsimp only at h
  · split at h <;> cases h
    exact ⟨rfl, nofun⟩
  rcases hnew : builders.new config with e | empty <;> rw [hnew] at h <;> dsimp only at h
  · cases h
  rcases hscan : engine.scanVectors cc.id (some engine.snapshot) with e | vs <;> rw [hscan] at h <;>
    dsimp only at h
  · cases h
  rcases hbuild : builders.build config vs with e | index <;> rw [hbuild] at h <;> cases h
  refine ⟨hconfig _ _ _, fun ix hix => ?_⟩
  cases hix
  exact ⟨config, vs, rfl, hbuild⟩

theorem createIndex_eq_ok {canceled : Bool} {spec : IndexSpec}
    (h : db.createIndex builders canceled name spec = (db₁, .ok ())) :
    ∃ cs cc cs', db.state name = .ok cs ∧ db.cat.collections cs.collID = some cc ∧
      db₁ = { db with colls := update db.colls name (some cs') } ∧
      cs'.collID = cs.collID ∧ ∀ ix, cs'.index = some ix → ∃ config vs,
        db.sys.engine.scanVectors cc.id (some db.sys.engine.snapshot) = .ok vs ∧
        builders.build config vs = .ok ix := by
  unfold DB.createIndex DB.guard at h
  split at h
  · cases h
  rename_i hguard
  have hclosed : db.closed = false := by
    rcases hclosed : db.closed
    · rfl
    · rw [hclosed] at hguard
      split at hguard <;> cases hguard
  rcases hcs : db.colls name with _ | cs <;> rw [hcs] at h <;> dsimp only at h
  · cases h
  rcases hcc : db.cat.collections cs.collID with _ | cc <;> rw [hcc] at h <;> dsimp only at h
  · cases h
  generalize (if spec.column = [] then vectorColumn cc else spec.column) = column at h
  split at h
  case isFalse => cases h
  rw [DB.buildInto] at h
  rcases hb : buildIndexLocked builders db.sys.engine cc { cs with
    idxName := spec.name, idxType := spec.type, idxColumn := column, idxParams := spec.params }
    with ⟨cs', r⟩
  rw [hb] at h
  cases h
  obtain ⟨hid, hix⟩ := buildIndexLocked_eq_ok hb
  exact ⟨cs, cc, cs', state_eq_ok.mpr ⟨hclosed, hcs⟩, hcc, rfl, hid, hix⟩

end Create

/-- No query fails to read a point, and all points that a query gives are there. -/
structure Serves (machine : Machine) (db : DB) (name : Bytes) : Prop where
  reads : ∀ fuel ctx bq e,
    db.execWith machine fuel ctx name bq ≠ some (.error (.query (.storageRead e)))
  live : ∀ fuel ctx bq results, db.execWith machine fuel ctx name bq = some (.ok results) →
    ∀ r ∈ results, ∃ p, db.get none name r.id = .ok p

/-- A plan of the planner has the rows of the same plan on the flat path, if the index is exact
over some points and is left to filter them. -/
def Agrees (machine : Machine) (db : DB) (name : Bytes) (vs : List (UInt32 × Vec)) : Prop :=
  ∀ cs cc bq plan ix, db.state name = .ok cs → db.cat.collections cs.collID = some cc →
    ((Query.Planner.new (db.queryCollection cc cs) machine.platform 0).plan bq).2 = .ok plan →
    bq.Pushes →
    (∀ x ∈ vs, (Query.rankKernel machine.kernels plan.metric bq.vector x.2).isNaN = false) →
    cs.index = some ix →
    ix.ExactOver vs (Query.rankKernel machine.kernels plan.metric bq.vector) bq.vector →
    let e : Query.Executor := ⟨db.queryCollection cc cs, machine.workers, machine.kernels⟩
    ∃ rows, e.Runs { plan with path := .flat } bq.vector ⟨rows, false, ""⟩ ∧
      e.Runs plan bq.vector ⟨rows, false, ""⟩

section Queries

variable {machine : Machine} {cs : CollState} {vs : List (UInt32 × Vec)}

theorem execWith_eq_error {fuel : ℕ} {ctx : Ctx} {bq : BoundQuery}
    {err : QueryErr} (hs : db.state name = .ok cs) (hcc : db.cat.collections cs.collID = some cc)
    (h : db.execWith machine fuel ctx name bq = some (.error (.query err))) :
    ((Planner.new (db.queryCollection cc cs) machine.platform 0).plan bq).2 = .error err ∨
      ∃ plan, ((Planner.new (db.queryCollection cc cs) machine.platform 0).plan bq).2 =
        .ok plan ∧ (⟨db.queryCollection cc cs, machine.workers, machine.kernels⟩ :
          Executor).execute fuel (fun i => ctx (i + 1)) plan bq.vector = some (.error err) := by
  unfold execWith at h
  rw [hs] at h
  dsimp only at h
  rw [hcc] at h
  dsimp only at h
  split at h
  · cases h
  split at h
  · cases h
  split at h
  · rename_i e he
    cases h
    exact .inl he
  · rename_i plan hplan
    obtain ⟨r, hr, h⟩ := Option.map_eq_some_iff.mp h
    rcases r with e | rs <;> cases h
    exact .inr ⟨plan, hplan, hr⟩

theorem Built.serves (h : Built codecs name cs vs db) (hg : db.InGrid)
    (hix : ∀ ix, cs.index = some ix → ∀ q k f params found, ix.search q k f params = .ok found →
      ∀ x ∈ found, x.position ∈ vs.map Prod.fst) : Serves machine db name := by
  obtain ⟨c, hc, ho, hvs⟩ := h.coll
  obtain ⟨cc, c₁, hn, hid, hcc, hc₁, hd⟩ := h.inv.describes h.state
  cases hc₁.symm.trans hc
  have hw := h.inv.sys.inv.wf hc
  have hfinds : ∀ ix, cs.index = some ix → ix.Finds c := by
    intro ix hsome q k f params found hfound x hx
    obtain ⟨y, hy, heq⟩ := mem_map.mp (hix ix hsome q k f params found hfound x hx)
    rw [← heq]
    exact hw.liveAt_of_placed (hg _ _ hc) (hvs y hy)
  rw [← hid] at hc hd
  constructor
  · intro fuel ctx bq e hq
    rcases execWith_eq_error h.state hcc hq with hplan | ⟨plan, hplan, hexec⟩
    · exact plan_ne_storageRead hplan
    · obtain ⟨hk, -, hfor⟩ := plan_for hplan
      rcases Executor.execute_eq_error hc hw (hg _ _ hc) hd.ofNat_dims
        (visibleIn_snapshot db none) hfinds hfor (by rw [hfor.k]; omega) hexec with h | h | ⟨e, h⟩ <;>
        cases h
  · intro fuel ctx bq results hq r hr
    obtain ⟨T, hT⟩ := h.inv.holds hc
    obtain ⟨id, e, he, hrid, -⟩ := execWith_row hn hd hT ho hq r hr
    refine ⟨pointOf cc id e, ?_⟩
    rw [get_eq hn hT.coll hT.stores (hg _ _ hc), hrid]
    have he' : T.now (enginePID { n := id }) = some e := he
    rw [he']
    rfl

theorem Built.agrees (h : Built codecs name cs vs db) (hfull : Full cs vs db) (hg : db.InGrid) :
    Agrees machine db name vs := by
  obtain ⟨c, hc, -, hvs⟩ := h.coll
  have hw := h.inv.sys.inv.wf hc
  intro cs' cc bq plan ix hs hcc hplan hpush hnum hix hexact
  cases hs.symm.trans h.state
  obtain ⟨cc', c₁, -, hid, hcc', hc₁, hd⟩ := h.inv.describes h.state
  cases hcc'.symm.trans hcc
  cases hc₁.symm.trans hc
  obtain ⟨hk, hvec, hfor⟩ := plan_for hplan
  have hvis := visibleIn_snapshot db none
  have hsame : ∀ x, x ∈ vs ↔ x ∈ c.placed := fun x => ⟨hvs x, hfull c hc x⟩
  rw [← hid] at hc
  refine Executor.exact_eq_flat hc hw (hg _ _ hc) hd.ofNat_dims hvec hfor
    (by rw [hfor.k]; exact hk) (plan_pushes hplan hpush) ?_ hix
    (hexact.exact hw hsame hvis)
  rintro x ⟨di, slot, s, hl, -, rfl⟩
  exact hnum _ ((hsame _).mpr (hw.mem_placed.mpr ⟨di, slot, s, hl, rfl⟩))

/-- After an index was created, while no point is deleted, replaced or moved, no query fails to
read a point or gives one that is not there; while none is added either, an exact index gives the
rows of the flat scan. -/
theorem index_in_step (hr : Reachable codecs builders db) (hb : builders.Sound) {canceled : Bool}
    {spec : IndexSpec} (hi : db.createIndex builders canceled name spec = (db₁, .ok ()))
    (hn : db₁.handle name = .ok cc) (hc : db₁.sys.engine.colls cc.id = some c) (ho : c.Owned)
    {events : List Event} (hev : Along (eventStep codecs builders)
      (fun db ev => db.Allowed ev ∧ Grows cc.id db ev) db₁ events) (machine : Machine) :
    ∀ db₂ ∈ visited (eventStep codecs builders) db₁ events, db₂.InGrid →
      Serves machine db₂ name ∧
      (Along (eventStep codecs builders) (Rests cc.id) db₁ events →
        Agrees machine db₂ name c.placed) := by
  have hinv : db₁.Inv codecs := by
    have := (@Reachable.step _ _ _ (.createIndex canceled name spec) hr trivial).inv
    rwa [DB.step, hi] at this
  obtain ⟨cs, cc₀, cs', hs, hcc, hdb₁, hcid, hbuilt⟩ := createIndex_eq_ok hi
  have hs' : db₁.state name = .ok cs' := by
    rw [hdb₁, state_eq_ok]
    exact ⟨(state_eq_ok.mp hs).1, update_self ..⟩
  obtain ⟨cc₁, c₁, hn₁, hid, hcc₁, hc₁, -⟩ := hinv.describes hs'
  cases hn₁.symm.trans hn
  obtain rfl : c₁ = c := Option.some.inj (hc₁.symm.trans (hid ▸ hc))
  have hcc₀ : cc₀ = cc := by
    rw [hdb₁, hcid] at hcc₁
    exact Option.some.inj (hcc.symm.trans hcc₁)
  -- the index was built from the points that are live now
  have hsound : ∀ ix, cs'.index = some ix → ∀ q k f params found,
      ix.search q k f params = .ok found → ∀ x ∈ found, x.position ∈ c₁.placed.map Prod.fst := by
    intro ix hix
    obtain ⟨config, vs, hscan, hbuild⟩ := hbuilt ix hix
    rw [hdb₁] at hc
    rw [hcc₀, Engine.scanVectors, hc] at hscan
    obtain rfl : c₁.placed = vs := by
      rw [← Storage.Collection.scanVectors_eq_placed (visibleIn_snapshot db none)]
      exact Except.ok.inj hscan
    exact hb config _ ix hbuild
  have hstart : Built codecs name cs' c₁.placed db₁ := ⟨hinv, hs', c₁, hc₁, ho, fun _ hx => hx⟩
  have hfull : Full cs' c₁.placed db₁ := by
    intro c' hc' x hx
    rwa [← Option.some.inj (hc₁.symm.trans hc')] at hx
  rw [hid] at hev ⊢
  intro db₂ hdb₂ hg
  constructor
  · refine Built.serves (hev.visited (fun db ev db' h hp hstep => ?_) hstart db₂ hdb₂) hg hsound
    cases hstep
    exact (h.step hp.1 hp.2).1
  · intro hrests
    have hboth := (hev.and hrests).visited (I := fun db => Built codecs name cs' c₁.placed db ∧
      Full cs' c₁.placed db) (fun db ev db' h hp hstep => ?_) ⟨hstart, hfull⟩ db₂ hdb₂
    · exact hboth.1.agrees hboth.2 hg
    · cases hstep
      have := @Built.step codecs builders db name cs' c₁.placed h.1 ev hp.1.1 hp.1.2
      exact ⟨this.1, this.2 h.2 hp.2⟩

end Queries

section Stale

variable {cs : CollState} {id : PointID} {loc : IdLoc} {di : ℕ}

def deleting (name : Bytes) (id : PointID) : List Op := [.begin, .delete .writer name id, .commit]

theorem Inv.acts_deleting (h : db.Inv codecs) (hw : db.sys.writer = none)
    (hro : db.readOnly = false) (hn : db.handle name = .ok cc)
    (hc : db.sys.engine.colls cc.id = some c) (hl : c.idmap.fwd (enginePID id) = some loc)
    (hd : c.dirOf loc.segSeq = some di) :
    (db.acts (deleting name id)).2 = [.done (.ok ()), .done (.ok ()), .done (.ok ())] ∧
      Follows db (db.acts (deleting name id)).1 ∧ ∃ seq slots,
        (db.acts (deleting name id)).1.sys.engine.colls cc.id =
          some ((c.dropAt di (enginePID id) loc.slotPos).stampAll seq slots) := by
  have hfollows := h.follows_acts (deleting name id)
  obtain ⟨hclosed, -⟩ := handle_eq_ok hn
  obtain ⟨db₁, t, hbegin, ht, hn₁, hc₁⟩ : ∃ db₁ t, db.act .begin = (db₁, .done (.ok ())) ∧
      db₁.sys.writer = some t ∧ db₁.handle name = .ok cc ∧ db₁.sys.engine.colls cc.id = some c := by
    refine ⟨{ db with sys := ⟨db.sys.engine.begin.1, some db.sys.engine.begin.2, none⟩ },
      db.sys.engine.begin.2, ?_, rfl, hn, hc⟩
    simp only [DB.act, DB.begin, hclosed, hro, hw, Bool.false_eq_true, if_false]
  obtain ⟨db₂, t₂, hdelete, ht₂, hc₂⟩ : ∃ db₂ t₂, db₁.act (.delete .writer name id) =
      (db₂, .done (.ok ())) ∧ db₂.sys.writer = some t₂ ∧
      db₂.sys.engine.colls cc.id = some (c.dropAt di (enginePID id) loc.slotPos) := by
    have hrun : (Storage.Write.delete (enginePID id)).run { coll := c } =
        (⟨c.dropAt di (enginePID id) loc.slotPos, [],
          [.delete di loc.slotPos (enginePID id) loc.segSeq]⟩, none) := by
      rw [Storage.Write.run, @Storage.Draft.delete_eq { coll := c } _ _ _ hl hd]
      rfl
    obtain ⟨hcolls, -, -, -, herr⟩ := @Storage.Engine.call_some db₁.sys.engine t cc.id c
      (.delete (enginePID id)) hc₁
    rw [hrun] at hcolls herr
    simp only [DB.act, DB.delete, DB.requireWrite, ht, hn₁, Except.map, callEngine_eq, herr]
    refine ⟨_, _, rfl, rfl, ?_⟩
    dsimp only [DB.setHandle]
    rw [hcolls, update_self]
  obtain ⟨hcommit, seq, slots, hc₃⟩ : (db₂.act .commit).2 = .done (.ok ()) ∧ ∃ seq slots,
      (db₂.act .commit).1.sys.engine.colls cc.id =
        some ((c.dropAt di (enginePID id) loc.slotPos).stampAll seq slots) := by
    refine ⟨by simp only [DB.act, DB.commit, ht₂], ?_⟩
    rcases db₂.act_engine .commit cc.id with ⟨heq, -⟩ | ⟨c', hc', hact⟩
    · exact ⟨0, [], heq.trans hc₂⟩
    · cases hc₂.symm.trans hc'
      rcases hact with ⟨_, hw, -⟩ | ⟨seq, slots, -, heq, -⟩ | ⟨hop, -⟩
      · exact hw.elim
      · exact ⟨seq, slots, heq⟩
      · cases hop
  have hacts : db.acts (deleting name id) = ((db₂.act .commit).1,
      [.done (.ok ()), .done (.ok ()), .done (.ok ())]) := by
    simp only [deleting, DB.acts, hbegin, hdelete, hcommit]
  rw [hacts] at hfollows ⊢
  exact ⟨rfl, hfollows, seq, slots, hc₃⟩

def allPoints (c : Storage.Collection) (vec : Vec) : Query.BoundQuery :=
  { vector := vec, k := c.placed.length }

theorem over_gives {l : List (UInt32 × Vec)} {x : UInt32 × Vec} (hx : x ∈ l)
    (kernel : Vec → Vec → Float32) (vec : Vec) {k : ℤ} (hk : k = l.length) : ∃ found,
      (∀ params, (Index.over l kernel).search vec k none params = .ok found) ∧
        (⟨x.1, kernel vec x.2⟩ : Candidate) ∈ topK k found := by
  have hpos := length_pos_of_mem hx
  refine ⟨_, fun _ => congrArg Except.ok (if_neg (by omega)), ?_⟩
  rw [List.filter_eq_self.mpr (by simp [admits]), mem_topK, mem_topK]
  · exact mem_map.mpr ⟨x, hx, rfl⟩
  · rw [length_map, hk]
  · rw [length_topK, length_map]
    omega

theorem Inv.deleting_fails (h : db.Inv codecs) (hg : c.InGrid) (hw : db.sys.writer = none)
    (hro : db.readOnly = false) (hs : db.state name = .ok cs)
    (hc : db.sys.engine.colls cs.collID = some c) {kernel : Vec → Vec → Float32}
    (hix : cs.index = some (.over c.placed kernel)) (hkind : cs.idxKind ≠ .flat)
    (hhas : db.Has cs.collID (enginePID id)) {ids : List Storage.PointID} (hnodup : ids.Nodup)
    (hids : ∀ id' ∈ ids, id' ≠ enginePID id ∧ db.Has cs.collID id')
    (hlen : flatRowThreshold < ids.length) {vec : Vec} (hvec : vec.length = c.dims.toNat) :
    (db.acts (deleting name id)).2 = [.done (.ok ()), .done (.ok ()), .done (.ok ())] ∧
      ∀ machine, ∃ e, (db.acts (deleting name id)).1.execWith machine 1 (fun _ => none) name
        (allPoints c vec) = some (.error (.query (.storageRead e))) := by
  obtain ⟨cc, c₁, hname, hid, -, hc₁, hdesc⟩ := h.describes hs
  cases hc₁.symm.trans hc
  have hwf := h.sys.inv.wf hc
  rw [has_iff hc hwf] at hhas
  obtain ⟨loc, hl⟩ := Option.ne_none_iff_exists'.mp hhas
  obtain ⟨di, -, hd, -⟩ := hwf.located _ loc hl
  obtain ⟨hreplies, hfollows, seq, slots, hc₂⟩ := h.acts_deleting hw hro hname (hid ▸ hc) hl hd
  obtain ⟨x, hx, hgone⟩ := hwf.placed_dropAt hg hl hd
  refine ⟨hreplies, fun machine => ?_⟩
  have hinv := h.acts (deleting name id)
  generalize (db.acts (deleting name id)).1 = db₂ at hfollows hc₂ hinv
  have hs₂ : db₂.state name = .ok cs := by
    obtain ⟨hclosed, hcs⟩ := state_eq_ok.mp hs
    exact state_eq_ok.mpr
      ⟨hfollows.closed.trans hclosed, (congrFun hfollows.colls name).trans hcs⟩
  obtain ⟨cc₂, c₂, -, hid₂, hcc₂, hc₂', hdesc₂⟩ := hinv.describes hs₂
  rw [hid] at hc₂
  obtain rfl := Option.some.inj (hc₂'.symm.trans hc₂)
  have hwf₂ := hinv.sys.inv.wf hc₂
  rw [← hid₂] at hc₂
  obtain ⟨segs, hkept⟩ :=
    (c.dropAt di (enginePID id) loc.slotPos).stampAll_keeps seq slots
  have hdims : vec.length = (db₂.queryCollection cc₂ cs).dims := by
    have hofNat := hdesc₂.ofNat_dims
    rw [UInt32.ofNat_toNat, hkept] at hofNat
    rw [hvec, queryCollection, hofNat]
    rfl
  have hrows : flatRowThreshold < (db₂.queryCollection cc₂ cs).liveRows := by
    have hle := hwf₂.length_le_live hnodup fun id' hid' => by
      obtain ⟨hne, hhas'⟩ := hids id' hid'
      rw [hkept]
      exact (update_of_ne hne ..).trans_ne ((has_iff hc hwf).mp hhas')
    rw [Collection.liveRows, Engine.collectionStats]
    dsimp only [queryCollection]
    rw [hc₂]
    dsimp only
    omega
  have hpos := length_pos_of_mem hx
  obtain ⟨plan, hplan, hpath, hfilter, hrerank, hk, hproject⟩ :=
    @Planner.plan_index (db₂.queryCollection cc₂ cs) machine.platform (allPoints c vec)
      (by dsimp only [allPoints]; omega) hdims le_rfl (by rw [queryCollection, hix]; rfl) hrows rfl
      le_rfl
  have hstale : ∀ id', db₂.sys.engine.lookupPos cc₂.id x.1 ≠ .ok id' := by
    intro id' hpos
    rw [Engine.lookupPos, hc₂] at hpos
    obtain ⟨y, hy, heq⟩ := hwf₂.placed_of_lookupPos hpos
    rw [placed_stampAll] at hy
    exact hgone y hy heq
  -- the index gives the position of the point still
  obtain ⟨found, hfound, hin⟩ := over_gives hx kernel vec hk
  obtain ⟨e, hexec⟩ := @Executor.execute_stale _ plan vec found
    ⟨x.1, kernel vec x.2⟩ ⟨db₂.queryCollection cc₂ cs, machine.workers, machine.kernels⟩
    (fun _ => none) hdims hix (hpath ▸ hkind) hfilter hrerank hproject hfound hin hstale rfl 0
  refine ⟨e, ?_⟩
  unfold execWith
  rw [hs₂]
  dsimp only
  rw [hcc₂]
  dsimp only
  have hvector : (allPoints c vec).vector = vec := rfl
  rw [Option.isSome_none, if_neg Bool.false_ne_true, hvector, if_neg (not_not_intro hdims), hplan]
  dsimp only
  rw [hexec]
  rfl

end Stale

section Runs

/-- The list of its points as an index; all of them are taken to be equally far. -/
def listed : Builders where
  new _ := .ok (.over [] fun _ _ => ⟨0⟩)
  build _ vs := .ok (.over vs fun _ _ => ⟨0⟩)

theorem listed_sound : listed.Sound := by
  intro config vs ix hbuild q k f params found hfound
  cases hbuild
  exact Index.mem_over hfound

theorem createIndex_listed {cs : CollState} (hs : db.state name = .ok cs)
    (hro : db.readOnly = false) (hcc : db.cat.collections cs.collID = some cc)
    (hcol : hasVectorColumn cc (vectorColumn cc) = true) (hc : db.sys.engine.colls cc.id = some c) :
    ∃ cs', db.createIndex listed false name { name := ascii "i", type := .hnsw } =
        ({ db with colls := update db.colls name (some cs') }, .ok ()) ∧
      cs'.collID = cs.collID ∧ cs'.index = some (.over c.placed fun _ _ => ⟨0⟩) ∧
      cs'.idxKind = .hnsw := by
  obtain ⟨hclosed, hcs⟩ := state_eq_ok.mp hs
  have hscan : db.sys.engine.scanVectors cc.id (some db.sys.engine.snapshot) = .ok c.placed := by
    rw [Engine.scanVectors, hc]
    exact congrArg Except.ok
      (scanVectors_eq_placed (visibleIn_snapshot db none))
  unfold DB.createIndex DB.guard
  simp only [hclosed, hro, hcs, hcc, hcol, Bool.false_eq_true, if_false, if_true, buildInto,
    buildIndexLocked, indexConfig, listed, withConfig, hscan]
  exact ⟨_, rfl, rfl, rfl, rfl⟩

def stock (n : ℕ) : List Point := (List.range n).map fun i => vectorPoint (.ofNat (i + 1))

def stocked (n : ℕ) : DB :=
  ((opened (vectorPoint 6000)).acts ((stock n).map fun p => .write .writer (ascii "a") p true {})).1.commit.1

theorem opened_room (hn : n ≤ 6000) : (opened (vectorPoint 6000)).Room n := by
  intro k c hc
  have hinv := (@opened_kept noBuilders (vectorPoint 6000)).reachable.inv
  obtain rfl | rfl :=
    eq_zero_or_one (hinv.fresh (by decide +kernel) k (Option.isSome_of_eq_some hc))
  · cases hc
  · have hle : c.segs.length * c.capacity.toNat ≤ 2 ^ 31 := by
      cases hc
      decide +kernel
    exact ⟨_, (hinv.sys.inv.wf hc).within, by omega⟩

theorem mem_stock {p : Point} : p ∈ stock n ↔ ∃ i < n, p = vectorPoint (.ofNat (i + 1)) := by
  simp only [stock, mem_map, mem_range, eq_comm]

theorem ofNat_succ {i : ℕ} (hi : i < 6000) : (UInt64.ofNat (i + 1)).toNat = i + 1 := by
  rw [UInt64.toNat_ofNat', Nat.mod_eq_of_lt (by omega)]

theorem nodup_numbers (hn : n ≤ 6000) :
    ((List.range n).map fun i => UInt64.ofNat (i + 1)).Nodup := by
  refine (nodup_map_iff_inj_on nodup_range).mpr fun i hi j hj heq => ?_
  rw [mem_range] at hi hj
  have := congrArg UInt64.toNat heq
  rw [ofNat_succ (by omega), ofNat_succ (by omega)] at this
  omega

theorem stocked_kept (n : ℕ) : Kept noCodecs builders (stocked n) := by
  refine @Kept.acts _ _ _ (@Kept.acts _ _ _ (opened_kept (vectorPoint 6000))
    ((stock n).map fun p => .write .writer (ascii "a") p true {}) ?_) [.commit] (by simp)
  intro op hop
  obtain ⟨p, -, rfl⟩ := mem_map.mp hop
  exact nofun

theorem stocked_idle (n : ℕ) : (stocked n).readOnly = false ∧ (stocked n).sys.writer = none := by
  constructor
  · exact (act_readOnly _ .commit).trans ((acts_readOnly _ _).trans rfl)
  · rw [stocked, DB.commit]
    split
    · assumption
    · rfl

theorem stocked_room (hn : n ≤ 5990) : (stocked n).Room 5 := by
  have hinv := (@opened_kept noBuilders (vectorPoint 6000)).reachable.inv
  refine Room.act (hinv.room_acts (opened_room ?_)) (fun _ _ hc => (hinv.acts _).sys.inv.wf hc)
    .commit
  rw [length_map, stock, length_map, length_range]
  omega

theorem stocked_has (hn : n ≤ 5990) : ∃ cc c, (stocked n).handle (ascii "a") = .ok cc ∧
    cc.id = 1 ∧ hasVectorColumn cc (vectorColumn cc) = true ∧
    (stocked n).sys.engine.colls 1 = some c ∧ c.InGrid ∧ c.dims = 1 ∧
    ∀ i < n, (stocked n).Has 1 (.ofNat (i + 1)) := by
  have hkept := @opened_kept noBuilders (vectorPoint 6000)
  have hinv := hkept.reachable.inv
  obtain ⟨cc, hname, hid, hseq, hcol, hdims, hpass⟩ : ∃ cc,
      (opened (vectorPoint 6000)).handle (ascii "a") = .ok cc ∧ cc.id = 1 ∧ cc.identity.seq = 6001 ∧
      hasVectorColumn cc (vectorColumn cc) = true ∧ cc.storageDef.dims = 1 ∧
      ∀ m ≠ 0, Passes cc (vectorPoint m) := by
    refine ⟨_, rfl, rfl, rfl, rfl, rfl, fun m hm => ⟨⟨[0], rfl, rfl⟩, ?_, _, rfl⟩⟩
    have hsupplied : suppliedID (vectorPoint m).id = some (.bigInt m) :=
      suppliedID_number.trans (if_neg hm)
    rw [hsupplied]
    exact ⟨_, rfl⟩
  obtain ⟨-, c₀, hc₀, hd⟩ := hinv.handle hname
  obtain ⟨T₀, hT₀⟩ := hinv.holds hc₀
  have hrew : Rewriting noCodecs (ascii "a") cc T₀.now (opened (vectorPoint 6000)) cc.identity :=
    ⟨hinv, nofun, hname, c₀, T₀, hT₀, hkept.owned _ _ hc₀, rfl⟩
  have hps : ∀ p ∈ stock n, ∃ m, p.id = { n := m } ∧ m < cc.identity.seq := by
    intro p hp
    obtain ⟨i, hi, rfl⟩ := mem_stock.mp hp
    refine ⟨_, rfl, ?_⟩
    rw [hseq, UInt64.lt_iff_toNat_lt, ofNat_succ (by omega)]
    change i + 1 < 6001
    omega
  have hnodup : ((stock n).map fun p => p.id.n).Nodup := by
    rw [stock, map_map]
    exact nodup_numbers (by omega)
  have hops : List.Forall₂ (WritesBack (ascii "a")) (stock n)
      ((stock n).map fun p => .write .writer (ascii "a") p true {}) :=
    forall₂_map_right_iff.mpr (forall₂_same.mpr fun p _ => ⟨{}, rfl⟩)
  obtain ⟨i, hrun⟩ := hrew.acts hd (.refl _ _) hps hnodup hops
  obtain ⟨cc', c, T, hname', hr, hT, -, hnow⟩ := hrun.commit
  obtain ⟨_, _, -, rfl⟩ := hr
  have hg := (stocked_room hn).inGrid _ _ hT.coll
  refine ⟨_, c, hname', hid, hcol, hid ▸ hT.coll, hg, ?_, fun j hj => ?_⟩
  · obtain ⟨-, c', hc', hd'⟩ := (hrun.inv.act .commit).handle hname'
    cases hc'.symm.trans hT.coll
    have hofNat := hd'.ofNat_dims
    rw [UInt32.ofNat_toNat, show cc.storageDef.dims = 1 from hdims] at hofNat
    exact hofNat.symm
  · have hne : UInt64.ofNat (j + 1) ≠ 0 := by
      intro heq
      have := congrArg UInt64.toNat heq
      rw [ofNat_succ (by omega)] at this
      cases this
    have hnow' := @foldl_rewritten_of_mem cc _ _ c₀.shape T₀.now (nodup_targets hps hnodup)
      (mem_stock.mpr ⟨j, hj, rfl⟩) (hpass _ hne)
    have htarget : target cc (vectorPoint (.ofNat (j + 1))).id = .ofNat (j + 1) :=
      target_number.trans (if_neg hne)
    rw [htarget, ← hnow] at hnow'
    obtain ⟨p, hp, -⟩ := hT.stores.fetch hg hnow'
    refine ⟨p, ?_⟩
    have hcoll : (stocked n).sys.engine.colls 1 = some c := hid ▸ hT.coll
    rw [Engine.lookupID, hcoll]
    exact hp

section Indexed

variable {n : ℕ}

theorem stocked_indexed (hn : n ≤ 5990) : ∃ db₁ cs cc c,
    (stocked n).createIndex listed false (ascii "a") { name := ascii "i", type := .hnsw } =
      (db₁, .ok ()) ∧
    db₁.Inv noCodecs ∧ db₁.sys = (stocked n).sys ∧ db₁.readOnly = false ∧ db₁.state (ascii "a") = .ok cs ∧
    db₁.handle (ascii "a") = .ok cc ∧ cc.id = 1 ∧ cs.collID = 1 ∧
    (stocked n).sys.engine.colls 1 = some c ∧ c.dims = 1 ∧
    cs.index = some (.over c.placed fun _ _ => ⟨0⟩) ∧ cs.idxKind = .hnsw := by
  obtain ⟨hro, -⟩ := stocked_idle n
  have hreach := (@stocked_kept listed n).reachable
  obtain ⟨cc, c, hname, hid, hcol, hc, -, hdims, -⟩ := stocked_has hn
  generalize stocked n = db at *
  obtain ⟨hclosed, cs, hcs, hcc⟩ := handle_eq_ok hname
  obtain ⟨cs', hcreate, hid', hix, hkind⟩ :=
    createIndex_listed (state_eq_ok.mpr ⟨hclosed, hcs⟩) hro hcc hcol (hid.symm ▸ hc)
  have hinv := (@Reachable.step _ _ _
    (.createIndex false (ascii "a") { name := ascii "i", type := .hnsw }) hreach trivial).inv
  rw [DB.step, hcreate] at hinv
  have hcoll : cs'.collID = 1 := by
    obtain ⟨c', -, hd⟩ := hreach.inv.handles _ _ hcc
    rw [hid', ← hd.id, hid]
  have hs : DB.state { db with colls := update db.colls (ascii "a") (some cs') }
      (ascii "a") = .ok cs' :=
    state_eq_ok.mpr ⟨hclosed, update_self (ascii "a") (some cs') db.colls⟩
  obtain ⟨cc₁, -, hname₁, hid₁, -⟩ := hinv.describes hs
  exact ⟨_, cs', cc₁, c, hcreate, hinv, rfl, hro, hs, hname₁, hid₁.trans hcoll, hcoll, hc, hdims, hix, hkind⟩

end Indexed

theorem index_in_step_insert : ∃ db₁,
    (stocked 3).createIndex listed false (ascii "a") { name := ascii "i", type := .hnsw } =
      (db₁, .ok ()) ∧
    ∀ machine, Serves machine (db₁.acts
      [.begin, .write .writer (ascii "a") (vectorPoint 7) false {}, .commit]).1 (ascii "a") := by
  have hkept := @stocked_kept listed 3
  obtain ⟨db₁, cs, cc, c, hcreate, -, hsys, -, -, hname, hid, -, hc, -⟩ := @stocked_indexed 3 (by omega)
  have hroom := @stocked_room 3 (by omega)
  refine ⟨db₁, hcreate, fun machine => ?_⟩
  have hindexed := @Kept.step _ _ _
    (.createIndex false (ascii "a") { name := ascii "i", type := .hnsw }) hkept trivial
    (by intro h; cases h)
  rw [DB.step, hcreate] at hindexed
  rw [← hsys] at hc
  have hroom₁ : db₁.Room 5 := fun k c hc => hroom k c (hsys ▸ hc)
  let events : List Event :=
    [.op .begin, .op (.write .writer (ascii "a") (vectorPoint 7) false {}), .op .commit]
  refine (@index_in_step _ _ _ _ _ _ _ hkept.reachable listed_sound _ _ hcreate hname (hid ▸ hc)
    (hindexed.owned _ c hc) events ?_ machine _ ?_ ?_).1
  · refine ⟨⟨trivial, trivial⟩, fun _ _ => ⟨⟨trivial, fun _ _ _ _ h => by cases h⟩, fun _ _ => ?_⟩⟩
    exact ⟨⟨trivial, trivial⟩, fun _ _ => trivial⟩
  · simp [events, visited, eventStep, DB.step, DB.acts]
  · have hdone := @Inv.room_acts db₁ _
      [.begin, .write .writer (ascii "a") (vectorPoint 7) false {}, .commit]
      hindexed.reachable.inv 2 hroom₁
    exact hdone.inGrid

/-- Once one of 5002 points is deleted, the index of before makes a query fail. -/
theorem deleted_point_fails_query : ∃ db₁ bq, Reachable noCodecs listed (stocked 5002) ∧
    (stocked 5002).createIndex listed false (ascii "a") { name := ascii "i", type := .hnsw } =
      (db₁, .ok ()) ∧
    (db₁.acts (deleting (ascii "a") { n := 5002 })).2 =
      [.done (.ok ()), .done (.ok ()), .done (.ok ())] ∧
    ∀ machine, ∃ e, (db₁.acts (deleting (ascii "a") { n := 5002 })).1.execWith machine 1
      (fun _ => none) (ascii "a") bq = some (.error (.query (.storageRead e))) := by
  have hreach := (@stocked_kept listed 5002).reachable
  obtain ⟨-, hw⟩ := stocked_idle 5002
  obtain ⟨db₁, cs, -, c, hcreate, hinv, hsys, hro, hs, -, -, hcoll, hc, hdims, hix, hkind⟩ :=
    @stocked_indexed 5002 (by omega)
  obtain ⟨-, c', -, -, -, hc', hg, -, hhas⟩ := @stocked_has 5002 (by omega)
  cases hc'.symm.trans hc
  have hhas₁ : ∀ i < 5002, db₁.Has cs.collID (.ofNat (i + 1)) := by
    intro i hi
    rw [Has, hsys, hcoll]
    exact hhas i hi
  rw [← hsys] at hw hc
  refine ⟨db₁, allPoints c [0], hreach, hcreate, ?_⟩
  refine @Inv.deleting_fails _ db₁ _ _ cs { n := 5002 } hinv hg hw hro hs (hcoll ▸ hc) _ hix
    (by rw [hkind]; intro h; cases h) (hhas₁ 5001 (by omega)) _ (@nodup_numbers 5001 (by omega)) ?_ ?_ _ ?_
  · intro id hmem
    obtain ⟨j, hj, rfl⟩ := mem_map.mp hmem
    rw [mem_range] at hj
    refine ⟨fun heq => ?_, hhas₁ j (by omega)⟩
    have := congrArg UInt64.toNat heq
    rw [ofNat_succ (by omega)] at this
    change j + 1 = 5002 at this
    omega
  · rw [length_map, length_range]
    decide
  · rw [hdims]
    rfl

end Runs

end DB

end VecDb.Facade

import VecDb.Query.Exact
import VecDb.Query.Rows
import VecDb.Storage.Placed

/-! # Indexes in step with their collection

An index that gives positions of live points only does not make a query fail. If it is exact as
well, the index path gives the rows of the flat path, unless it filters after the search.
-/

namespace VecDb.Query

open Mvcc Storage Fallible List Collection Planner PhysicalPlan

/-- The index gives positions of live points only. -/
def Index.Finds (ix : Index) (c : Storage.Collection) : Prop :=
  ∀ q k f params cs, ix.search q k f params = .ok cs → ∀ x ∈ cs, c.LiveAt x.position

/-- The index answers every search for the vector exactly, over the points it was built from. -/
def Index.ExactOver (ix : Index) (vs : List (UInt32 × Vec)) (dist : Vec → Float32) (q : Vec) :
    Prop :=
  ∀ k f params, ∃ cs, ix.search q k f params = .ok cs ∧ Lowest Candidate.rank
    {x | (∃ y ∈ vs, x = ⟨y.1, dist y.2⟩) ∧ admits f x.position = true} k.toNat cs

variable {vs : List (UInt32 × Vec)} {ix : Index}

theorem Index.ExactOver.exact {dist : Vec → Float32}
    {q : Vec} (h : ix.ExactOver vs dist q) {c : Storage.Collection} (hw : c.WF)
    (hvs : ∀ x, x ∈ vs ↔ x ∈ c.placed) {snap : Option Snapshot}
    (hvis : ∀ ver, visibleIn snap ver = true) : ix.Exact c snap dist q := by
  have hset : candidates c snap dist = {x | ∃ y ∈ vs, x = ⟨y.1, dist y.2⟩} := by
    ext x
    simp only [candidates, Set.mem_ofPred_eq, hvs, hw.mem_placed, hvis, true_and]
    constructor
    · rintro ⟨di, slot, s, hl, rfl⟩
      exact ⟨_, ⟨di, slot, s, hl, rfl⟩, rfl⟩
    · rintro ⟨_, ⟨di, slot, s, hl, rfl⟩, rfl⟩
      exact ⟨di, slot, s, hl, rfl⟩
  intro k f params
  rw [hset]
  exact h k f params

def Index.over (vs : List (UInt32 × Vec)) (kernel : Vec → Vec → Float32) : Index where
  search q k f _ := .ok (if k < 1 then []
    else topK k ((vs.filter fun x => admits f x.1).map fun x => ⟨x.1, kernel q x.2⟩))
  length_le h := by
    cases h
    exact length_searched
  within h x hx := by
    cases h
    obtain ⟨y, hy, rfl⟩ := mem_map.mp (mem_searched hx)
    exact (mem_filter.mp hy).2

theorem Index.mem_over {kernel : Vec → Vec → Float32} {q : Vec} {k : ℤ}
    {f : Option BitmapFilter} {params : SearchParams} {cs : List Candidate}
    (h : (Index.over vs kernel).search q k f params = .ok cs) :
    ∀ x ∈ cs, x.position ∈ vs.map Prod.fst := by
  cases h
  intro x hx
  obtain ⟨y, hy, rfl⟩ := mem_map.mp (mem_searched hx)
  exact mem_map.mpr ⟨y, mem_of_mem_filter hy, rfl⟩

variable {c : Storage.Collection} {ec : ExecContext} {plan : PhysicalPlan} {vector : Vec} {ef : ℤ}
  {bm : PositionBitmap} {bitmap : Option PositionBitmap} {cs ds : List Candidate} {x : Candidate}
  {err : QueryErr}

section Source

variable (hc : ec.coll.engine.colls ec.coll.collID = some c)
include hc

theorem picks_live (hw : c.WF) (hdims : UInt32.ofNat ec.coll.dims = c.dims) (hk : 0 ≤ plan.k)
    (hcs : ∀ x ∈ cs, c.LiveAt x.position) :
    ∃ ds, Picks ec plan vector bm cs ds ∧ ∀ x ∈ ds, c.LiveAt x.position := by
  unfold Picks
  split
  · have hres : ∀ x ∈ cs, ∃ y, Rescored ec vector plan.metric x y := by
      intro x hx
      obtain ⟨di, slot, s, hl, hp⟩ := hcs x hx
      have hfetch : ec.coll.engine.fetchVector ec.coll.collID x.position ec.coll.dims =
          .ok (c.codec.decode (s.data slot)) := by
        rw [Engine.fetchVector, hc]
        exact hl.fetchVector hw hp hdims
      exact ⟨_, _, hfetch, rfl⟩
    obtain ⟨es, hes⟩ := exists_forall₂ hres
    refine ⟨_, ⟨es, hes, fun _ => hk, rfl⟩, fun y hy => ?_⟩
    have hy : y ∈ es := (mergeSort_perm es _).mem_iff.mp (mem_of_mem_take hy)
    obtain ⟨i, hi, rfl⟩ := mem_iff_getElem.mp hy
    have hi' : i < cs.length := hes.length_eq ▸ hi
    obtain ⟨v, -, heq⟩ := hes.get hi' hi
    rw [get_eq_getElem, get_eq_getElem] at heq
    rw [heq]
    exact hcs cs[i] (getElem_mem hi')
  · refine ⟨_, rfl, fun x hx => hcs x ?_⟩
    have hx := mem_of_mem_topK hx
    split at hx
    · exact mem_of_mem_selected hx
    · exact hx

theorem buildSource_eq_error (h : buildSource ec plan bitmap vector ef = .error err) :
    err = .noIndex ∨ ∃ e, err = .indexSearch e := by
  unfold buildSource at h
  split at h
  · simp only [flatScanOp, Engine.scanVectors, hc] at h
    cases h
  · split at h
    · cases h
      exact .inl rfl
    · rename_i ix _
      unfold indexScanOp at h
      split at h <;> cases h
      exact .inr ⟨_, rfl⟩

theorem buildSource_live (hw : c.WF) (hg : c.InGrid)
    (hix : ∀ ix, ec.coll.index = some ix → ix.Finds c) {src : Opened}
    (h : buildSource ec plan bitmap vector ef = .ok src) :
    ∃ cs, src = .ok (emit none cs) ∧ ∀ x ∈ cs, c.LiveAt x.position := by
  unfold buildSource at h
  split at h
  · obtain ⟨scanned, hscan, h⟩ := bind_eq_ok.mp h
    rw [storageRead_eq_ok, Engine.scanVectors, hc] at hscan
    refine ⟨_, (Except.ok.inj h).symm, fun x hx => ?_⟩
    obtain ⟨y, hy, rfl⟩ := mem_map.mp (mem_of_mem_flatTopK hx)
    rw [← Except.ok.inj hscan] at hy
    obtain ⟨di, slot, s, hl, -, rfl⟩ := hw.mem_scanVectors.mp (mem_of_mem_filter hy)
    exact ⟨di, slot, s, hl, c.colPos_toNat (hg _ _ _ hl)⟩
  · split at h
    · cases h
    · rename_i ix hsome
      obtain ⟨cs, hcs, rfl⟩ := indexScanOp_eq_ok.mp h
      exact ⟨cs, rfl, hix ix hsome _ _ _ _ _ hcs⟩

theorem buildTree_live (hw : c.WF) (hg : c.InGrid)
    (hdims : UInt32.ofNat ec.coll.dims = c.dims) (hsnap : ec.snapshot = ec.coll.engine.snapshot)
    (hvis : ∀ ver, visibleIn (some ec.snapshot) ver = true)
    (hix : ∀ ix, ec.coll.index = some ix → ix.Finds c)
    (hbm : filterBitmap ec plan = .ok bitmap) (hpost : plan.filter = .filterPost → bitmap = some bm)
    (hk : 0 ≤ plan.k) : (∃ bs, buildTree ec plan vector ef = .ok (.ok bs)) ∨
      buildTree ec plan vector ef = .error .noIndex ∨
      ∃ e, buildTree ec plan vector ef = .error (.indexSearch e) := by
  rcases hsrc : buildSource ec plan bitmap vector ef with err | src
  · have herr : buildTree ec plan vector ef = .error err := by
      unfold buildTree
      rw [hbm, ok_bind, hsrc]
      rfl
    rw [herr]
    rcases buildSource_eq_error hc hsrc with rfl | ⟨e, rfl⟩
    · exact .inr (.inl rfl)
    · exact .inr (.inr ⟨e, rfl⟩)
  · obtain ⟨cs, rfl, hlive⟩ := buildSource_live hc hw hg hix hsrc
    obtain ⟨ds, hds, hlive'⟩ := @picks_live c ec plan vector bm cs hc hw hdims hk hlive
    have hrows : ∃ rows, List.Forall₂ (RowOf ec plan.project) ds rows := by
      refine exists_forall₂ fun x hx => ?_
      obtain ⟨di, slot, s, hl, hp⟩ := hlive' x hx
      obtain ⟨row, hrow, -⟩ := @rowOf_live ec c plan hw hc hsnap di slot s
        ⟨hl, .inr (hsnap ▸ hvis _)⟩ x hp
      exact ⟨row, hrow⟩
    obtain ⟨rows, hrows⟩ := hrows
    obtain ⟨bs, hbs, -⟩ := (buildTree_rows hbm hpost).mpr ⟨cs, ds, hsrc, hds, hrows⟩
    exact .inl ⟨bs, hbs⟩

end Source

section Plans

variable {coll : Collection} {pf : Platform} {q : BoundQuery}

/-- The predicate of a query is left to the index: too few points are expected to pass it. -/
def BoundQuery.Pushes (q : BoundQuery) : Prop :=
  q.predicate.isSome = true → selPostThreshold.le (Collection.selectivity q) = false

theorem Collection.build_pushes (h : coll.build pf q = .ok plan) (hq : q.Pushes) :
    plan.filter ≠ .filterPost := by
  have hstrategy : filterStrategy q.predicate.isSome (selectivity q) ≠ .filterPost := by
    unfold filterStrategy
    split
    · exact nofun
    rename_i hsome
    rw [Bool.not_eq_true, Bool.not_eq_false'] at hsome
    split
    · exact nofun
    rw [hq hsome]
    exact nofun
  have hwiden : ∀ p : PhysicalPlan, p.filter ≠ .filterPost →
      (if p.filter = .filterPost ∧ p.path = .hnsw then
        { p with allowWiden := true, maxEfSearch := p.efSearch * widenCapFactor }
      else p).filter ≠ .filterPost := by
    intro p hp
    rwa [if_neg fun h => hp h.1]
  unfold build at h
  split at h
  · cases h
  split at h
  · cases h
    split <;> exact nofun
  · cases h
    refine hwiden _ ?_
    rcases coll.indexKind with _ | _ | _ | _
    all_goals
      split <;> exact hstrategy

theorem Planner.plan_pushes (h : ((new coll pf 0).plan q).2 = .ok plan) (hq : q.Pushes) :
    plan.filter ≠ .filterPost :=
  build_pushes (plan_eq_ok h).2.2 hq

theorem Planner.plan_index (hk : 1 ≤ q.k) (hvec : q.vector.length = coll.dims)
    (hef : 0 ≤ q.efSearch) (hix : coll.index.isSome = true) (hrows : flatRowThreshold < coll.liveRows)
    (hpred : q.predicate = none) (hrerank : q.rerankR ≤ 0) :
    ∃ plan, ((new coll pf 0).plan q).2 = .ok plan ∧ plan.path = coll.indexKind ∧
      plan.filter = .filterNone ∧ plan.rerank = false ∧ plan.k = q.k ∧ plan.project = q.project := by
  have hnone : coll.index.isNone = false := by rw [Option.isNone_eq_false_iff, hix]
  have hflat : coll.useFlat pf q = false := by
    simp [useFlat, hnone, hpred, hrows]
  have hstrategy : filterStrategy q.predicate.isSome (selectivity q) =
      .filterNone := by rw [hpred]; rfl
  have hplan : ((new coll pf 0).plan q).2 = coll.build pf q := by
    unfold plan
    rw [if_neg (by omega), if_neg (not_not_intro (show _ = (new coll pf 0).coll.dims from hvec)),
      if_neg (by omega)]
    rfl
  rw [hplan]
  unfold build
  rw [hnone, Bool.false_and, if_neg Bool.false_ne_true, hflat, if_neg Bool.false_ne_true, hstrategy]
  rcases coll.indexKind with _ | _ | _ | _
  all_goals
    dsimp only
    rw [if_neg (show ¬ 0 < q.rerankR by omega)]
    exact ⟨_, rfl, rfl, rfl, rfl, rfl, rfl⟩

theorem Planner.plan_ne_storageRead {err : Storage.Err} :
    ((new coll pf 0).plan q).2 ≠ .error (.storageRead err) := by
  unfold plan
  split
  · exact nofun
  split
  · exact nofun
  split
  · exact nofun
  change coll.build pf q ≠ _
  unfold build
  split
  · exact nofun
  split
  · exact nofun
  · exact nofun

end Plans

namespace Executor

variable {e : Executor} {q : BoundQuery} {ctx : Ctx}

section

variable (hc : e.coll.engine.colls e.coll.collID = some c)
include hc

theorem exists_filterBitmap (hp : plan.For q) :
    ∃ bitmap bm, filterBitmap e.context plan = .ok bitmap ∧
      (plan.filter = .filterPost → bitmap = some bm) := by
  rcases hpred : plan.predicate with _ | pred
  · have hnone : plan.filter = .filterNone := hp.filter.mpr (hp.predicate ▸ hpred)
    refine ⟨none, ⟨0, []⟩, ?_, fun hpost => ?_⟩
    · unfold filterBitmap
      rw [hnone]
    · cases hnone.symm.trans hpost
  · have hfilter : plan.filter ≠ .filterNone := fun hnone => by
      have := hp.filter.mp hnone
      rw [← hp.predicate, hpred] at this
      cases this
    exact ⟨_, _, @filterBitmap_eq e.context c plan pred hc hpred hfilter, fun _ => rfl⟩

theorem execute_eq_error (hw : c.WF) (hg : c.InGrid) (hdims : UInt32.ofNat e.coll.dims = c.dims)
    (hvis : ∀ ver, visibleIn (some e.coll.engine.snapshot) ver = true)
    (hix : ∀ ix, e.coll.index = some ix → ix.Finds c) (hp : plan.For q) (hk : 0 ≤ plan.k)
    {fuel : ℕ} (h : e.execute fuel ctx plan vector = some (.error err)) :
    err = .dimensionMismatch ∨ err = .noIndex ∨ ∃ ie, err = .indexSearch ie := by
  obtain ⟨bitmap, bm, hbm, hpost⟩ := exists_filterBitmap hc hp
  unfold execute at h
  split at h
  · cases h
    exact .inl rfl
  refine .inr ?_
  generalize plan.efSearch = ef at h
  generalize 0 = i at h
  induction fuel generalizing ef i with
  | zero => cases h
  | succ fuel ih =>
    rw [runPlan] at h
    rcases @buildTree_live c e.context plan vector ef bm bitmap hc hw hg hdims rfl hvis hix hbm
      hpost hk with ⟨bs, hbs⟩ | hbs | ⟨ie, hbs⟩ <;> rw [hbs] at h
    · obtain ⟨d, hd⟩ : ∃ d, drive e.context.coll plan.project ctx i (.ok bs) = .ok d := by
        unfold drive
        rcases ctx i with _ | ctxErr <;> exact ⟨_, rfl⟩
      rw [ok_bind, hd] at h
      dsimp only at h
      split at h
      · exact ih _ _ h
      · cases h
    · cases h
      exact .inl rfl
    · cases h
      exact .inr ⟨ie, rfl⟩

theorem exact_eq_flat (hw : c.WF) (hg : c.InGrid)
    (hdims : UInt32.ofNat e.coll.dims = c.dims) (hvec : vector.length = e.coll.dims)
    (hp : plan.For q) (hk : 1 ≤ plan.k) (hpost : plan.filter ≠ .filterPost)
    (hnum : ∀ x ∈ e.context.points c plan.metric vector, x.distance.isNaN = false)
    (hix : e.coll.index = some ix) (hexact : ix.Exact c (some e.coll.engine.snapshot)
      (rankKernel e.kernels plan.metric vector) vector) :
    ∃ rows, e.Runs { plan with path := .flat } vector ⟨rows, false, ""⟩ ∧
      e.Runs plan vector ⟨rows, false, ""⟩ := by
  obtain ⟨bitmap, bm, hbm, hsel⟩ := exists_filterBitmap hc hp
  have hef : plan.allowWiden = true → 0 < plan.efSearch ∨ plan.maxEfSearch ≤ plan.efSearch := by
    intro hw
    rw [hp.widen hw, widenCapFactor]
    omega
  obtain ⟨cs, rows, hlow, hrows, hruns⟩ := @runs_nearest c { plan with path := .flat } vector bm e
    bitmap hw hg hc hdims hvec hbm hsel hk hnum (fun h => absurd rfl h)
    (fun h => absurd h hpost) hef
  obtain ⟨cs', rows', hlow', hrows', hruns'⟩ := @runs_nearest c plan vector bm e bitmap
    hw hg hc hdims hvec hbm hsel hk hnum (fun _ => ⟨ix, hix, hexact⟩)
    (fun h => absurd h hpost) hef
  have hflat : Pushed { plan with path := .flat } := .inl rfl
  have hkeep : ∀ p, (plan.Pushed → bitmap.all (·.contains p) = true) ↔
      bitmap.all (·.contains p) = true := by
    intro p
    refine ⟨fun h => ?_, fun h _ => h⟩
    rcases hf : plan.filter with _ | _ | _ | _
    · -- there is no bitmap without a filter
      rw [filterBitmap, hf] at hbm
      cases hbm
      rfl
    · exact h (.inr (.inl hf))
    · exact h (.inr (.inr hf))
    · exact absurd hf hpost
  simp only [hflat, true_imp_iff] at hlow
  simp only [hkeep] at hlow'
  obtain rfl := hlow'.unique hlow
  obtain rfl : rows' = rows := (@rows_eq_iff c e.context _ _ none (fun _ => ⟨0⟩) _ _ _
    hrows' hrows).1 rfl
  exact ⟨rows', hruns, hruns'⟩

end

theorem execute_stale (hvec : vector.length = e.coll.dims)
    (hix : e.coll.index = some ix) (hpath : plan.path ≠ .flat) (hfilter : plan.filter = .filterNone)
    (hrerank : plan.rerank = false) (hproject : plan.project = [])
    (hcs : ∀ params, ix.search vector plan.k none params = .ok cs) (hx : x ∈ topK plan.k cs)
    (hstale : ∀ id, e.coll.engine.lookupPos e.coll.collID x.position ≠ .ok id)
    (hctx : ctx 0 = none) (fuel : ℕ) :
    ∃ err, e.execute (fuel + 1) ctx plan vector = some (.error (.storageRead err)) := by
  have hsource : buildSource e.context plan none vector plan.efSearch = .ok (.ok (emit none cs)) := by
    unfold buildSource
    split
    · exact absurd ‹_› hpath
    · rw [show e.context.coll.index = some ix from hix]
      refine indexScanOp_eq_ok.mpr ⟨cs, ?_, rfl⟩
      rw [maxK, hrerank, indexFilter, hfilter]
      exact hcs _
  have hbitmap : filterBitmap e.context plan = .ok none := by
    unfold filterBitmap
    rw [hfilter]
  have htree : ∃ err, buildTree e.context plan vector plan.efSearch =
      .ok (.error (.storageRead err)) := by
    unfold buildTree
    rw [hbitmap, ok_bind, hsource, ok_bind]
    have hpost : ¬ FilterStrategy.filterNone = .filterPost := by decide
    dsimp only
    rw [hfilter, hrerank, hproject, if_neg Bool.false_ne_true, if_neg hpost, topKOp_emit]
    have hmeta : gatherMetaOp e.context (e.context.coll.colIDs []) (.ok (emit none (topK plan.k cs))) =
        .ok (emit none (topK plan.k cs)) := by
      rw [gatherMetaOp, ok_bind]
      exact if_pos rfl
    rw [hmeta, emit, if_neg (ne_nil_of_mem hx), projectOp, ok_bind]
    dsimp only
    rcases hrows : ((topK plan.k cs).map fun c => ({ cand := c } : BatchRow)).mapM (fun r => do
      let pointID ← storageRead
        (e.context.coll.engine.lookupPos e.context.coll.collID r.cand.position)
      return { r with pointID }) with err | rows
    · obtain ⟨r, -, hr⟩ := mapM_eq_error hrows
      rcases hid : e.context.coll.engine.lookupPos e.context.coll.collID r.cand.position
        with err' | id <;> rw [hid] at hr <;> cases hr
      exact ⟨err', by rw [hrows]; rfl⟩
    · -- the row of the candidate has no point
      have hall := forall₂_map_left_iff.mp (mapM_eq_ok.mp hrows)
      obtain ⟨i, hi, rfl⟩ := mem_iff_getElem.mp hx
      obtain ⟨id, hid, -⟩ := read_eq_ok.mp (hall.get hi (hall.length_eq ▸ hi))
      exact absurd hid (hstale id)
  obtain ⟨err, htree⟩ := htree
  refine ⟨err, ?_⟩
  have hdrive : drive e.context.coll plan.project ctx 0 (.error (.storageRead err)) =
      .error (.storageRead err) := by
    unfold drive
    rw [hctx]
  unfold execute
  rw [if_neg (not_not_intro hvec), runPlan, htree, ok_bind, hdrive]

end Executor

end VecDb.Query

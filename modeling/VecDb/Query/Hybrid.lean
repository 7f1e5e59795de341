import VecDb.Hybrid.Fusion
import VecDb.Query.Safety

/-! # Hybrid queries

The candidates of a dense search are fused with ranked lists from elsewhere. Unless the plan
filters after the search, only the dense search is filtered.
-/

namespace VecDb.Query

open Mvcc Storage Fallible Hybrid List

structure HybridRequest where
  plan : PhysicalPlan
  vector : Vec
  extra : List (List ScoredPos) := []
  method : FusionMethod := .rrf
  weights : List Float64 := []
  rrfK : Float64 := ⟨0⟩
  overFetch : ℤ := 0

/-- The conversions and the arithmetic of the platform. -/
structure FusionOps where
  ops : Float64.Ops
  widen : Float32 → Float64
  narrow : Float64 → Float32

/-- The filter of the dense search; it is left to the fused list if it comes after the search. -/
def rankingBitmap (ec : ExecContext) (plan : PhysicalPlan) :
    Except QueryErr (Option PositionBitmap) :=
  if plan.filter = .filterPre ∨ plan.filter = .filterIn then filterBitmap ec plan else .ok none

def fusedBitmap (ec : ExecContext) (plan : PhysicalPlan) :
    Except QueryErr (Option PositionBitmap) :=
  if plan.filter = .filterPost then filterBitmap ec plan else .ok none

def rankingSource (ec : ExecContext) (plan : PhysicalPlan) (bitmap : Option PositionBitmap)
    (vector : Vec) (ef : ℤ) : Except QueryErr Opened :=
  match plan.path with
  | .flat => flatScanOp ec vector plan.k plan.metric bitmap
  | _ =>
    match ec.coll.index with
    | none => .error .noIndex
    | some ix =>
      indexScanOp ix vector plan.k (bitmap.map fun bm => ⟨some bm⟩)
        { efSearch := ef, nProbe := plan.nProbe, maxCandidates := plan.k }

def buildRankingTree (ec : ExecContext) (plan : PhysicalPlan) (vector : Vec) (ef : ℤ) :
    Except QueryErr Opened := do
  let bitmap ← rankingBitmap ec plan
  let src ← rankingSource ec plan bitmap vector ef
  return topKOp plan.k src

def denseRanked (fo : FusionOps) (ec : ExecContext) (plan : PhysicalPlan) (vector : Vec) :
    Except QueryErr (List ScoredPos) := do
  let root ← buildRankingTree ec plan vector plan.efSearch
  let batches ← root
  return batches.flatMap fun b =>
    b.rows.map fun r => ⟨r.cand.position, (fo.widen r.cand.distance).neg⟩

def rankedSourceOp (fo : FusionOps) (list : List ScoredPos) : Opened :=
  .ok (writeCandidates (list.map fun sp => ⟨sp.pos, fo.narrow sp.score⟩))

/-- The fused list, filtered if the plan filters after the search, and cut. -/
def fusedList (fo : FusionOps) (ec : ExecContext) (req : HybridRequest) :
    Except QueryErr (List ScoredPos) := do
  let plan := req.plan
  let factor := if req.overFetch ≤ 0 then 3 else req.overFetch
  let dense ← denseRanked fo ec { plan with k := plan.k * factor, rerank := false } req.vector
  let fused := fuse fo.ops req.method (dense :: req.extra) req.weights req.rrfK
  let bitmap ← fusedBitmap ec plan
  return trimK (fused.filter fun sp => bitmap.all fun bm => bm.contains sp.pos) plan.k

namespace Executor

def executeHybrid (e : Executor) (fo : FusionOps) (ctx : Ctx) (req : HybridRequest) :
    Except QueryErr ResultSet :=
  if req.vector.length ≠ e.coll.dims then .error .dimensionMismatch
  else do
    let ec := e.context
    let fused ← fusedList fo ec req
    let op := gatherMetaOp ec (ec.coll.colIDs req.plan.project) (rankedSourceOp fo fused)
    let d ← drive ec.coll req.plan.project ctx 0 (projectOp ec op)
    return {
      rows := d.rows
      isPartial := d.cancelled.isSome
      partialReason := (d.cancelled.map CtxErr.text).getD "" }

end Executor

variable {fo : FusionOps} {ec : ExecContext} {plan : PhysicalPlan} {pred : Predicate}
  {vector : Vec} {bm : PositionBitmap} {dense : List ScoredPos} {c : Storage.Collection}

theorem flatMap_rows_emit {β : Type} (g : BatchRow → β) (cs : List Candidate) :
    ((emit none cs).flatMap fun b => b.rows.map g) = cs.map fun x => g { cand := x } := by
  unfold emit
  split
  · simp_all
  · simp [Function.comp_def]

theorem denseRanked_contains (hfilter : plan.filter = .filterPre ∨ plan.filter = .filterIn)
    (hbm : filterBitmap ec plan = .ok (some bm)) (h : denseRanked fo ec plan vector = .ok dense) :
    ∀ sp ∈ dense, bm.contains sp.pos = true := by
  obtain ⟨root, hroot, h⟩ := bind_eq_ok.mp h
  obtain ⟨bitmap, hbitmap, hroot⟩ := bind_eq_ok.mp hroot
  rw [rankingBitmap, if_pos hfilter, hbm] at hbitmap
  cases hbitmap
  obtain ⟨src, hsrc, hroot⟩ := bind_eq_ok.mp hroot
  have hcs : ∃ cs, src = .ok (emit none cs) ∧ ∀ x ∈ cs, bm.contains x.position = true := by
    unfold rankingSource at hsrc
    split at hsrc
    · exact flatScanOp_contains hsrc
    · split at hsrc
      · cases hsrc
      · exact indexScanOp_contains hsrc
  obtain ⟨cs, rfl, hcs⟩ := hcs
  cases hroot
  rw [topKOp_emit, ok_bind, flatMap_rows_emit] at h
  intro sp hsp
  rw [← Except.ok.inj h] at hsp
  obtain ⟨x, hx, rfl⟩ := mem_map.mp hsp
  exact hcs x (mem_of_mem_topK hx)

theorem mem_of_mem_trimK {list : List ScoredPos} {k : ℤ} {sp : ScoredPos}
    (h : sp ∈ trimK list k) : sp ∈ list := by
  unfold trimK at h
  split at h
  · exact mem_of_mem_take h
  · exact h

theorem fusedList_contains {req : HybridRequest} {fused : List ScoredPos}
    (hfilter : req.plan.filter ≠ .filterNone) (hbm : filterBitmap ec req.plan = .ok (some bm))
    (h : fusedList fo ec req = .ok fused) : ∀ sp ∈ fused, bm.contains sp.pos = true ∨
      req.plan.filter ≠ .filterPost ∧ ∃ list ∈ req.extra, sp.pos ∈ list.map ScoredPos.pos := by
  obtain ⟨dense, hdense, h⟩ := bind_eq_ok.mp h
  obtain ⟨bitmap, hbitmap, h⟩ := bind_eq_ok.mp h
  cases h
  intro sp hsp
  obtain ⟨hsp, hkeep⟩ := mem_filter.mp (mem_of_mem_trimK hsp)
  by_cases hpost : req.plan.filter = .filterPost
  · rw [fusedBitmap, if_pos hpost, hbm] at hbitmap
    cases hbitmap
    exact .inl hkeep
  · have hmem := mem_fuse.mp (mem_map_of_mem hsp)
    obtain ⟨list, hlist, hp⟩ := hmem
    rcases mem_cons.mp hlist with rfl | hlist
    · obtain ⟨sp', hsp', heq⟩ := mem_map.mp hp
      have hpush : req.plan.filter = .filterPre ∨ req.plan.filter = .filterIn := by
        rcases hf : req.plan.filter with _ | _ | _ | _ <;> simp_all
      rw [← heq]
      refine .inl (denseRanked_contains ?_ ?_ hdense sp' hsp')
      · exact hpush
      · exact hbm
    · exact .inr ⟨hpost, list, hlist, hp⟩

namespace Executor

variable {e : Executor} {ctx : Ctx} {req : HybridRequest} {rs : ResultSet}

theorem executeHybrid_rows (h : e.executeHybrid fo ctx req = .ok rs) :
    ∃ fused, fusedList fo e.context req = .ok fused ∧ ∀ row ∈ rs.rows, ∃ sp ∈ fused, ∃ x,
      x.position = sp.pos ∧ RowOf e.context req.plan.project x row := by
  unfold executeHybrid at h
  split at h
  · cases h
  · obtain ⟨fused, hfused, h⟩ := bind_eq_ok.mp h
    obtain ⟨d, hd, h⟩ := bind_eq_ok.mp h
    cases h
    refine ⟨fused, hfused, fun row hrow => ?_⟩
    obtain ⟨bs, hbs, hrow⟩ := mem_drive hd hrow
    have hrows := projectOp_emit.mp ⟨bs, hbs, rfl⟩
    obtain ⟨i, hi, rfl⟩ := mem_iff_getElem.mp hrow
    have hi' := hrows.length_eq ▸ hi
    have hrow := hrows.get hi' hi
    rw [length_map] at hi'
    refine ⟨fused[i], getElem_mem hi', _, ?_, hrow⟩
    simp

theorem executeHybrid_satisfies (hw : c.WF) (hc : e.coll.engine.colls e.coll.collID = some c)
    (hg : c.InGrid) (hpred : req.plan.predicate = some pred)
    (hfilter : req.plan.filter ≠ .filterNone) (h : e.executeHybrid fo ctx req = .ok rs) :
    ∀ row ∈ rs.rows, Satisfies c pred row.pointID ∨ req.plan.filter ≠ .filterPost ∧
      ∃ list ∈ req.extra, ∃ sp ∈ list, c.lookupPos sp.pos = .ok row.pointID := by
  intro row hrow
  obtain ⟨fused, hfused, hrows⟩ := executeHybrid_rows h
  obtain ⟨sp, hsp, x, hx, r, id, -, hid, rfl⟩ := hrows row hrow
  rw [Engine.lookupPos, show e.context.coll.engine.colls e.context.coll.collID = some c from hc,
    hx] at hid
  have hbm : filterBitmap e.context req.plan = _ := filterBitmap_eq hc hpred hfilter
  rcases fusedList_contains hfilter hbm hfused sp hsp with hcontains | ⟨hpost, list, hlist, hp⟩
  · exact .inl (satisfies_of_contains hw hg hcontains hid)
  · obtain ⟨sp', hsp', heq⟩ := mem_map.mp hp
    exact .inr ⟨hpost, list, hlist, sp', hsp', heq ▸ hid⟩

/-- With a filter strategy, every row satisfies the predicate, but for the rows of the extra lists
when the plan filters before or in the search. -/
theorem executeHybrid_filtered {s : Sys} (hs : s.Reachable) (he : e.coll.engine = s.engine)
    (hc : s.engine.colls e.coll.collID = some c) (hg : c.InGrid)
    (hpred : req.plan.predicate = some pred) (hfilter : req.plan.filter ≠ .filterNone)
    (h : e.executeHybrid fo ctx req = .ok rs) :
    ∀ row ∈ rs.rows, Satisfies c pred row.pointID ∨ req.plan.filter ≠ .filterPost ∧
      ∃ list ∈ req.extra, ∃ sp ∈ list, c.lookupPos sp.pos = .ok row.pointID :=
  executeHybrid_satisfies (hs.inv.wf hc) (he ▸ hc) hg hpred hfilter h

def rankOps : FusionOps where
  ops :=
    { add := fun a b => if a = .ofInt 0 then b else if a = .ofInt 1 then .ofInt 2 else .ofInt 61
      sub := fun a _ => a
      mul := fun _ b => b
      div := fun a b => if a = b then .ofInt 1 else ⟨0x3f90c9714fbcda3b⟩
      max := fun a _ => a
      ceil := id
      sqrt := id
      log2 := id
      toInt := fun _ => 0 }
  widen := fun _ => .ofInt 0
  narrow := fun _ => ⟨0x3c864b8a⟩

theorem executeHybrid_filtered_spread :
    let e := spreadExecutor.withIndex (some (.fixed [⟨2, ⟨0⟩⟩]))
    let plan : PhysicalPlan :=
      { path := .hnsw, filter := .filterPost, k := 2, predicate := some (.compare 1 .gt (.int 3)) }
    ∃ c rs, (Sys.after Sys.spread).engine.colls 1 = some c ∧
      e.executeHybrid rankOps (fun _ => none)
        { plan, vector := [0], extra := [[⟨2, .ofInt 1⟩]] } = .ok rs ∧
      rs.rows.map Row.pointID = [7] ∧
      ∀ row ∈ rs.rows, Satisfies c (.compare 1 .gt (.int 3)) row.pointID := by
  intro e plan
  have hs : (Sys.after Sys.spread).Reachable := Sys.reachable_after (by decide)
  have hrun : e.executeHybrid rankOps (fun _ => none)
      { plan, vector := [0], extra := [[⟨2, .ofInt 1⟩]] } =
        .ok ⟨[⟨7, ⟨0x3c864b8a⟩, []⟩], false, ""⟩ := by
    decide +kernel
  refine ⟨_, _, rfl, hrun, rfl, fun row hrow => ?_⟩
  have h := executeHybrid_filtered hs rfl rfl Sys.spread_filterable.inGrid rfl (by decide) hrun row
    hrow
  exact h.resolve_right fun h => h.1 rfl

/-- Point 5 has 3 in its column, the plan asks for points with 4, and an extra list has the
position of point 5. -/
theorem executeHybrid_returns_extra :
    (Sys.after Sys.onePoint).Reachable ∧
    onePointExecutor.coll.engine = (Sys.after Sys.onePoint).engine ∧
    ((Sys.after Sys.onePoint).engine.fetch 1 0 none none).map
      (fun r => (r.id, r.metadata)) = .ok (5, [(1, .int 3)]) ∧
    Predicate.eval (fun _ => .int 3) (.compare 1 .eq (.int 4)) = false ∧
    onePointExecutor.executeHybrid rankOps (fun _ => none)
      { plan := { filter := .filterPre, k := 1, predicate := some (.compare 1 .eq (.int 4)) }
        vector := [0], extra := [[⟨0, .ofInt 1⟩]] } =
      .ok ⟨[⟨5, ⟨0x3c864b8a⟩, []⟩], false, ""⟩ := by
  refine ⟨Sys.reachable_after (by decide), rfl, by decide, by decide, ?_⟩
  decide +kernel

end Executor

end VecDb.Query

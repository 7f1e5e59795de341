import VecDb.Base.Lru
import VecDb.Query.Plan

/-! # The planner

The planner chooses the access path and the filter strategy by the estimated selectivity of the
predicate. Plans are cached under a key that leaves out some of what they depend on.
-/

namespace VecDb.Query

open Storage

structure BoundQuery where
  vector : Vec
  k : ℤ
  metric : Metric := .l2Squared
  predicate : Option Predicate := none
  /-- The fraction of the rows that the predicate keeps; negative if it is to be estimated. -/
  selectivity : Float64 := ⟨0xbff0000000000000⟩
  project : List String := []
  includeDistance : Bool := false
  recallTarget : Float64 := ⟨0⟩
  efSearch : ℤ := 0
  nProbe : ℤ := 0
  rerankR : ℤ := 0
  allowFlat : Bool := false
  timeout : ℤ := 0

/-- What the planner takes from outside: the arithmetic, and how Go prints a predicate. -/
structure Platform where
  ops : Float64.Ops
  predicateText : Predicate → String

def flatRowThreshold : ℤ := 5000

def selPreThreshold : Float64 := ⟨0x3fa999999999999a⟩

def selPostThreshold : Float64 := ⟨0x3fe0000000000000⟩

def defaultRecall : Float64 := ⟨0x3fee666666666666⟩

def widenCapFactor : ℤ := 8

section Costs

variable (ops : Float64.Ops)

def costFlat (rows : Float64) (dims : ℕ) : Float64 := ops.mul rows (.ofInt dims)

def costHNSW (ef m : ℤ) (dims : ℕ) (rows : ℤ) : Float64 :=
  let rows := max rows 2
  ops.mul (ops.mul (ops.mul (.ofInt ef) (ops.log2 (.ofInt rows))) (.ofInt (max m 1))) (.ofInt dims)

def costIVF (nlist nprobe rows : ℤ) (dims : ℕ) : Float64 :=
  let nlist := max nlist 1
  let cellRows := ops.div (.ofInt rows) (.ofInt nlist)
  ops.mul (ops.add (.ofInt nlist) (ops.mul cellRows (.ofInt nprobe))) (.ofInt dims)

def matchRowsOrAll (rows : ℤ) (sel : Float64) (filtered : Bool) : Float64 :=
  if filtered then ops.mul (.ofInt rows) sel else .ofInt rows

end Costs

def clamp01 (x : Float64) : Float64 :=
  if x.lt (.ofInt 0) then .ofInt 0 else if (Float64.ofInt 1).lt x then .ofInt 1 else x

namespace Collection

variable (coll : Collection) (pf : Platform) (q : BoundQuery)

def liveRows : ℤ :=
  match coll.engine.collectionStats coll.collID with
  | .ok (live, _) => live
  | .error _ => 0

/-- There is no estimate for a predicate; without a given selectivity it is 0.25. -/
def selectivity : Float64 :=
  match q.predicate with
  | none => .ofInt 1
  | some _ =>
    if (Float64.ofInt 0).le q.selectivity then clamp01 q.selectivity else ⟨0x3fd0000000000000⟩

def filterStrategy (hasPred : Bool) (sel : Float64) : FilterStrategy :=
  if !hasPred then .filterNone
  else if sel.le selPreThreshold then .filterPre
  else if selPostThreshold.le sel then .filterPost
  else .filterIn

def selectEf (rate : Float64) : ℤ :=
  if 0 < q.efSearch then q.efSearch
  else
    let efMin := pf.ops.ceil (pf.ops.div (.ofInt q.k) (pf.ops.mul rate rate))
    max (pf.ops.toInt (pf.ops.max (.ofInt q.k) efMin)) 16

def selectNProbe (rate : Float64) : ℤ :=
  if 0 < q.nProbe then q.nProbe
  else
    let nlist := max coll.nList 1
    let np := pf.ops.toInt (pf.ops.ceil
      (pf.ops.mul (pf.ops.mul (.ofInt nlist) rate) ⟨0x3fb999999999999a⟩))
    min (max np 1) nlist

/-- Whether an exact scan of all rows is chosen over the index. -/
def useFlat : Bool :=
  let rows := coll.liveRows
  let sel := selectivity q
  coll.index.isNone || decide (rows ≤ flatRowThreshold) ||
    q.predicate.isSome && (pf.ops.mul (.ofInt rows) sel).le (.ofInt flatRowThreshold) &&
      sel.le selPreThreshold

def build : Except QueryErr PhysicalPlan :=
  let rows := coll.liveRows
  let sel := selectivity q
  let plan : PhysicalPlan :=
    { k := q.k, metric := q.metric, project := q.project, includeDist := q.includeDistance
      predicate := q.predicate, timeout := q.timeout }
  if coll.index.isNone && !q.allowFlat then .error .noIndex
  else if coll.useFlat pf q then
    .ok
      { plan with
        path := .flat
        filter := if q.predicate.isSome then .filterPre else .filterNone
        estRecall := .ofInt 1
        estCost := costFlat pf.ops (matchRowsOrAll pf.ops rows sel q.predicate.isSome) coll.dims }
  else
    let rate := if q.recallTarget.le (.ofInt 0) then defaultRecall else q.recallTarget
    let plan := { plan with
      path := coll.indexKind
      filter := filterStrategy q.predicate.isSome sel }
    let plan : PhysicalPlan :=
      match coll.indexKind with
      | .ivf =>
        let nProbe := coll.selectNProbe pf q rate
        { plan with
          nProbe, estRecall := rate, estCost := costIVF pf.ops coll.nList nProbe rows coll.dims }
      | .hnsw | .diskANN =>
        let efSearch := selectEf pf q rate
        { plan with
          efSearch, estRecall := rate
          estCost := costHNSW pf.ops efSearch coll.m coll.dims rows }
      | .flat =>
        { plan with
          estRecall := .ofInt 1, estCost := costFlat pf.ops (.ofInt rows) coll.dims }
    let plan : PhysicalPlan :=
      if 0 < q.rerankR then { plan with rerank := true, rerankR := q.rerankR } else plan
    let plan : PhysicalPlan :=
      if plan.filter = .filterPost ∧ plan.path = .hnsw then
        { plan with allowWiden := true, maxEfSearch := plan.efSearch * widenCapFactor }
      else plan
    .ok plan

end Collection

structure PlanKey where
  coll : UInt64
  k : ℤ
  metric : Metric
  hasPred : Bool
  predShape : String
  /-- The rate target in bands of 5 percent. -/
  recallBand : ℤ
  includeDist : Bool
  project : String
  deriving DecidableEq

def joinCols : List String → String
  | [] => ""
  | col :: cols => cols.foldl (fun out c => out ++ ("," ++ c)) col

def planKeyOf (pf : Platform) (collID : UInt64) (q : BoundQuery) : PlanKey :=
  { coll := collID
    k := q.k
    metric := q.metric
    hasPred := q.predicate.isSome
    predShape := (q.predicate.map pf.predicateText).getD ""
    recallBand := pf.ops.toInt (pf.ops.mul q.recallTarget (.ofInt 20))
    includeDist := q.includeDistance
    project := joinCols q.project }

def specialize (p : PhysicalPlan) (q : BoundQuery) : PhysicalPlan :=
  let p := if 0 < q.efSearch then { p with efSearch := q.efSearch } else p
  let p := if 0 < q.nProbe then { p with nProbe := q.nProbe } else p
  let p := if 0 < q.rerankR then { p with rerank := true, rerankR := q.rerankR } else p
  { p with
    timeout := q.timeout, k := q.k, project := q.project, includeDist := q.includeDistance
    predicate := q.predicate }

structure Planner where
  coll : Collection
  platform : Platform
  cache : Option (Lru PlanKey PhysicalPlan) := none

namespace Planner

/-- A planner with a cache of the given capacity; there is none if it is not positive. -/
def new (coll : Collection) (platform : Platform) (cacheCap : ℤ) : Planner :=
  { coll, platform, cache := if cacheCap ≤ 0 then none else some { cap := cacheCap.toNat } }

def plan (pl : Planner) (q : BoundQuery) : Planner × Except QueryErr PhysicalPlan :=
  if q.k < 1 then (pl, .error .invalidK)
  else if q.vector.length ≠ pl.coll.dims then (pl, .error .dimensionMismatch)
  else if q.efSearch < 0 then (pl, .error .invalidEfSearch)
  else
    let key := planKeyOf pl.platform pl.coll.collID q
    match pl.cache with
    | none => (pl, pl.coll.build pl.platform q)
    | some cache =>
      match cache.get key with
      | (cache, some cached) => ({ pl with cache := some cache }, .ok (specialize cached q))
      | (cache, none) =>
        match pl.coll.build pl.platform q with
        | .error e => ({ pl with cache := some cache }, .error e)
        | .ok p => ({ pl with cache := some (cache.put key p) }, .ok p)

def planAll (pl : Planner) : List BoundQuery → List (Except QueryErr PhysicalPlan)
  | [] => []
  | q :: qs => (pl.plan q).2 :: (pl.plan q).1.planAll qs

def fresh (pl : Planner) (q : BoundQuery) : Except QueryErr PhysicalPlan :=
  ({ pl with cache := none }.plan q).2

theorem plan_eq_ok {coll : Collection} {pf : Platform} {q : BoundQuery} {plan : PhysicalPlan}
    (h : ((Planner.new coll pf 0).plan q).2 = .ok plan) :
    1 ≤ q.k ∧ q.vector.length = coll.dims ∧ coll.build pf q = .ok plan := by
  unfold Planner.plan at h
  split at h
  · cases h
  split at h
  · cases h
  split at h
  · cases h
  · exact ⟨by omega, not_not.mp ‹_›, h⟩

end Planner

end VecDb.Query

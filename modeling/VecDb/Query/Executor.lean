import VecDb.Query.Plan

/-! # The executor

Operators hand batches of rows to each other; of a batch with a selection vector only the selected
rows count. An operator is given by the batches it produces.
-/

namespace VecDb.Query

open Mvcc Storage

structure BatchRow where
  cand : Candidate
  vec : Vec := []
  metadata : Option (List (ColID × Value)) := none
  pointID : PointID := 0
  deriving Inhabited

structure Batch where
  rows : List BatchRow
  sel : Option (List UInt16) := none

def Batch.live (b : Batch) : List Candidate :=
  match b.sel with
  | none => b.rows.map BatchRow.cand
  | some sel => sel.map fun i => (b.rows.getD i.toNat default).cand

abbrev Opened := Except QueryErr (List Batch)

/-- The error of the context at each time it is looked at. -/
abbrev Ctx := ℕ → Option CtxErr

structure ExecContext where
  coll : Collection
  snapshot : Snapshot
  workers : ℕ
  kernels : Kernels

def storageRead {α : Type} : Except Err α → Except QueryErr α
  | .ok a => .ok a
  | .error e => .error (.storageRead e)

def writeCandidates (cands : List Candidate) : List Batch :=
  if cands = [] then [] else [{ rows := cands.map fun c => { cand := c } }]

section Operators

variable (ec : ExecContext)

def indexScanOp (ix : Index) (query : Vec) (maxK : ℤ) (filter : Option BitmapFilter)
    (params : SearchParams) : Except QueryErr Opened :=
  match ix.search query maxK filter params with
  | .error e => .error (.indexSearch e)
  | .ok cands => .ok (.ok (writeCandidates cands))

def morsels (workers : ℕ) (items : List Candidate) : List (List Candidate) :=
  let workers := max (min workers items.length) 1
  let chunk := (items.length + workers - 1) / workers
  (List.range workers).map fun w => (items.drop (w * chunk)).take chunk

/-- The nearest of the items, found by one heap for each worker and one to merge them. -/
def flatTopK (workers : ℕ) (maxK : ℤ) (items : List Candidate) : List Candidate :=
  let heaps := (morsels workers items).map fun cs => cs.foldl TopKHeap.push (newTopKHeap maxK)
  topK maxK (heaps.flatMap TopKHeap.data)

def flatScanOp (query : Vec) (maxK : ℤ) (metric : Metric) (filter : Option PositionBitmap) :
    Except QueryErr Opened := do
  let scanned ← storageRead (ec.coll.engine.scanVectors ec.coll.collID (some ec.snapshot))
  let items := scanned.filter fun x => filter.all fun bm => bm.contains x.1
  let cands := items.map fun x => ⟨x.1, rankKernel ec.kernels metric query x.2⟩
  return .ok (writeCandidates (flatTopK ec.workers maxK cands))

def topKOp (k : ℤ) (child : Opened) : Opened := do
  let batches ← child
  return writeCandidates (topK k (batches.flatMap Batch.live))

def Batch.indices (b : Batch) : List ℕ :=
  match b.sel with
  | none => List.range b.rows.length
  | some sel => sel.map UInt16.toNat

/-- Selection vectors number the rows in 16 bits. -/
def postFilterOp (bitmap : Option PositionBitmap) (child : Opened) : Opened := do
  let batches ← child
  batches.mapM fun b =>
    match bitmap with
    | none => if b.indices = [] then return { b with sel := some [] } else throw .panic
    | some bm =>
      let kept := b.indices.filter fun row =>
        bm.contains (b.rows.getD row default).cand.position
      return { b with sel := some (kept.map UInt16.ofNat) }

def gatherVecOp (child : Opened) : Opened := do
  let batches ← child
  batches.mapM fun b => do
    let rows ← b.rows.mapM fun r => do
      let vec ← storageRead
        (ec.coll.engine.fetchVector ec.coll.collID r.cand.position ec.coll.dims)
      return { r with vec }
    return { b with rows }

def gatherMetaOp (cols : List ColID) (child : Opened) : Opened := do
  let batches ← child
  if cols = [] then return batches
  else
    batches.mapM fun b => do
      let rows ← b.rows.mapM fun r => do
        let record ← storageRead (ec.coll.engine.fetch ec.coll.collID r.cand.position (some cols)
          (some ec.snapshot))
        return { r with metadata := some record.metadata }
      return { b with rows }

/-- Order all rows of the first batch, selected or not, by their exact distances. -/
def rerankOp (query : Vec) (metric : Metric) (k : ℤ) (child : Opened) : Opened := do
  match ← child with
  | [] => return []
  | b :: _ =>
    let cands := b.rows.map fun r =>
      ⟨r.cand.position, rankKernel ec.kernels metric query r.vec⟩
    let sorted := cands.mergeSort fun x y => !Candidate.less x y
    if k < sorted.length then
      if k < 0 then throw .panic else return writeCandidates (sorted.take k.toNat)
    else return writeCandidates sorted

def projectOp (child : Opened) : Opened := do
  match ← child with
  | [] => return []
  | b :: _ =>
    let rows ← b.rows.mapM fun r => do
      let pointID ← storageRead (ec.coll.engine.lookupPos ec.coll.collID r.cand.position)
      return { r with pointID }
    return [{ b with rows }]

end Operators

/-- How many candidates the source is asked for; `PhysicalPlan.machineK` has the product as a
64-bit number. -/
def PhysicalPlan.maxK (plan : PhysicalPlan) : ℤ :=
  if plan.rerank then if plan.rerankR < plan.k then plan.k * 4 else plan.rerankR else plan.k

def PhysicalPlan.machineK (plan : PhysicalPlan) : ℤ :=
  if plan.rerank then
    if plan.rerankR < plan.k then (plan.k * 4).bmod (2 ^ 64) else plan.rerankR
  else plan.k

def filterBitmap (ec : ExecContext) (plan : PhysicalPlan) :
    Except QueryErr (Option PositionBitmap) :=
  match plan.filter, plan.predicate with
  | .filterNone, _ | _, none => .ok none
  | _, some pred => do
    let bm ← storageRead (ec.coll.engine.metadataFilter ec.coll.collID pred (some ec.snapshot))
    return some bm

def PhysicalPlan.indexFilter (plan : PhysicalPlan) (bitmap : Option PositionBitmap) :
    Option BitmapFilter :=
  if plan.filter = .filterPre ∨ plan.filter = .filterIn then some ⟨bitmap⟩ else none

def buildSource (ec : ExecContext) (plan : PhysicalPlan) (bitmap : Option PositionBitmap)
    (vector : Vec) (ef : ℤ) : Except QueryErr Opened :=
  match plan.path with
  | .flat => flatScanOp ec vector plan.maxK plan.metric bitmap
  | _ =>
    match ec.coll.index with
    | none => .error .noIndex
    | some ix =>
      indexScanOp ix vector plan.maxK (plan.indexFilter bitmap)
        { efSearch := ef, nProbe := plan.nProbe, maxCandidates := plan.maxK }

def buildTree (ec : ExecContext) (plan : PhysicalPlan) (vector : Vec) (ef : ℤ) :
    Except QueryErr Opened := do
  let bitmap ← filterBitmap ec plan
  let src ← buildSource ec plan bitmap vector ef
  let op := if plan.filter = .filterPost then postFilterOp bitmap src else src
  let op := if plan.rerank then rerankOp ec vector plan.metric plan.k (gatherVecOp ec op)
    else topKOp plan.k op
  let op := gatherMetaOp ec (ec.coll.colIDs plan.project) op
  return projectOp ec op

def assemble (coll : Collection) (names : List String) (r : BatchRow) : Row :=
  { pointID := r.pointID
    distance := r.cand.distance
    metadata := match r.metadata with
      | none => []
      | some cells => names.filterMap fun name =>
        (coll.colID name).bind fun id => (cells.lookup id).map fun v => (name, v) }

def appendRows (coll : Collection) (names : List String) (b : Batch) : List Row :=
  b.rows.map (assemble coll names)

/-- What pulling the batches gave: the rows, why it stopped early if it did, and how often the
context was looked at. -/
structure Driven where
  rows : List Row
  cancelled : Option CtxErr
  checks : ℕ

/-- Pull the batches. The context is looked at before each, and before the end is seen. -/
def pull (coll : Collection) (names : List String) (ctx : Ctx) : ℕ → List Batch → Driven
  | i, [] => ⟨[], ctx i, i + 1⟩
  | i, b :: bs =>
    match ctx i with
    | some err => ⟨[], some err, i + 1⟩
    | none =>
      let d := pull coll names ctx (i + 1) bs
      { d with rows := appendRows coll names b ++ d.rows }

/-- Pull what an opened operator produces; it fails only when it is asked for a batch. -/
def drive (coll : Collection) (names : List String) (ctx : Ctx) (i : ℕ) (root : Opened) :
    Except QueryErr Driven :=
  match ctx i, root with
  | some err, _ => .ok ⟨[], some err, i + 1⟩
  | none, .error e => .error e
  | none, .ok batches => .ok (pull coll names ctx i batches)

/-- Run the plan, again with a wider beam as long as there are too few rows. -/
def runPlan (ec : ExecContext) (plan : PhysicalPlan) (vector : Vec) (ctx : Ctx) :
    ℕ → ℤ → ℕ → Option (Except QueryErr ResultSet)
  | 0, _, _ => none
  | fuel + 1, ef, i =>
    match buildTree ec plan vector ef >>= drive ec.coll plan.project ctx i with
    | .error e => some (.error e)
    | .ok d =>
      if plan.allowWiden ∧ d.cancelled = none ∧ d.rows.length < plan.k ∧ ef < plan.maxEfSearch then
        runPlan ec plan vector ctx fuel (min (ef * 2) plan.maxEfSearch) d.checks
      else
        some (.ok
          { rows := d.rows
            isPartial := d.cancelled.isSome
            partialReason := (d.cancelled.map CtxErr.text).getD "" })

structure Executor where
  coll : Collection
  workers : ℕ
  kernels : Kernels

namespace Executor

def context (e : Executor) : ExecContext :=
  { coll := e.coll, snapshot := e.coll.engine.snapshot, workers := e.workers
    kernels := e.kernels }

/-- Run a query; there is no answer if the fuel does not last. -/
def execute (e : Executor) (fuel : ℕ) (ctx : Ctx) (plan : PhysicalPlan) (vector : Vec) :
    Option (Except QueryErr ResultSet) :=
  if vector.length ≠ e.coll.dims then some (.error .dimensionMismatch)
  else runPlan e.context plan vector ctx fuel plan.efSearch 0

end Executor

end VecDb.Query

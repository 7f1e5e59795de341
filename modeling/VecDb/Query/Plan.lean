import VecDb.Base.Fallible
import VecDb.Query.TopK
import VecDb.Storage.Engine

/-! # Physical plans

What the executor is given: the plan with its access path and filter strategy, and the
binding to a collection of the storage engine with its nearest-neighbour index.
-/

namespace VecDb.Query

open Storage

inductive Metric
  | l2Squared | l2 | cosine | dot | hamming | jaccard
  deriving DecidableEq

inductive PathKind
  | flat | hnsw | ivf | diskANN
  deriving DecidableEq

inductive FilterStrategy
  | filterNone
  | filterPre
  /-- Filter within the graph, again by a bitmap that the index is given. -/
  | filterIn
  | filterPost
  deriving DecidableEq

/-- A plan; the time is in nanoseconds. -/
structure PhysicalPlan where
  path : PathKind := .flat
  filter : FilterStrategy := .filterNone
  k : ℤ := 0
  efSearch : ℤ := 0
  nProbe : ℤ := 0
  metric : Metric := .l2Squared
  rerank : Bool := false
  rerankR : ℤ := 0
  project : List String := []
  includeDist : Bool := false
  predicate : Option Predicate := none
  /-- Whether a search with too few survivors is repeated with a wider beam. -/
  allowWiden : Bool := false
  maxEfSearch : ℤ := 0
  timeout : ℤ := 0
  estCost : Float64 := ⟨0⟩
  estRecall : Float64 := ⟨0⟩

inductive IndexErr
  | corrupt | memoryExceeded | closed | dimMismatch | badParams | cancelled
  deriving DecidableEq

structure SearchParams where
  efSearch : ℤ
  nProbe : ℤ
  maxCandidates : ℤ
  deriving DecidableEq

/-- A bitmap as the index sees it; using one without a bitmap panics. -/
structure BitmapFilter where
  bm : Option PositionBitmap

/-- A nearest-neighbour index: a search gives at most as many candidates as asked for, all of them
in the filter. -/
structure Index where
  search : Vec → ℤ → Option BitmapFilter → SearchParams → Except IndexErr (List Candidate)
  length_le : ∀ {q k f params cs}, search q k f params = .ok cs → cs.length ≤ k.toNat
  within : ∀ {q k bm params cs}, search q k (some ⟨some bm⟩) params = .ok cs →
    ∀ x ∈ cs, bm.contains x.position = true

/-- What is left of a closed index: a graph refuses to search, lists are empty. -/
def Index.close (index : Index) (kind : PathKind) : Index where
  search q k f params :=
    if kind = .hnsw then .error .closed else (index.search q k f params).map fun _ => []
  length_le h := by
    split at h
    · cases h
    · obtain ⟨_, -, rfl⟩ := Fallible.map_eq_ok.mp h
      exact Nat.zero_le _
  within h := by
    split at h
    · cases h
    · obtain ⟨_, -, rfl⟩ := Fallible.map_eq_ok.mp h
      simp

structure Collection where
  engine : Engine
  collID : UInt64
  dims : ℕ
  index : Option Index := none
  indexKind : PathKind := .flat
  m : ℤ := 0
  nList : ℤ := 0
  metaCols : List (String × ColID) := []

namespace Collection

def colID (c : Collection) (name : String) : Option ColID := c.metaCols.lookup name

def colIDs (c : Collection) (names : List String) : List ColID := names.filterMap c.colID

end Collection

structure Kernels where
  l2Squared : Vec → Vec → Float32
  cosine : Vec → Vec → Float32
  dot : Vec → Vec → Float32

def rankKernel (ks : Kernels) : Metric → Vec → Vec → Float32
  | .cosine => ks.cosine
  | .dot => fun a b => (ks.dot a b).neg
  | _ => ks.l2Squared

inductive CtxErr
  | canceled | deadlineExceeded
  deriving DecidableEq

def CtxErr.text : CtxErr → String
  | canceled => "context canceled"
  | deadlineExceeded => "context deadline exceeded"

inductive QueryErr
  | dimensionMismatch
  | indexSearch (e : IndexErr)
  | storageRead (e : Err)
  | noIndex
  | invalidEfSearch
  | invalidK
  | panic
  deriving DecidableEq

structure Row where
  pointID : PointID
  distance : Float32
  metadata : List (String × Value) := []
  deriving DecidableEq

structure ResultSet where
  rows : List Row
  isPartial : Bool := false
  partialReason : String := ""
  deriving DecidableEq

end VecDb.Query

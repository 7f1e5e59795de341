import Mathlib.Data.List.AList
import VecDb.Base.Float
import VecDb.Index.Layer

/-! # The HNSW index

A graph in layers, searched by greedy descent and then best-first in the lowest layer. A deletion
leaves the node behind as a hop. The random level of a new node comes with the call. Nothing is
returned where the code would use a missing vector.
-/

namespace VecDb.Index

/-- The mark of an absent entry point. -/
def invalidPos : UInt32 := 4294967295

inductive IndexErr | dimMismatch | badParams | corrupt
  deriving DecidableEq

structure Node where
  maxLevel : ℕ
  neighbors : ℕ → List UInt32
  deleted : Bool

abbrev Vector := List Float32

structure HNSW (D : Type*) where
  m : ℕ
  m0 : ℕ
  efConstruction : ℕ
  dim : ℕ
  naiveSelect : Bool
  dist : Vector → Vector → D
  nodes : AList fun _ : UInt32 => Node := ∅
  vecs : AList fun _ : UInt32 => Vector := ∅
  entrypoint : UInt32 := invalidPos
  maxLayer : ℤ := -1

structure HNSWConfig (D : Type*) where
  dim : ℤ
  m : ℤ := 0
  m0 : ℤ := 0
  efConstruction : ℤ := 0
  naiveSelect : Bool := false
  dist : Vector → Vector → D

structure BuildParams (D : Type*) where
  m : ℤ := 0
  m0 : ℤ := 0
  efConstruction : ℤ := 0
  dist : Option (Vector → Vector → D) := none
  naiveSelect : Bool := false

def orDefault (n : ℤ) (d : ℕ) : ℕ := if 0 < n then n.toNat else d

namespace HNSW

variable {D : Type*}

def new (cfg : HNSWConfig D) : Except IndexErr (HNSW D) :=
  if cfg.dim ≤ 0 then .error .badParams
  else
    let m := orDefault cfg.m 16
    let efc := orDefault cfg.efConstruction 200
    if efc < m then .error .badParams
    else .ok { m, m0 := orDefault cfg.m0 (2 * m), efConstruction := efc, dim := cfg.dim.toNat,
               naiveSelect := cfg.naiveSelect, dist := cfg.dist }

def applyBuildParams (h : HNSW D) (p : BuildParams D) : HNSW D :=
  { h with
    m := orDefault p.m h.m
    m0 := orDefault p.m0 (if 0 < p.m then 2 * p.m.toNat else h.m0)
    efConstruction := orDefault p.efConstruction h.efConstruction
    dist := p.dist.getD h.dist
    naiveSelect := p.naiveSelect }

def vec (h : HNSW D) (pos : UInt32) : Vector := (h.vecs.lookup pos).getD []

def navDist (h : HNSW D) (query : Vector) (pos : UInt32) : Option D :=
  (h.vecs.lookup pos).map (h.dist query)

def storeVector (h : HNSW D) (pos : UInt32) (v : Vector) : HNSW D :=
  { h with vecs := h.vecs.insert pos v }

/-- The neighbours of a node in a layer; none if there is no such node or it does not reach it. -/
def neighborsAt (h : HNSW D) (layer : ℕ) (pos : UInt32) : List UInt32 :=
  match h.nodes.lookup pos with
  | some node => if node.maxLevel < layer then [] else node.neighbors layer
  | none => []

def live (h : HNSW D) (pos : UInt32) : Bool := (h.nodes.lookup pos).any fun n => !n.deleted

def admissible (h : HNSW D) (filter : Option (UInt32 → Bool)) (pos : UInt32) : Bool :=
  h.live pos && filter.all (· pos)

def setNeighbors (h : HNSW D) (pos : UInt32) (layer : ℕ) (ns : List UInt32) : HNSW D :=
  match h.nodes.lookup pos with
  | some n =>
    { h with nodes := h.nodes.insert pos { n with neighbors := Function.update n.neighbors layer ns } }
  | none => h

variable [LinearOrder D]

/-- The diverse candidates and those left out, until there are enough. -/
def choose (h : HNSW D) (maxM : ℕ) :
    List (Candidate D) → List UInt32 → List UInt32 → List UInt32 × List UInt32
  | [], selected, discarded => (selected, discarded)
  | e :: es, selected, discarded =>
    if maxM ≤ selected.length then (selected, discarded)
    else if selected.any fun s => h.dist (h.vec e.position) (h.vec s) < e.distance then
      h.choose maxM es selected (discarded ++ [e.position])
    else h.choose maxM es (selected ++ [e.position]) discarded

def selectNeighbors (h : HNSW D) (candidates : List (Candidate D)) (maxM : ℕ) : List UInt32 :=
  if candidates.length ≤ maxM then candidates.map (·.position)
  else if h.naiveSelect then (candidates.take maxM).map (·.position)
  else
    let (selected, discarded) := h.choose maxM candidates [] []
    selected ++ discarded.take (maxM - selected.length)

def pruneNeighbors (h : HNSW D) (pos : UInt32) (neighbors : List UInt32) (maxM : ℕ) : List UInt32 :=
  let cands := neighbors.map fun nb => ⟨nb, h.dist (h.vec pos) (h.vec nb)⟩
  h.selectNeighbors (sortCandidates cands) maxM

def linkBack (h : HNSW D) (src : UInt32) (layer maxM : ℕ) (dst : UInt32) : HNSW D :=
  match h.nodes.lookup dst with
  | none => h
  | some node =>
    if node.maxLevel < layer ∨ src ∈ node.neighbors layer then h
    else
      let existing := node.neighbors layer ++ [src]
      h.setNeighbors dst layer
        (if maxM < existing.length then h.pruneNeighbors dst existing maxM else existing)

def descend (h : HNSW D) (query : Vector) (lo : ℕ) : Option (Candidate D) := do
  let d ← h.navDist query h.entrypoint
  (List.range' lo (h.maxLayer + 1 - lo).toNat).reverse.foldlM (fun cur layer =>
    greedyDescend (h.neighborsAt layer) (h.navDist query) (h.nodes.keys.length + 1) cur)
    ⟨h.entrypoint, d⟩

variable [Inhabited D]

def searchLayer (h : HNSW D) (query : Vector) (ep : UInt32) (ef layer : ℕ)
    (filter : Option (UInt32 → Bool)) : Option (List (Candidate D)) :=
  searchFrom (h.neighborsAt layer) (h.navDist query) (h.admissible filter) ef
    (h.nodes.keys.length + 1) ep

def maxNeighbors (h : HNSW D) (layer : ℕ) : ℕ := if layer = 0 then h.m0 else h.m

def linkLayer (pos : UInt32) (query : Vector) (s : HNSW D × UInt32) (layer : ℕ) :
    Option (HNSW D × UInt32) := do
  let h := s.1
  let maxM := h.maxNeighbors layer
  let candidates ← h.searchLayer query s.2 h.efConstruction layer none
  let neighbors := h.selectNeighbors candidates maxM
  let h := neighbors.foldl (fun h nb => h.linkBack pos layer maxM nb)
    (h.setNeighbors pos layer neighbors)
  return (h, (candidates.head?.map (·.position)).getD s.2)

def insertLocked (h : HNSW D) (pos : UInt32) (level : ℕ) : Option (HNSW D) :=
  let h := { h with nodes := h.nodes.insert pos ⟨level, fun _ => [], false⟩ }
  if h.entrypoint = invalidPos then some { h with entrypoint := pos, maxLayer := level }
  else do
    let query := h.vec pos
    let cur ← h.descend query (level + 1)
    let s ← (List.range (min (level : ℤ) h.maxLayer + 1).toNat).reverse.foldlM (linkLayer pos query)
      (h, cur.position)
    return if s.1.maxLayer < level then { s.1 with maxLayer := level, entrypoint := pos } else s.1

def insert (h : HNSW D) (pos : UInt32) (v : Vector) (level : ℕ) :
    Option (HNSW D × Option IndexErr) :=
  if v.length ≠ h.dim then some (h, some .dimMismatch)
  else return (← (h.storeVector pos v).insertLocked pos level, none)

def insertAll (vectorAt : UInt32 → Vector) :
    HNSW D → List (UInt32 × ℕ) → Option (HNSW D × Option IndexErr)
  | h, [] => some (h, none)
  | h, (pos, level) :: ps =>
    if (vectorAt pos).length ≠ h.dim then some (h, some .dimMismatch)
    else do insertAll vectorAt (← (h.storeVector pos (vectorAt pos)).insertLocked pos level) ps

def build (h : HNSW D) (positions : List (UInt32 × ℕ)) (vectorAt : UInt32 → Vector)
    (params : BuildParams D) : Option (HNSW D × Option IndexErr) :=
  insertAll vectorAt { h.applyBuildParams params with
    nodes := ∅, vecs := ∅, entrypoint := invalidPos, maxLayer := -1 } positions

def higher (best : UInt32 × ℤ) (e : (_ : UInt32) × Node) : UInt32 × ℤ :=
  if e.2.deleted then best
  else if best.2 < e.2.maxLevel ∨ best.2 = e.2.maxLevel ∧ e.1 < best.1 then (e.1, e.2.maxLevel)
  else best

/-- The live node of the highest level, the first of these by position. -/
def highest (h : HNSW D) : UInt32 × ℤ := h.nodes.entries.foldl higher (invalidPos, -1)

def repairEntrypoint (h : HNSW D) (old : UInt32) : HNSW D :=
  let node := h.nodes.lookup old
  let hops := node.toList.flatMap fun n => (List.range (n.maxLevel + 1)).reverse.flatMap n.neighbors
  match hops.find? h.live with
  | some nb => { h with entrypoint := nb, maxLayer := (h.nodes.lookup nb).elim 0 (·.maxLevel) }
  | none =>
    { h with
      entrypoint := h.highest.1
      maxLayer := if h.highest.1 = invalidPos then -1 else h.highest.2 }

def delete (h : HNSW D) (pos : UInt32) : HNSW D :=
  match h.nodes.lookup pos with
  | none => h
  | some node =>
    if node.deleted then h
    else
      let h := { h with nodes := h.nodes.insert pos { node with deleted := true } }
      if pos = h.entrypoint then h.repairEntrypoint pos else h

def effectiveEf (efSearch : ℤ) (k : ℕ) : ℕ := max (orDefault efSearch 50) k

def search (h : HNSW D) (query : Vector) (k : ℕ) (filter : Option (UInt32 → Bool))
    (efSearch : ℤ) : Option (Except IndexErr (List (Candidate D))) :=
  if query.length ≠ h.dim then some (.error .dimMismatch)
  else if h.entrypoint = invalidPos then some (.ok [])
  else do
    let ep ← h.descend query 1
    let candidates ← h.searchLayer query ep.position (effectiveEf efSearch k) 0 filter
    return .ok (candidates.take k)

inductive Event (D : Type*)
  | build (positions : List (UInt32 × ℕ)) (vectorAt : UInt32 → Vector) (params : BuildParams D)
  | insert (pos : UInt32) (v : Vector) (level : ℕ)
  | delete (pos : UInt32)

def apply (h : HNSW D) : Event D → Option (HNSW D)
  | .build positions vectorAt params => (h.build positions vectorAt params).map (·.1)
  | .insert pos v level => (h.insert pos v level).map (·.1)
  | .delete pos => some (h.delete pos)

def run (h : HNSW D) (events : List (Event D)) : Option (HNSW D) := events.foldlM apply h

end HNSW

end VecDb.Index

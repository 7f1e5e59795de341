import VecDb.Facade.Points

/-! # Building indexes

An index is built over the vectors that are live when it is created or rebuilt. Writes,
deletes and compactions do not reach it.
-/

namespace VecDb.Facade

structure IndexSpec where
  name : Bytes := []
  column : Bytes := []
  type : IndexType := .flat
  params : List (Bytes × ℤ) := []

inductive IndexConfig
  | hnsw (dim : ℕ) (metric : Option Catalog.Metric) (m efConstruction : ℤ)
  | ivf (dim : ℕ) (metric : Option Catalog.Metric) (nList nProbe pqm : ℤ)

structure Builders where
  new : IndexConfig → Except Query.IndexErr Query.Index
  build : IndexConfig → List (UInt32 × Storage.Vec) → Except Query.IndexErr Query.Index

def paramInt (p : List (Bytes × ℤ)) (key : Bytes) (default : ℤ) : ℤ := (p.lookup key).getD default

def hasVectorColumn (cc : Catalog.Collection) (name : Bytes) : Bool :=
  cc.schema.vectorColumns.any (·.name = name)

def indexConfig (cc : Catalog.Collection) (cs : CollState) : Option IndexConfig :=
  let dim := cc.storageDef.dims.toNat
  let metric := cc.schema.primary.vecMetric
  let nlist := paramInt cs.idxParams (ascii "nlist") 0
  let nprobe := paramInt cs.idxParams (ascii "nprobe") 0
  let pqm := paramInt cs.idxParams (ascii "pq_m") 0
  match cs.idxType with
  | .hnsw => some (.hnsw dim metric (paramInt cs.idxParams (ascii "m") 16)
      (paramInt cs.idxParams (ascii "ef_construction") 200))
  | .ivfFlat => some (.ivf dim metric nlist nprobe 0)
  | .ivfPQ => some (.ivf dim metric nlist nprobe (if pqm ≤ 0 then 8 else pqm))
  | .flat | .diskANN => none

/-- The path and the sizes that a query uses with a new index. -/
def withConfig (cs : CollState) (index : Query.Index) : IndexConfig → CollState
  | .hnsw _ _ m _ => { cs with index := some index, idxKind := .hnsw, m }
  | .ivf _ _ nlist _ _ => { cs with index := some index, idxKind := .ivf, nlist }

section Build

variable (builders : Builders)

/-- Construct the configured index and build it over the vectors of a scan. The old index is
given up first. -/
def buildIndexLocked (engine : Storage.Engine) (cc : Catalog.Collection) (cs : CollState) :
    CollState × Except LibErr Unit :=
  let cs := { cs with index := none }
  match indexConfig cc cs with
  | none =>
    if cs.idxType = .flat then ({ cs with idxKind := .flat, m := 0, nlist := 0 }, .ok ())
    else (cs, .error .unsupported)
  | some config =>
    match builders.new config with
    | .error _ => (cs, .error .unknownParam)
    | .ok empty =>
      let cs := withConfig cs empty config
      match engine.scanVectors cc.id (some engine.snapshot) with
      | .error e => (cs, .error (.storage e))
      | .ok vectors =>
        match builders.build config vectors with
        | .error e => ({ cs with index := none, idxKind := .flat }, .error (.index e))
        | .ok index => ({ cs with index := some index }, .ok ())

namespace DB

def buildInto (db : DB) (name : Bytes) (cc : Catalog.Collection) (cs : CollState) :
    DB × Except LibErr Unit :=
  let (cs, r) := buildIndexLocked builders db.sys.engine cc cs
  ({ db with colls := Function.update db.colls name (some cs) }, r)

def createIndex (db : DB) (canceled : Bool) (name : Bytes) (spec : IndexSpec) :
    DB × Except LibErr Unit :=
  match db.guard canceled with
  | .error e => (db, .error e)
  | .ok () =>
    match db.colls name with
    | none => (db, .error .notFound)
    | some cs =>
      match db.cat.collections cs.collID with
      | none => (db, .error .notFound)
      | some cc =>
        let column := if spec.column = [] then vectorColumn cc else spec.column
        if hasVectorColumn cc column then
          db.buildInto builders name cc { cs with
            idxName := spec.name, idxType := spec.type, idxColumn := column
            idxParams := spec.params }
        else (db, .error .unknownColumn)

/-- Rebuild an index. A database that is only read does not refuse this. -/
def buildIndex (db : DB) (canceled : Bool) (name : Bytes) : DB × Except LibErr Unit :=
  if canceled then (db, .error .canceled)
  else if db.closed then (db, .error .closed)
  else
    match db.colls name with
    | none => (db, .error .notFound)
    | some cs =>
      match db.cat.collections cs.collID with
      | none => (db, .error .notFound)
      | some cc =>
        if cs.idxName = [] then (db, .error .notFound) else db.buildInto builders name cc cs

end DB

end Build

def DB.dropIndex (db : DB) (canceled : Bool) (name idxName : Bytes) : DB × Except LibErr Unit :=
  match db.guard canceled with
  | .error e => (db, .error e)
  | .ok () =>
    match db.colls name with
    | none => (db, .error .notFound)
    | some cs =>
      if cs.idxName = [] ∨ (idxName ≠ [] ∧ cs.idxName ≠ idxName) then (db, .error .notFound)
      else
        ({ db with colls := Function.update db.colls name (some { collID := cs.collID }) }, .ok ())

end VecDb.Facade

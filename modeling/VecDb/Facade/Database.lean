import VecDb.Catalog.Registry
import VecDb.Query.Plan

/-! # The database and its names

A collection is created from a public schema, whose columns are translated to those of the
catalog. A database keeps its open collections under their names, apart from the names of the
catalog: creating and dropping changes both registries, renaming the open collections only.
-/

namespace VecDb.Facade

/-- The errors of the library, with those of the engine and the catalog that pass through. -/
inductive LibErr
  | notFound | alreadyExists | readOnly | closed | dimMismatch | txnTooBig | canceled
  | unknownColumn | unknownParam | unsupported | busy
  | schemaError (column reason : Bytes)
  | schemaViolation (cause : Catalog.Err)
  | catalog (e : Catalog.Err)
  | storage (e : Storage.Err)
  | index (e : Query.IndexErr)
  | query (e : Query.QueryErr)
  deriving DecidableEq

inductive ColumnType
  | vector | int64 | float64 | bool | text | bytes | json | timestamp | null
  deriving DecidableEq

inductive Metric
  | l2 | cosine | dot | hamming | jaccard
  deriving DecidableEq

def Metric.catalogMetric : Metric → Catalog.Metric
  | cosine => .cosine
  | dot => .innerProduct
  | hamming => .hamming
  | jaccard => .jaccard
  | l2 => .l2

/-- A column of a public schema; its dimension is a machine integer. -/
structure ColumnDef where
  name : Bytes
  type : ColumnType
  dim : Int64 := 0
  metric : Metric := .l2
  notNull : Bool := false
  default : Option Catalog.Value := none

structure CollectionSchema where
  name : Bytes
  columns : List ColumnDef := []

def metadataKind : ColumnType → Option Catalog.Kind
  | .int64 => some .bigInt
  | .float64 => some .double
  | .bool => some .bool
  | .text => some .text
  | .bytes => some .blob
  | .json => some .json
  | .timestamp => some .timestamp
  | .vector | .null => none

/-- The column of the catalog; the dimension is cut to 32 bits. -/
def toCatalogColumn (col : ColumnDef) : Except LibErr Catalog.ColumnDef :=
  if col.type = .vector then
    if col.dim ≤ 0 then
      .error (.schemaError col.name (ascii "vector column needs a positive dimension"))
    else .ok
      { name := col.name, nullable := !col.notNull, kind := .vector
        dim := col.dim.toUInt64.toUInt32
        elemType := some .fp32, vecMetric := some col.metric.catalogMetric }
  else
    match metadataKind col.type with
    | none => .error (.schemaError col.name (ascii "unsupported column type"))
    | some dataType => .ok
        { name := col.name, nullable := !col.notNull, kind := .metadata, dataType
          default := col.default }

def isImplicitKey (col : ColumnDef) : Bool :=
  col.name = ascii "id" || col.name = ascii "point_id"

def toCatalogColumns : List ColumnDef → Except LibErr (List Catalog.ColumnDef)
  | [] => .ok []
  | col :: cols =>
    if isImplicitKey col then toCatalogColumns cols
    else do
      let c ← toCatalogColumn col
      let cs ← toCatalogColumns cols
      .ok (c :: cs)

def catalogSchema (name : Bytes) (columns : List Catalog.ColumnDef) : Catalog.Schema :=
  { name, idName := ascii "id", idKind := .bigInt, autoIncrement := true, mode := some .fixed
    columns }

def toCatalogSchema (s : CollectionSchema) : Except LibErr Catalog.Schema :=
  if s.name = [] then .error (.schemaError [] (ascii "collection name is empty"))
  else
    match toCatalogColumns s.columns with
    | .error e => .error e
    | .ok columns =>
      if columns.any (·.kind = .vector) then .ok (catalogSchema s.name columns)
      else .error (.schemaError [] (ascii "schema has no vector column"))

def mapCatalogErr : Catalog.Err → LibErr
  | .collectionExists => .alreadyExists
  | .collectionNotFound => .notFound
  | .invalidSchema column reason => .schemaViolation (.invalidSchema column reason)
  | .reservedName => .schemaViolation .reservedName
  | .metricUnsupported column => .schemaViolation (.metricUnsupported column)
  | e => .catalog e

open Function

open Catalog (Codecs)

inductive IndexType
  | flat | hnsw | ivfFlat | ivfPQ | diskANN
  deriving DecidableEq

/-- The runtime state of an open collection: its handle and its index. -/
structure CollState where
  collID : UInt64
  idxName : Bytes := []
  idxType : IndexType := .flat
  idxColumn : Bytes := []
  idxParams : List (Bytes × ℤ) := []
  index : Option Query.Index := none
  idxKind : Query.PathKind := .flat
  m : ℤ := 0
  nlist : ℤ := 0

structure DB where
  readOnly : Bool := false
  closed : Bool := false
  sys : Storage.Sys := {}
  cat : Catalog.Registry := {}
  colls : Bytes → Option CollState := fun _ => none

namespace DB

def guard (db : DB) (canceled : Bool) : Except LibErr Unit :=
  if canceled then .error .canceled
  else if db.closed then .error .closed
  else if db.readOnly then .error .readOnly
  else .ok ()

def openCollection (db : DB) (name : Bytes) (cat : Catalog.Registry) (cid : UInt64)
    (def_ : Storage.CollectionDef) : DB × Except LibErr Unit :=
  match db.sys.engine.createCollection def_ with
  | .error e => ({ db with cat }, .error (.storage e))
  | .ok engine =>
    ({ db with
        cat
        sys := { db.sys with engine }
        colls := update db.colls name (some { collID := cid }) }, .ok ())

def createCollection (codecs : Codecs) (db : DB) (canceled : Bool) (schema : CollectionSchema) :
    DB × Except LibErr Unit :=
  match db.guard canceled with
  | .error e => (db, .error e)
  | .ok () =>
    match db.colls schema.name with
    | some _ => (db, .error .alreadyExists)
    | none =>
      match toCatalogSchema schema with
      | .error e => (db, .error e)
      | .ok s =>
        match db.cat.createCollection codecs s false with
        | .error e => (db, .error (mapCatalogErr e))
        | .ok (cat, cid, _) =>
          match cat.collections cid with
          | none => (db, .error .notFound)
          | some cc => db.openCollection schema.name cat cid cc.storageDef

def dropCollection (db : DB) (canceled : Bool) (name : Bytes) : DB × Except LibErr Unit :=
  match db.guard canceled with
  | .error e => (db, .error e)
  | .ok () =>
    match db.colls name with
    | none => (db, .error .notFound)
    | some cs =>
      match db.cat.dropCollection name false with
      | .error e =>
        -- the index has been closed before the catalog is asked
        let cs := { cs with index := cs.index.map (·.close cs.idxKind) }
        ({ db with colls := update db.colls name (some cs) }, .error (mapCatalogErr e))
      | .ok (cat, _) => ({ db with cat, colls := update db.colls name none }, .ok ())

/-- Rename an open collection: the schema of its handle gets the new name. -/
def renameCollection (db : DB) (canceled : Bool) (oldName newName : Bytes) :
    DB × Except LibErr Unit :=
  match db.guard canceled with
  | .error e => (db, .error e)
  | .ok () =>
    match db.colls oldName with
    | none => (db, .error .notFound)
    | some cs =>
      match db.colls newName with
      | some _ => (db, .error .alreadyExists)
      | none =>
        ({ db with
            cat := { db.cat with
              collections := update db.cat.collections cs.collID
                ((db.cat.collections cs.collID).map fun cc =>
                  { cc with schema := { cc.schema with name := newName } }) }
            colls := update (update db.colls oldName none) newName (some cs) },
          .ok ())

end DB

end VecDb.Facade

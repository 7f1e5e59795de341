import VecDb.Facade.Database

/-! # Points and transactions

A write prepares the identity of its point in the catalog and then calls the engine; a rollback
undoes the calls on the engine, but not what they did to the catalog. Every snapshot sees the
slots of all transactions.
-/

namespace VecDb.Facade

open Storage

inductive Value
  | null
  | int (i : Int64)
  | float (f : Float64)
  | bool (b : Bool)
  | text (s : Bytes)
  | bytes (b : Bytes)
  | json (s : Bytes)
  /-- Microseconds since the Unix epoch. -/
  | timestamp (us : Int64)
  deriving DecidableEq

namespace Value

def catalogValue : Value → Catalog.Value
  | null => .null
  | int i => .bigInt i
  | float f => .double f
  | bool b => .bool b
  | text s => .text s
  | bytes b => .blob b
  | json s => .json s
  | timestamp us => .timestamp us

def type : Value → ColumnType
  | null => .null
  | int _ => .int64
  | float _ => .float64
  | bool _ => .bool
  | text _ => .text
  | bytes _ => .bytes
  | json _ => .json
  | timestamp _ => .timestamp

end Value

def unixMicro (ns : Int64) : Int64 := .ofInt (ns.toInt / 1000)

def valueFromStorage : Storage.Value → Value
  | .int i => .int i
  | .float f => .float f
  | .bool b => .bool b
  | .text s => .text s
  | .bytes b => .bytes b
  | .timestamp ns => .timestamp (unixMicro ns)
  | .null => .null

/-- The id of a point: a number, or bytes if the flag is set. -/
structure PointID where
  n : UInt64 := 0
  b : Bytes := []
  isBytes : Bool := false
  deriving DecidableEq

/-- A point; the vectors are the dense ones, where `none` is one that is not set. -/
structure Point where
  id : PointID := {}
  vectors : List (Bytes × Option Vec) := []
  metadata : List (Bytes × Value) := []
  deriving DecidableEq

def enginePID (id : PointID) : Storage.PointID := if id.isBytes then Catalog.fnv1a id.b else id.n

def vectorColumn (cc : Catalog.Collection) : Bytes :=
  match cc.schema.vectorColumns with
  | [] => []
  | c :: _ => c.name

/-- The vector of a point: the one under the name of the column, or the only one. -/
def vectorOf (cc : Catalog.Collection) (p : Point) : Option Vec :=
  match p.vectors.lookup (vectorColumn cc), p.vectors with
  | some v, _ => v
  | none, [(_, v)] => v
  | none, _ => none

def denseFor (cc : Catalog.Collection) (p : Point) : Except LibErr (Bytes × Vec) :=
  match vectorOf cc p with
  | some v => .ok (vectorColumn cc, v)
  | none => .error
      (.schemaError (vectorColumn cc) (ascii "point has no dense vector for the column"))

def classifyWriteErr : Catalog.Err → LibErr
  | .dimMismatch _ _ _ => .dimMismatch
  | .duplicateKey => .alreadyExists
  | .collectionNotFound => .notFound
  | .sequenceOverflow => .txnTooBig
  | .nanInVector c i => .schemaViolation (.nanInVector c i)
  | .infInVector c i => .schemaViolation (.infInVector c i)
  | .nullViolation c => .schemaViolation (.nullViolation c)
  | .typeMismatch c d g => .schemaViolation (.typeMismatch c d g)
  | .valueOutOfRange c i => .schemaViolation (.valueOutOfRange c i)
  | .valueTooLarge c => .schemaViolation (.valueTooLarge c)
  | .idTypeMismatch => .schemaViolation .idTypeMismatch
  | .idRequired => .schemaViolation .idRequired
  | .invalidSchema c r => .schemaViolation (.invalidSchema c r)
  | e => .catalog e

/-- The id that a write supplies; the number zero asks for an automatic one. -/
def suppliedID (id : PointID) : Option Catalog.Id :=
  if id.isBytes then some (.blob id.b) else if id.n ≠ 0 then some (.bigInt id.n) else none

def publicID : Catalog.Id → PointID
  | .bigInt n => { n }
  | .text b | .blob b => { b, isBytes := true }

def rowOf (entries : List (ColID × Storage.Value)) : MetaRow where
  entries := entries.foldl (fun m e => Assoc.upsert e.1 (fun _ => e.2) m) []
  nodup := @Assoc.nodup_keys_foldl _ _ _ _ Prod.fst (fun e _ => e.2) entries [] List.nodup_nil

def allMetaCols (cc : Catalog.Collection) : List ColID :=
  cc.schema.metadataColumns.filterMap fun col => cc.colID col.name

def pointFromRecord (cc : Catalog.Collection) (rec : PointRecord) : Point where
  id := { n := rec.id }
  vectors := [(vectorColumn cc, some rec.vec)]
  metadata := cc.schema.metadataColumns.filterMap fun col =>
    (cc.colID col.name).bind fun id =>
      (rec.metadata.lookup id).map fun v => (col.name, valueFromStorage v)

/-- The transaction that a call is given: none, one that only reads, or the writing one. -/
inductive TxnRef
  | none | reader | writer
  deriving DecidableEq

/-- What the clock and the iteration order of maps contribute to a write. -/
structure Ambient where
  now : Catalog.Value := .null
  order : RangeOrder := .id

namespace DB

def state (db : DB) (name : Bytes) : Except LibErr CollState :=
  if db.closed then .error .closed
  else
    match db.colls name with
    | none => .error .notFound
    | some cs => .ok cs

def handle (db : DB) (name : Bytes) : Except LibErr Catalog.Collection :=
  match db.state name with
  | .error e => .error e
  | .ok cs =>
    match db.cat.collections cs.collID with
    | none => .error .notFound
    | some cc => .ok cc

/-- The transaction and the collection that a write is made on; without the writer lock it is
done. -/
def requireWrite (db : DB) (txn : TxnRef) (name : Bytes) :
    Except LibErr (Txn × Catalog.Collection) :=
  match txn with
  | .none | .reader => .error .readOnly
  | .writer =>
    match db.sys.writer with
    | none => .error .closed
    | some t => (db.handle name).map fun cc => (t, cc)

def setHandle (db : DB) (cc : Catalog.Collection) : DB :=
  { db with
    cat := { db.cat with collections := Function.update db.cat.collections cc.id (some cc) } }

def callEngine (db : DB) (t : Txn) (k : UInt64) (w : Storage.Write) :
    DB × Option Storage.Err :=
  let (engine, t, err) := db.sys.engine.call t k w
  ({ db with sys := { db.sys with engine, writer := some t } }, err)

def writeCall (upsert : Bool) (order : RangeOrder) (id : Storage.PointID)
    (vec : Vec) (row : MetaRow) : Storage.Write :=
  if upsert then .upsert order id vec row else .insert order id vec row

def writeOne (db : DB) (t : Txn) (cc : Catalog.Collection) (p : Point) (upsert : Bool)
    (amb : Ambient) : DB × Except LibErr PointID :=
  match denseFor cc p with
  | .error e => (db, .error e)
  | .ok (col, dense) =>
    match cc.validateVector col dense with
    | .error e => (db, .error (classifyWriteErr e))
    | .ok () =>
      match cc.prepareID (suppliedID p.id) with
      | .error e => (db, .error (classifyWriteErr e))
      | .ok (cc, resolved) =>
        let db := db.setHandle cc
        match cc.lowerMeta (p.metadata.map fun e => (e.1, e.2.catalogValue)) amb.now with
        | .error e => (db, .error (classifyWriteErr e))
        | .ok row =>
          let w := writeCall upsert amb.order resolved.engineID dense (rowOf row)
          match db.callEngine t cc.id w with
          | (db, some e) => (db, .error (.storage e))
          | (db, none) => (db, .ok (publicID resolved))

def write (db : DB) (txn : TxnRef) (name : Bytes) (p : Point) (upsert : Bool) (amb : Ambient) :
    DB × Except LibErr PointID :=
  match db.requireWrite txn name with
  | .error e => (db, .error e)
  | .ok (t, cc) => db.writeOne t cc p upsert amb

/-- Delete a point. The number of the id is noted, also if the point was found by bytes. -/
def delete (db : DB) (txn : TxnRef) (name : Bytes) (id : PointID) : DB × Except LibErr Unit :=
  match db.requireWrite txn name with
  | .error e => (db, .error e)
  | .ok (t, cc) =>
    match db.callEngine t cc.id (.delete (enginePID id)) with
    | (db, some e) => (db, .error (.storage e))
    | (db, none) => (db.setHandle (cc.noteDeleted (.bigInt id.n)), .ok ())

def snapshot (db : DB) (readSeq : Option ℕ) : Mvcc.Snapshot :=
  match readSeq with
  | some readSeq => { readSeq }
  | none => db.sys.engine.snapshot

def get (db : DB) (readSeq : Option ℕ) (name : Bytes) (id : PointID) : Except LibErr Point :=
  match db.handle name with
  | .error e => .error e
  | .ok cc =>
    match db.sys.engine.lookupID cc.id (enginePID id) with
    | .error _ => .error .notFound
    | .ok pos =>
      match db.sys.engine.fetch cc.id pos (some (allMetaCols cc)) (some (db.snapshot readSeq)) with
      | .error _ => .error .notFound
      | .ok rec => .ok (pointFromRecord cc rec)

def scan (db : DB) (name : Bytes) : Except LibErr (List Point) :=
  match db.handle name with
  | .error e => .error e
  | .ok cc =>
    match db.sys.engine.scanVectors cc.id (some (db.snapshot none)) with
    | .error e => .error (.storage e)
    | .ok visited =>
      visited.mapM fun x =>
        match db.sys.engine.fetch cc.id x.1 (some (allMetaCols cc)) (some (db.snapshot none)) with
        | .error e => .error (.storage e)
        | .ok rec => .ok (pointFromRecord cc rec)

/-- Start the writing transaction. While there is one, the call waits until it times out. -/
def begin (db : DB) : DB × Except LibErr Unit :=
  if db.closed then (db, .error .closed)
  else if db.readOnly then (db, .error .readOnly)
  else
    match db.sys.writer with
    | some _ => (db, .error .busy)
    | none =>
      ({ db with sys := { engine := db.sys.engine.begin.1, writer := some db.sys.engine.begin.2 } },
        .ok ())

def commit (db : DB) : DB × Except LibErr Unit :=
  match db.sys.writer with
  | none => (db, .error .closed)
  | some t => ({ db with sys := { engine := db.sys.engine.commit t } }, .ok ())

def rollback (db : DB) : DB × Except LibErr Unit :=
  match db.sys.writer with
  | none => (db, .ok ())
  | some t => ({ db with sys := { engine := db.sys.engine.abort t } }, .ok ())

end DB

inductive Op
  | write (txn : TxnRef) (name : Bytes) (p : Point) (upsert : Bool) (amb : Ambient)
  | delete (txn : TxnRef) (name : Bytes) (id : PointID)
  | get (readSeq : Option ℕ) (name : Bytes) (id : PointID)
  | begin | commit | rollback

inductive Reply
  | id (r : Except LibErr PointID)
  | done (r : Except LibErr Unit)
  | point (r : Except LibErr Point)
  deriving DecidableEq

namespace DB

def act (db : DB) : Op → DB × Reply
  | .write txn name p upsert amb =>
    let (db, r) := db.write txn name p upsert amb
    (db, .id r)
  | .delete txn name id =>
    let (db, r) := db.delete txn name id
    (db, .done r)
  | .get readSeq name id => (db, .point (db.get readSeq name id))
  | .begin => let (db, r) := db.begin; (db, .done r)
  | .commit => let (db, r) := db.commit; (db, .done r)
  | .rollback => let (db, r) := db.rollback; (db, .done r)

def acts (db : DB) : List Op → DB × List Reply
  | [] => (db, [])
  | op :: ops =>
    let (db, r) := db.act op
    let (db, rs) := db.acts ops
    (db, r :: rs)

end DB

end VecDb.Facade

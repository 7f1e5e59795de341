import VecDb.Server.PgWire.Params

/-! # Statements on the database

The statements that the wire protocol supports, each as calls of the library. Tables and
indexes are created and dropped at once; rows are written in the open transaction, or in one
of their own.
-/

namespace VecDb.PgWire

open VectorSql (Expr ColumnSpec CreateTableStmt CreateIndexStmt InsertStmt UpdateStmt DeleteStmt
  DropStmt SelectStmt ExprAlias)
open Facade (DB LibErr ExecErr ColumnType Point PointID Ambient TxnRef Result IndexType)

/-- The configuration of the server, with what it takes from the platform. -/
structure Options where
  version : Bytes
  authMode : Bytes
  /-- Whether a user and a password are accepted. -/
  verify : Option (Bytes → Bytes → Bool)
  path : Bytes
  sc : Strconv
  codecs : Catalog.Codecs
  builders : Facade.Builders
  machine : Facade.Machine
  /-- The text of an instant in microseconds. -/
  timeText : Int64 → Bytes

/-- What a statement meets: the context, the clock, and what others did to the database before
it. -/
structure Env where
  canceled : Bool := false
  ctx : Query.Ctx := fun _ => none
  amb : ℕ → Ambient := fun _ => {}
  other : DB → DB := id

section Errors

def unsupported (message : Message) : PgError :=
  { code := "0A000", message, hint := "vec supports the pgvector kNN subset; see documentation" }

def mapError (e : ExecErr) : PgError :=
  match e with
  | .lib .notFound => { code := "42P01", message := .exec e }
  | .lib .alreadyExists => { code := "42P07", message := .exec e }
  | .lib .dimMismatch => { code := "22000", message := .exec e }
  | .lib (.schemaError _ _) | .lib (.schemaViolation _) | .lib .unknownColumn | .sql _ | .noVector =>
    { code := "42804", message := .exec e }
  | .lib .readOnly => { code := "25006", message := .exec e }
  | .lib .canceled => { code := "57014", message := .exec e }
  | .lib .unsupported => unsupported (.exec e)
  | .lib _ => { code := "XX000", message := .exec e }

end Errors

section Literals

def isIDName (name : Bytes) : Bool := name = ascii "id" || name = ascii "point_id"

def litInt : Expr → Option Int64
  | .intLit n => some n
  | .unary .neg e => (litInt e).map fun n => -n
  | _ => none

def litFloat : Expr → Option Float64
  | .floatLit f => some f
  | .intLit n => some (.ofInt n.toInt)
  | .unary .neg e => (litFloat e).map Float64.neg
  | _ => none

def litString : Expr → Option Bytes
  | .stringLit s => some s
  | _ => none

def whereID : Option Expr → Option UInt64
  | some (.binary .eq left right) =>
    match left, litInt right with
    | .columnRef _ name, some n => if isIDName name then some n.toUInt64 else other left right
    | _, _ => other left right
  | _ => none
where
  other (left right : Expr) : Option UInt64 :=
    match right, litInt left with
    | .columnRef _ name, some n => if isIDName name then some n.toUInt64 else none
    | _, _ => none

def exprVector (sc : Strconv) : Expr → Except PgError Storage.Vec
  | .cast e _ => exprVector sc e
  | .stringLit s =>
    match VectorSql.parseVectorLiteral sc s with
    | .ok v => .ok v
    | .error e => .error { code := "22P02", message := .sql e }
  | _ => .error { code := "22P02", message := .text "expected a vector literal" }

/-- The value of a literal that has no type to go by. -/
def looseValue (e : Expr) : Except PgError Facade.Value :=
  match litInt e, litFloat e, litString e with
  | some n, _, _ => .ok (.int n)
  | none, some f, _ => .ok (.float f)
  | none, none, some s => .ok (.text s)
  | none, none, none => .error { code := "22P02", message := .text "unsupported value literal" }

def exprValue (e : Expr) (t : ColumnType) : Except PgError Facade.Value :=
  match e with
  | .nullLit => .ok .null
  | .cast e _ => exprValue e t
  | e =>
    match t, litInt e, litFloat e, litString e, e with
    | .int64, some n, _, _, _ | .timestamp, some n, _, _, _ => .ok (.int n)
    | .float64, _, some f, _, _ => .ok (.float f)
    | .bool, _, _, _, .boolLit b => .ok (.bool b)
    | .text, _, _, some s, _ | .json, _, _, some s, _ => .ok (.text s)
    | .bytes, _, _, some s, _ => .ok (.bytes s)
    | _, _, _, _, _ => looseValue e

end Literals

section Schema

def columnTypeFromKind : Catalog.Kind → ColumnType
  | .bigInt | .int => .int64
  | .double | .real => .float64
  | .bool => .bool
  | .text => .text
  | .blob => .bytes
  | .json => .json
  | .timestamp => .timestamp
  | .null | .array => .text

def getCollection (db : DB) (name : Bytes) : Except LibErr (List (Bytes × ColumnType)) :=
  (db.handle name).map fun cc => cc.schema.columns.map fun c =>
    (c.name, if c.kind = .vector then .vector else columnTypeFromKind c.dataType)

/-- The name of the vector column, the last one if there are several. -/
def infoVector (info : List (Bytes × ColumnType)) : Bytes :=
  ((info.filter fun c => c.2 = .vector).map Prod.fst).getLastD []

def infoType (info : List (Bytes × ColumnType)) (name : Bytes) : ColumnType :=
  ((info.reverse).lookup name).getD .vector

def typeOfName (name : Bytes) : Option ColumnType :=
  (typeNames.find? fun x => name ∈ x.1.map ascii).map Prod.snd
where
  typeNames : List (List String × ColumnType) :=
    [(["bigint", "int8", "integer", "int", "int4", "smallint", "int2", "serial", "bigserial"], .int64),
      (["real", "float4", "double", "double precision", "float8", "numeric", "decimal"], .float64),
      (["boolean", "bool"], .bool),
      (["text", "varchar", "char", "character", "character varying", "name", "uuid"], .text),
      (["bytea"], .bytes),
      (["json", "jsonb"], .json),
      (["timestamp", "timestamptz", "date"], .timestamp)]

/-- A column of a new table; there is none for the key. -/
def lowerColumn (col : ColumnSpec) : Except PgError (Option Facade.ColumnDef) :=
  let tname := lowerText col.type.name
  if isIDName col.name ∧ col.primaryKey then .ok none
  else if tname ∈ ["vector", "halfvec", "floatvec"].map ascii then
    if !col.type.hasArg ∨ col.type.arg ≤ 0 then
      .error { code := "42601", message := .text "vector column needs a dimension" }
    else .ok (some { name := col.name, notNull := col.notNull, type := .vector, dim := col.type.arg })
  else
    match typeOfName tname with
    | some type => .ok (some { name := col.name, notNull := col.notNull, type })
    | none => .error (unsupported (.named "feature not supported: column type " tname ""))

/-- A call of the library whose error may be that what is asked for is so already. -/
def finish (r : DB × Except LibErr Unit) (excused : LibErr → Bool) (tag : String) :
    DB × Except PgError Bytes :=
  match r with
  | (db, .ok ()) => (db, .ok (ascii tag))
  | (db, .error e) => (db, if excused e then .ok (ascii tag) else .error (mapError (.lib e)))

def execCreateTable (o : Options) (env : Env) (db : DB) (s : CreateTableStmt) :
    DB × Except PgError Bytes :=
  match s.columns.mapM lowerColumn with
  | .error e => (db, .error e)
  | .ok columns =>
    finish (db.createCollection o.codecs env.canceled { name := s.name, columns := columns.reduceOption })
      (fun e => s.ifNotExists && e = .alreadyExists) "CREATE TABLE"

def indexTypeFor (name : Bytes) : IndexType :=
  let name := lowerText name
  if name = ascii "hnsw" then .hnsw
  else if name = ascii "ivfflat" then .ivfFlat
  else if name = ascii "ivfpq" then .ivfPQ
  else if name = ascii "diskann" then .diskANN
  else .flat

/-- The options that are numbers; a fraction is cut off. -/
def optionParams (o : Options) (opts : List (Bytes × Expr)) : List (Bytes × ℤ) :=
  opts.filterMap fun (k, e) =>
    match litInt e, litFloat e with
    | some n, _ => some (lowerText k, n.toInt)
    | none, some f => some (lowerText k, o.machine.platform.ops.toInt f)
    | none, none => none

def execCreateIndex (o : Options) (env : Env) (db : DB) (s : CreateIndexStmt) :
    DB × Except PgError Bytes :=
  let name :=
    if s.name ≠ [] then s.name
    else s.table ++ ascii "_" ++ s.column ++ ascii "_" ++ lowerText s.indexType
  finish (db.createIndex o.builders env.canceled s.table
      { name, column := s.column, type := indexTypeFor s.indexType, params := optionParams o s.options })
    (fun e => s.ifNotExists && e = .alreadyExists) "CREATE INDEX"

def execDrop (env : Env) (db : DB) (s : DropStmt) : DB × Except PgError Bytes :=
  if s.index then
    finish (db.dropIndex env.canceled s.onTable s.name) (fun e => s.ifExists && e = .notFound)
      "DROP INDEX"
  else
    finish (db.dropCollection env.canceled s.name) (fun e => s.ifExists && e = .notFound) "DROP TABLE"

end Schema

section Rows

def writeAll {α : Type} (write : DB → ℕ → α → DB × Except LibErr Unit) :
    DB → ℕ → List α → DB × Except LibErr Unit
  | db, _, [] => (db, .ok ())
  | db, i, a :: as =>
    match write db i a with
    | (db, .error e) => (db, .error e)
    | (db, .ok ()) => writeAll write db (i + 1) as

/-- Run a change in a transaction of its own, which is rolled back if the change fails. -/
def update (canceled : Bool) (db : DB) (change : DB → DB × Except LibErr Unit) :
    DB × Except LibErr Unit :=
  if canceled then (db, .error .canceled)
  else
    match db.begin with
    | (db, .error e) => (db, .error e)
    | (db, .ok ()) =>
      match change db with
      | (db, .error e) => (db.rollback.1, .error e)
      | (db, .ok ()) => db.commit

def inTransaction (env : Env) (inTxn : Bool) (db : DB) (change : DB → DB × Except LibErr Unit) :
    DB × Except LibErr Unit :=
  if inTxn then change db else update env.canceled db change

def upsertPoints (env : Env) (inTxn : Bool) (db : DB) (table : Bytes) (points : List Point) :
    DB × Except LibErr Unit :=
  inTransaction env inTxn db fun db =>
    writeAll (fun db i p =>
      let (db, r) := db.write .writer table p true (env.amb i)
      (db, r.map fun _ => ())) db 0 points

def deleteIDs (env : Env) (inTxn : Bool) (db : DB) (table : Bytes) (ids : List PointID) :
    DB × Except LibErr Unit :=
  inTransaction env inTxn db fun db => writeAll (fun db _ id => db.delete .writer table id) db 0 ids

def setColumn (sc : Strconv) (info : List (Bytes × ColumnType)) (p : Point) (name : Bytes)
    (e : Expr) : Except PgError Point :=
  if name = infoVector info then do
    let v ← exprVector sc e
    return { p with vectors := Assoc.upsert name (fun _ => some v) p.vectors }
  else do
    let v ← exprValue e (infoType info name)
    return { p with metadata := Assoc.upsert name (fun _ => v) p.metadata }

/-- The point of a row; a key that is no number is left out. -/
def buildPoint (sc : Strconv) (columns : List Bytes) (row : List Expr)
    (info : List (Bytes × ColumnType)) : Except PgError Point :=
  if columns = [] then
    .error { code := "42601", message := .text "INSERT requires an explicit column list" }
  else if columns.length ≠ row.length then
    .error { code := "42601", message := .text "INSERT column/value count mismatch" }
  else
    (columns.zip row).foldlM (fun p (name, e) =>
      if isIDName name then
        .ok (match litInt e with
          | some n => { p with id := { n := n.toUInt64 } }
          | none => p)
      else setColumn sc info p name e) {}

def written (r : DB × Except LibErr Unit) (tag : String) : DB × Except PgError Bytes :=
  finish r (fun _ => false) tag

def execInsert (o : Options) (env : Env) (inTxn : Bool) (db : DB) (s : InsertStmt) :
    DB × Except PgError Bytes :=
  match getCollection db s.table with
  | .error e => (db, .error (mapError (.lib e)))
  | .ok info =>
    match s.rows.mapM fun row => buildPoint o.sc s.columns row info with
    | .error e => (db, .error e)
    | .ok points =>
      written (upsertPoints env inTxn db s.table points) ("INSERT 0 " ++ toString points.length)

def execUpdate (o : Options) (env : Env) (inTxn : Bool) (db : DB) (s : UpdateStmt) :
    DB × Except PgError Bytes :=
  match whereID s.where_ with
  | none =>
    (db, .error (unsupported (.text "feature not supported: UPDATE supports only WHERE id = <n>")))
  | some id =>
    match getCollection db s.table with
    | .error e => (db, .error (mapError (.lib e)))
    | .ok info =>
      let readSeq := if inTxn then db.sys.writer.map (·.readSeq) else none
      match db.get readSeq s.table { n := id } with
      | .error e => (db, .error (mapError (.lib e)))
      | .ok cur =>
        let p : Point := { cur with id := { n := id } }
        match s.assigns.foldlM (fun p a => setColumn o.sc info p a.column a.value) p with
        | .error e => (db, .error e)
        | .ok p => written (upsertPoints env inTxn db s.table [p]) "UPDATE 1"

def execDelete (env : Env) (inTxn : Bool) (db : DB) (s : DeleteStmt) : DB × Except PgError Bytes :=
  match whereID s.where_ with
  | none =>
    (db, .error (unsupported (.text "feature not supported: DELETE supports only WHERE id = <n>")))
  | some id =>
    match db.state s.table with
    | .error e => (db, .error (mapError (.lib e)))
    | .ok _ => written (deleteIDs env inTxn db s.table [{ n := id }]) "DELETE 1"

end Rows

end VecDb.PgWire

import VecDb.Server.PgWire.Lower

/-! # A connection

A connection keeps its transaction block, the prepared statements and the bound portals. A
transaction command or a question about the catalog is recognized by its text, everything else is
parsed.
-/

namespace VecDb.PgWire

open VectorSql (Expr SelectStmt ExprAlias Stmt TxnKind)
open Facade (DB ExecErr ColumnType Result)

inductive TxnState
  | idle | inBlock | failed
  deriving DecidableEq

structure Prepared where
  sql : Bytes
  paramOIDs : List Int32
  deriving DecidableEq

structure Portal where
  sql : Bytes
  resultFormats : List Int16
  deriving DecidableEq

structure FieldDesc where
  name : Bytes
  colNum : ℕ
  typeOID : Int32
  typeSize : Int16
  formatCode : Int16 := 0
  deriving DecidableEq

/-- The messages of the server; the key to cancel a query is left out. -/
inductive Msg
  | sslRefused
  | authenticationOk
  | authenticationCleartext
  | parameterStatus (name value : Bytes)
  | backendKeyData
  | readyForQuery (state : TxnState)
  | rowDescription (fields : List FieldDesc)
  | dataRow (values : List (Option Bytes))
  | commandComplete (tag : Bytes)
  | errorResponse (e : PgError)
  | emptyQuery
  | parseComplete
  | bindComplete
  | closeComplete
  | noData
  | parameterDescription (oids : List Int32)
  deriving DecidableEq

structure Conn where
  user : Bytes := []
  database : Bytes := []
  inTxn : Bool := false
  state : TxnState := .idle
  stmts : Bytes → Option Prepared := fun _ => none
  portals : Bytes → Option Portal := fun _ => none
  settings : Bytes → Option Bytes := fun _ => none

structure Session where
  conn : Conn := {}
  db : DB
  out : List Msg := []

namespace Session

def send (s : Session) (msgs : List Msg) : Session := { s with out := s.out ++ msgs }

def ready (s : Session) : Session := s.send [.readyForQuery s.conn.state]

def failBlock (s : Session) : Session :=
  if s.conn.state = .inBlock then { s with conn := { s.conn with state := .failed } } else s

def extendedError (s : Session) (e : PgError) : Session := s.failBlock.send [.errorResponse e]

def closeTxn (s : Session) : Session :=
  { s with
    db := if s.conn.inTxn then s.db.rollback.1 else s.db
    conn := { s.conn with inTxn := false, state := .idle } }

end Session

section Transactions

inductive TxnCommand
  | begin | commit | rollback
  deriving DecidableEq

def txnCommand (low : Bytes) : Option TxnCommand :=
  if low ∈ ["begin", "begin transaction", "start transaction"].map ascii then some .begin
  else if low ∈ ["commit", "commit transaction", "end"].map ascii then some .commit
  else if low ∈ ["rollback", "rollback transaction", "abort"].map ascii then some .rollback
  else none

/-- A transaction command, also if the block has failed. Another BEGIN in a block does
nothing. -/
def handleTxnControl (s : Session) : TxnCommand → Session × Except PgError Bytes
  | .begin =>
    if s.conn.inTxn then (s, .ok (ascii "BEGIN"))
    else
      match s.db.begin with
      | (db, .error e) => ({ s with db }, .error (mapError (.lib e)))
      | (db, .ok ()) =>
        ({ s with db, conn := { s.conn with inTxn := true, state := .inBlock } },
          .ok (ascii "BEGIN"))
  | .commit =>
    let conn := { s.conn with inTxn := false, state := .idle }
    if s.conn.inTxn then
      match s.db.commit with
      | (db, .error e) => ({ s with db, conn }, .error (mapError (.lib e)))
      | (db, .ok ()) => ({ s with db, conn }, .ok (ascii "COMMIT"))
    else ({ s with conn }, .ok (ascii "COMMIT"))
  | .rollback => (s.closeTxn, .ok (ascii "ROLLBACK"))

end Transactions

section Catalog

structure CatalogResult where
  columns : List FieldDesc
  rows : List (List (Option Bytes))

def scalarText (name value : Bytes) : CatalogResult where
  columns := [{ name, colNum := 1, typeOID := oidText, typeSize := -1 }]
  rows := [[some value]]

def scalarInt (name : Bytes) (v : ℤ) : CatalogResult where
  columns := [{ name, colNum := 1, typeOID := oidInt8, typeSize := 8 }]
  rows := [[some (formatInt v)]]

def pgTypeCatalog : CatalogResult where
  columns :=
    [{ name := ascii "oid", colNum := 1, typeOID := oidInt8, typeSize := 8 },
      { name := ascii "typname", colNum := 2, typeOID := oidText, typeSize := -1 }]
  rows :=
    [(oidInt8, "int8"), (oidInt4, "int4"), (oidText, "text"), (oidBool, "bool"),
      (oidFloat8, "float8"), (oidBytea, "bytea"), (oidVarchar, "varchar"), (oidVector, "vector")].map
    fun (oid, name) => [some (formatInt oid.toInt), some (ascii name)]

def trimSuffix (s ending : Bytes) : Bytes :=
  if ending <:+ s then s.take (s.length - ending.length) else s

/-- The name of the database: that of the startup message, or the stem of the file. -/
def databaseName (o : Options) (c : Conn) : Bytes :=
  if c.database ≠ [] then c.database
  else trimSuffix (o.path.reverse.takeWhile (· ≠ byte '/')).reverse (ascii ".vec")

def handleShow (c : Conn) (low : Bytes) : CatalogResult :=
  let name := trimSuffix (trimSpace (low.drop 5)) (ascii ";")
  let known : List (String × String) :=
    [("server_version", "15.0"), ("server_encoding", "UTF8"), ("client_encoding", "UTF8"),
      ("transaction_isolation", "read committed"), ("standard_conforming_strings", "on"),
      ("search_path", "public")]
  match known.find? fun x => ascii x.1 = name with
  | some x => scalarText name (ascii x.2)
  | none => scalarText name ((c.settings name).getD [])

/-- A question about the catalog is recognized by words that occur in it. -/
def matchCatalog (o : Options) (c : Conn) (low : Bytes) : Option CatalogResult :=
  let has (word : String) : Bool := ascii word <:+: low
  let text (name : String) (value : Bytes) : Option CatalogResult := some (scalarText (ascii name) value)
  if has "version()" then
    text "version" (ascii "PostgreSQL 15.0 (vec " ++ o.version ++ ascii ") on x86_64")
  else if has "current_schema()" || has "current_schema" then text "current_schema" (ascii "public")
  else if has "current_database()" then text "current_database" (databaseName o c)
  else if has "current_user" || has "session_user" || has "user()" then text "current_user" c.user
  else if has "set_config" then text "set_config" []
  else if has "extversion" && has "vector" then text "extversion" (ascii "0.8.0")
  else if ascii "show " <+: low then some (handleShow c low)
  else if has "from pg_namespace" then text "nspname" (ascii "public")
  else if has "from pg_type" then some pgTypeCatalog
  else if has "select 1" && !has "from" then some (scalarInt (ascii "?column?") 1)
  else none

/-- The words of a text between white space, for some rounds at most. -/
def fieldsFrom : ℕ → Bytes → List Bytes
  | 0, _ => []
  | n + 1, s =>
    let isSpaceAt (t : Bytes) : Bool := (spaceRunes.map Utf8.encodeRune).any fun sp => sp <+: t
    let s := trimSpace s
    if s = [] then []
    else
      let width := (s.tails.takeWhile fun t => t ≠ [] ∧ !isSpaceAt t).length
      s.take width :: fieldsFrom n (s.drop width)

def trimBytes (set : Bytes) (s : Bytes) : Bytes :=
  ((s.dropWhile (· ∈ set)).reverse.dropWhile (· ∈ set)).reverse

/-- Record a setting, which is given with an equals sign or with TO. -/
def applySet (c : Conn) (raw : Bytes) : Conn :=
  let body := trimSpace (raw.drop 4)
  let low := lowerText body
  let body :=
    if ascii "local " <+: low then trimSpace (body.drop 6)
    else if ascii "session " <+: low then trimSpace (body.drop 8)
    else body
  let set (name value : Bytes) : Conn :=
    let name := lowerText (trimSpace name)
    let value := trimBytes (ascii "'\";") (trimSpace value)
    { c with settings := Function.update c.settings name (some value) }
  if byte '=' ∈ body then
    set (body.takeWhile (· ≠ byte '=')) ((body.dropWhile (· ≠ byte '=')).tail)
  else
    match fieldsFrom body.length body with
    | name :: word :: value :: values =>
      if lowerText word = ascii "to" then set name ([byte ' '].intercalate (value :: values)) else c
    | _ => c

def applyResultFormats (cols : List FieldDesc) (formats : List Int16) : List FieldDesc :=
  match formats with
  | [] => cols
  | [f] => cols.map fun c => { c with formatCode := f }
  | _ => cols.zipIdx.map fun (c, i) => { c with formatCode := formats.getD i c.formatCode }

def scalarResult (r : CatalogResult) (formats : List Int16) : List Msg :=
  .rowDescription (applyResultFormats r.columns formats) :: r.rows.map .dataRow ++
    [.commandComplete (ascii "SELECT " ++ Decimal.text r.rows.length)]

/-- Settings and questions about the catalog; some commands do nothing. -/
def handleCatalog (o : Options) (s : Session) (raw low : Bytes) (formats : List Int16) :
    Option Session :=
  let done (tag : String) : Option Session := some (s.send [.commandComplete (ascii tag)])
  if ascii "set " <+: low then
    some ({ s with conn := applySet s.conn raw }.send [.commandComplete (ascii "SET")])
  else if ascii "create extension" <+: low then done "CREATE EXTENSION"
  else if ascii "drop extension" <+: low then done "DROP EXTENSION"
  else if ascii "discard" <+: low then done "DISCARD ALL"
  else if ascii "reset " <+: low then done "RESET"
  else (matchCatalog o s.conn low).map fun r => s.send (scalarResult r formats)

end Catalog

section Select

mutual

def exprHasDistance : Expr → Bool
  | .distance _ _ _ => true
  | .binary _ l r => exprHasDistance l || exprHasDistance r
  | .unary _ e => exprHasDistance e
  | .cast e _ => exprHasDistance e
  | .funcCall _ args _ _ _ => anyHasDistance args
  | _ => false

def anyHasDistance : List Expr → Bool
  | [] => false
  | e :: es => exprHasDistance e || anyHasDistance es

end

def isIDRef : Expr → Bool
  | .columnRef _ name => isIDName name
  | _ => false

def colRefName : Expr → Bytes
  | .columnRef _ name => name
  | _ => []

inductive OutCol
  | id | distance
  | metadata (name : Bytes)
  | expr
  deriving DecidableEq

def resolveColKind (info : List (Bytes × ColumnType)) (e : Expr) : OutCol :=
  if isIDRef e then .id
  else if exprHasDistance e then .distance
  else if colRefName e ≠ [] ∧ colRefName e ∈ info.map Prod.fst then .metadata (colRefName e)
  else .expr

def pgTypeFor : ColumnType → Int32 × Int16
  | .int64 => (oidInt8, 8)
  | .float64 => (oidFloat8, 8)
  | .bool => (oidBool, 1)
  | .text | .json => (oidText, -1)
  | .bytes => (oidBytea, -1)
  | .timestamp => (oidInt8, 8)
  | .vector | .null => (oidText, -1)

def selectItemName (item : ExprAlias) : Bytes :=
  if item.alias_ ≠ [] then item.alias_
  else if colRefName item.expr ≠ [] then colRefName item.expr
  else if exprHasDistance item.expr then ascii "distance"
  else ascii "?column?"

def isStar (sel : SelectStmt) : Bool := sel.columns.isEmpty || sel.star

def selectColumns (info : List (Bytes × ColumnType)) (sel : SelectStmt) : List FieldDesc :=
  let cols : List (Bytes × Int32 × Int16) :=
    if isStar sel then
      (ascii "id", oidInt8, 8) ::
        (info.filter fun c => c.2 ≠ .vector).map (fun c => (c.1, pgTypeFor c.2)) ++
        [(ascii "distance", oidFloat8, 8)]
    else sel.columns.map fun item =>
      (selectItemName item,
        match resolveColKind info item.expr with
        | .id => (oidInt8, 8)
        | .distance | .expr => (oidFloat8, 8)
        | .metadata name => pgTypeFor (infoType info name))
  cols.zipIdx.map fun ((name, oid, size), i) =>
    { name, colNum := i + 1, typeOID := oid, typeSize := size }

/-- A column of all columns is told by its name, another one by its expression. -/
def outputCols (sel : SelectStmt) (fields : List FieldDesc) : List OutCol :=
  if isStar sel then
    fields.map fun f =>
      if f.name = ascii "id" then .id
      else if f.name = ascii "distance" then .distance
      else .metadata f.name
  else
    sel.columns.map fun item =>
      if isIDRef item.expr then .id
      else if exprHasDistance item.expr then .distance
      else if colRefName item.expr = [] then .expr
      else .metadata (colRefName item.expr)

def encodeValueText (o : Options) : Facade.Value → Option Bytes
  | .null => none
  | .int i => some (formatInt i.toInt)
  | .float f => some (o.sc.general64 f)
  | .bool b => some (ascii (if b then "t" else "f"))
  | .text s | .json s => some s
  | .bytes b => some b
  | .timestamp us => some (o.timeText us)

def encodeResultValue (o : Options) (r : Result) : OutCol → Option Bytes
  | .id => some (Decimal.text r.id.n.toNat)
  | .distance | .expr => some (o.sc.general32 r.distance)
  | .metadata name => (r.columns.lookup (Facade.columnText name)).bind (encodeValueText o)

/-- The text is parsed again by the library, to the same statement. -/
def execSelect (o : Options) (env : Env) (s : Session) (sel : SelectStmt) (formats : List Int16) :
    Session × Option PgError :=
  match getCollection s.db sel.from_ with
  | .error e => (s, some (mapError (.lib e)))
  | .ok info =>
    let cols := applyResultFormats (selectColumns info sel) formats
    match s.db.execTxn o.machine env.ctx o.sc sel with
    | .error e => (s, some (mapError e))
    | .ok rows =>
      (s.send (.rowDescription cols ::
        rows.map (fun r => .dataRow ((outputCols sel cols).map (encodeResultValue o r))) ++
        [.commandComplete (ascii "SELECT " ++ Decimal.text rows.length)]), none)

end Select

section Statements

def Session.changed (s : Session) : DB × Except PgError Bytes → Session × Option PgError
  | (db, .ok tag) => ({ s with db }.send [.commandComplete tag], none)
  | (db, .error e) => ({ s with db }, some e)

def Session.commanded : Session × Except PgError Bytes → Session × Option PgError
  | (s, .ok tag) => (s.send [.commandComplete tag], none)
  | (s, .error e) => (s, some e)

def TxnKind.command : TxnKind → Option TxnCommand
  | .begin => some .begin
  | .commit => some .commit
  | .rollback => some .rollback
  | .savepoint | .release | .rollbackTo => none

def TxnKind.text : TxnKind → String
  | .begin => "begin"
  | .commit => "commit"
  | .rollback => "rollback"
  | .savepoint => "savepoint"
  | .release => "release"
  | .rollbackTo => "rollback_to"

def execVectorSQL (o : Options) (env : Env) (s : Session) (sql : Bytes) (formats : List Int16) :
    Session × Option PgError :=
  let noSupport (type : String) : Session × Option PgError :=
    (s, some (unsupported (.text ("feature not supported: statement type *vectorsql." ++ type))))
  match VectorSql.parse o.sc.toFloatText sql with
  | .error e => (s, some { code := "42601", message := .sql e })
  | .ok (.select sel) => execSelect o env s sel formats
  | .ok (.createTable st) => s.changed (execCreateTable o env s.db st)
  | .ok (.createIndex st) => s.changed (execCreateIndex o env s.db st)
  | .ok (.insert st) => s.changed (execInsert o env s.conn.inTxn s.db st)
  | .ok (.update st) => s.changed (execUpdate o env s.conn.inTxn s.db st)
  | .ok (.delete st) => s.changed (execDelete env s.conn.inTxn s.db st)
  | .ok (.drop st) => s.changed (execDrop env s.db st)
  | .ok (.txn st) =>
    match TxnKind.command st.kind with
    | some c => Session.commanded (handleTxnControl s c)
    | none => (s, some (unsupported
        (.named "feature not supported: transaction statement " (ascii (TxnKind.text st.kind)) "")))
  | .ok (.set _) => (s.send [.commandComplete (ascii "SET")], none)
  | .ok (.pragma _) => (s.send [.commandComplete (ascii "PRAGMA")], none)
  | .ok (.alterTable _ _) => noSupport "AlterTableStmt"
  | .ok (.copy _) => noSupport "CopyStmt"
  | .ok (.prepare _ _ _) => noSupport "PrepareStmt"
  | .ok (.execute _ _) => noSupport "ExecuteStmt"
  | .ok (.deallocate _ _) => noSupport "DeallocateStmt"
  | .ok (.explain _ _ _) => noSupport "ExplainStmt"
  | .ok (.profile _) => noSupport "ProfileStmt"

/-- Run one statement, after what others did to the database. The state of the block is not
looked at. -/
def runStatement (o : Options) (env : Env) (s : Session) (sql : Bytes) (formats : List Int16) :
    Session × Option PgError :=
  let s := { s with db := env.other s.db }
  let trimmed := trimSpace (trimSuffix (trimSpace sql) (ascii ";"))
  let low := lowerText trimmed
  match txnCommand low with
  | some c => Session.commanded (handleTxnControl s c)
  | none =>
    match handleCatalog o s trimmed low formats with
    | some s => (s, none)
    | none => execVectorSQL o env s trimmed formats

/-- The statements of a text: a semicolon outside of quotes ends one. The bytes of the current
statement are kept in reverse. -/
def splitFrom : Bool → Bytes → Bytes → List Bytes
  | _, acc, [] => if trimSpace acc.reverse = [] then [] else [trimSpace acc.reverse]
  | inStr, acc, c :: s =>
    if c = byte '\'' then splitFrom (!inStr) (c :: acc) s
    else if c = byte ';' ∧ inStr = false then trimSpace acc.reverse :: splitFrom inStr [] s
    else splitFrom inStr (c :: acc) s

def splitStatements (sql : Bytes) : List Bytes := splitFrom false [] sql

def runAll (o : Options) (env : ℕ → Env) : Session → ℕ → List Bytes → Session
  | s, _, [] => s
  | s, i, sql :: sqls =>
    match runStatement o (env i) s sql [] with
    | (s, none) => runAll o env s (i + 1) sqls
    | (s, some e) => (s.send [.errorResponse e]).failBlock

end Statements

end VecDb.PgWire

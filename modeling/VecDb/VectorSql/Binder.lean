import VecDb.Catalog.Registry
import VecDb.Query.Planner
import VecDb.VectorSql.Parser

/-! # The binder

A statement is resolved against a collection. A filter becomes a predicate of the storage
engine, where a literal takes the type of the column it is compared with; a SELECT becomes a
query of the planner, or is refused.
-/

namespace VecDb.VectorSql

open Storage (Predicate CmpOp ColID)

def unsupportedError (message detail : String) : VecError := { code := .unsupported, message, detail }

def identError (message detail : String) : VecError := { code := .ident, message, detail }

def typeError (message detail : String) : VecError := { code := .type, message, detail }

def dimError (message detail : String) : VecError := { code := .dim, message, detail }

def UnaryOp.text : UnaryOp → String
  | not => "not"
  | neg => "-"

def BinaryOp.text : BinaryOp → String
  | or => "or"
  | and => "and"
  | eq => "="
  | ne => "<>"
  | lt => "<"
  | le => "<="
  | gt => ">"
  | ge => ">="
  | contains => "@>"
  | contained => "<@"
  | overlap => "&&"
  | add => "+"
  | sub => "-"
  | concat => "||"
  | mul => "*"
  | div => "/"
  | mod => "%"

def cmpOpOf : BinaryOp → Option CmpOp
  | .eq => some .eq
  | .ne => some .ne
  | .lt => some .lt
  | .le => some .le
  | .gt => some .gt
  | .ge => some .ge
  | _ => none

def flipOp : CmpOp → CmpOp
  | .lt => .gt
  | .le => .ge
  | .gt => .lt
  | .ge => .le
  | op => op

/-- An integer literal as the type of its column takes it. -/
def coerceInt (n : Int64) (cd : Option Catalog.ColumnDef) : Storage.Value :=
  match cd.map Catalog.ColumnDef.dataType with
  | some .double | some .real => .float (.ofInt n.toInt)
  | some .timestamp => .timestamp n
  | _ => .int n

def bindLiteral (cd : Option Catalog.ColumnDef) : Expr → Except VecError Storage.Value
  | .intLit n => .ok (coerceInt n cd)
  | .floatLit f => .ok (.float f)
  | .stringLit s => .ok (.text s)
  | .boolLit b => .ok (.bool b)
  | .unary .neg e => do
    match ← bindLiteral cd e with
    | .int i => .ok (.int (-i))
    | .float f => .ok (.float f.neg)
    | _ => .error (typeError "non-constant expression in a filter literal" "")
  | .unary .not _ => .error (typeError "non-constant expression in a filter literal" "")
  | .nullLit => .error (typeError "use IS NULL to test for NULL, not = NULL" "")
  | _ => .error (unsupportedError "a filter literal must be a constant" "spec 12 §17.4")

section Filter

variable (coll : Catalog.Collection)

def resolveName (name : Bytes) : Except VecError ColID :=
  match coll.colID name with
  | none =>
    .error (identError ("unknown column " ++ bytesText name) (bytesText coll.schema.name))
  | some id =>
    if (coll.schema.column name).any (·.kind = .vector) then
      .error (typeError ("vector column " ++ bytesText name ++ " cannot appear in a scalar filter") "")
    else .ok id

def resolveColumn : Expr → Except VecError ColID
  | .columnRef _ name => resolveName coll name
  | _ => .error (unsupportedError "expected a column reference" "")

def compareColumn (name : Bytes) (op : CmpOp) (lit : Expr) : Except VecError Predicate := do
  let col ← resolveName coll name
  let lit ← bindLiteral (coll.schema.column name) lit
  return .compare col op lit

def bindCompare (op : CmpOp) (left right : Expr) : Except VecError Predicate :=
  match left, right with
  | .columnRef _ name, lit => compareColumn coll name op lit
  | lit, .columnRef _ name => compareColumn coll name (flipOp op) lit
  | _, _ => .error (unsupportedError "a filter comparison must reference a column" "spec 12 §17.4")

/-- The terms that an expression adds to a chain of one operator; a chain inside a chain of the
same operator is not a term of its own. -/
def bindTerms : Expr → Option BinaryOp → Except VecError (List Predicate)
  | .binary .and l r, chain => do
    let terms := (← bindTerms l (some .and)) ++ (← bindTerms r (some .and))
    return if chain = some .and then terms else [.and terms]
  | .binary .or l r, chain => do
    let terms := (← bindTerms l (some .or)) ++ (← bindTerms r (some .or))
    return if chain = some .or then terms else [.or terms]
  | .binary op l r, _ =>
    match cmpOpOf op with
    | some o => do return [← bindCompare coll o l r]
    | none => .error (unsupportedError ("operator " ++ op.text ++ " is not pushable into a filter")
        "spec 12 §17.4 lists the comparison operators a WHERE clause may use")
  | .unary .not e, _ => do return (← bindTerms e none).map .not
  | .unary op _, _ =>
    .error (unsupportedError ("unary " ++ op.text ++ " is not a boolean predicate") "")
  | .isNull e not, _ => do return [.isNull (← resolveColumn coll e) not]
  | _, _ =>
    .error (unsupportedError "this WHERE form is not pushable into a filter" "spec 12 §17.4")

def bindPredicate (e : Expr) : Except VecError Predicate :=
  (bindTerms coll e none).map fun terms => terms.headD .always

end Filter

section Select

def parseVectorLiteral (sc : Strconv) (s : Bytes) : Except VecError Storage.Vec :=
  let t := trimSpace s
  if t.length < 2 ∨ t.head? ≠ some (byte '[') ∨ t.getLast? ≠ some (byte ']') then
    .error (typeError "vector literal must be wrapped in [ ]" (bytesText s))
  else
    let body := trimSpace (t.tail.dropLast)
    if body = [] then .error (dimError "vector literal has no elements" (bytesText s))
    else
      (body.splitOn (byte ',')).mapM fun p =>
        match sc.parseFloat32 (trimSpace p) with
        | some f => .ok f.bits
        | none => .error
            (typeError ("invalid vector element " ++ bytesText (trimSpace p)) (bytesText s))

def distanceMetric : Option Catalog.Metric → Query.Metric
  | some .cosine => .cosine
  | some .l2 => .l2Squared
  | some .innerProduct => .dot
  | some .hamming => .hamming
  | some .jaccard => .jaccard
  | some .dotSparse | none => .l2Squared

def vectorColumnName (coll : Catalog.Collection) : Bytes :=
  match coll.schema.vectorColumns with
  | [] => []
  | c :: _ => c.name

def constInt : Expr → Option Int64
  | .intLit n => some n
  | .unary .neg e => (constInt e).map fun n => -n
  | _ => none

/-- The query vector and the bound of a search for neighbours, if the statement is one. -/
def detectKNN (st : SelectStmt) (vecCol : Bytes) : Except VecError (Option (Expr × Int64)) :=
  match st.orderBy with
  | [item] =>
    match item.expr with
    | .distance _ left query =>
      match left with
      | .columnRef _ name =>
        if name ≠ vecCol then
          .error (typeError "kNN ORDER BY must reference the vector column" (bytesText vecCol))
        else
          match st.limit with
          | none => .error
              { code := .plan, message := "kNN query has no LIMIT"
                detail := "spec 12 §17.3 requires a bounded LIMIT" }
          | some e =>
            match constInt e with
            | some k =>
              if k ≤ 0 then .error (typeError "LIMIT must be a positive integer constant" "")
              else .ok (some (query, k))
            | none => .error (typeError "LIMIT must be a positive integer constant" "")
      | _ => .error (typeError "kNN ORDER BY must reference the vector column" (bytesText vecCol))
    | _ => .ok none
  | _ => .ok none

/-- The columns that a select list asks for, without the vector and the key. -/
def projectionColumns (st : SelectStmt) (coll : Catalog.Collection) (vecCol : Bytes) :
    Except VecError (List Bytes) :=
  if st.star ∨ st.columns = [] then .ok (coll.schema.metadataColumns.map (·.name))
  else do
    let names ← st.columns.mapM fun item =>
      match item.expr with
      | .columnRef _ name =>
        if name = vecCol then .ok []
        else if (coll.colID name).isSome then .ok [name]
        else if name = coll.schema.idName ∨ name = ascii "id" then .ok []
        else .error
          (identError ("unknown column " ++ bytesText name) (bytesText coll.schema.name))
      | _ => .ok []
    return names.flatten

/-- The vector of the query; there is none yet if it is a parameter. -/
def bindVector (sc : Strconv) (dims : ℕ) : Expr → Except VecError Storage.Vec
  | .stringLit s => do
    let vec ← parseVectorLiteral sc s
    if vec.length ≠ dims then
      .error (dimError "query vector dimension does not match the column"
        (toString vec.length ++ " vs " ++ toString dims))
    else return vec
  | .paramRef _ _ => .ok []
  | _ => .error (typeError "kNN query vector must be a literal or parameter" "")

def bindSelect (sc : Strconv) (st : SelectStmt) (coll : Catalog.Collection) :
    Except VecError Query.BoundQuery := do
  if st.fusion.isSome then
    throw (unsupportedError "FUSION queries are lowered by the db layer"
      "spec 12 §7.2 fuses through the hybrid package, not the planner")
  let vecCol := vectorColumnName coll
  match ← detectKNN st vecCol with
  | none => throw (unsupportedError "only kNN SELECT is supported"
      "spec 12 §17.3: ORDER BY <distance> LIMIT k")
  | some (query, k) =>
    let vector ← bindVector sc coll.storageDef.dims.toNat query
    let predicate ← st.where_.mapM (bindPredicate coll)
    let project ← projectionColumns st coll vecCol
    return {
      vector, predicate
      k := k.toInt
      metric := distanceMetric coll.schema.primary.vecMetric
      project := project.map bytesText }

end Select

end VecDb.VectorSql

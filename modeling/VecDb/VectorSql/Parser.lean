import VecDb.Base.Assoc
import VecDb.Base.Parser
import VecDb.VectorSql.Ast
import VecDb.VectorSql.Lexer

/-! # The parser

Statements by recursive descent, expressions by precedence. A rule is given the rules for the
expressions and statements inside it; these see fewer tokens. The parser of the source goes on
after an error and throws away what it then builds; here the first error is the end.
-/

namespace VecDb.VectorSql

abbrev P := Parser Token VecError

def parseInt (base : ℕ) (s : Bytes) : Option Int64 :=
  if s = [] then none
  else
    match s.mapM hexVal with
    | none => none
    | some ds =>
      let n := ds.foldl (fun n d => n * base + d) 0
      if ds.all (· < base) ∧ n < 2 ^ 63 then some (.ofNat n) else none

def parseIntLiteral (s : Bytes) : Option Int64 :=
  let low := s.map toLower
  if ascii "0x" <+: low then parseInt 16 (low.drop 2)
  else if ascii "0b" <+: low then parseInt 2 (low.drop 2)
  else if ascii "0o" <+: low then parseInt 8 (low.drop 2)
  else parseInt 10 s

section Cursor

def eof : Token := { kind := .eof, offset := 0 }

def cur : P Token := fun ts => .ok (ts.headD eof, ts)

/-- The token after the current one; after the last one there is only itself. -/
def peek : P Token := fun ts => .ok ((ts.tail.head?).getD (ts.headD eof), ts)

def advance : P Token
  | t :: u :: ts => .ok (t, u :: ts)
  | ts => .ok (ts.headD eof, ts)

def Token.isKw (t : Token) (kw : String) : Bool := t.kind = .keyword ∧ t.text = ascii kw

def isKw (kw : String) : P Bool := return (← cur).isKw kw

def peekKw (kw : String) : P Bool := return (← peek).isKw kw

def acceptKw (kw : String) : P Bool := do
  if ← isKw kw then
    let _ ← advance
    return true
  else return false

def accept (k : TokenKind) : P Bool := do
  if (← cur).kind = k then
    let _ ← advance
    return true
  else return false

def toUpper (c : UInt8) : UInt8 := if byte 'a' ≤ c ∧ c ≤ byte 'z' then c - 32 else c

def bytesText (s : Bytes) : String := String.ofList (s.map fun b => Char.ofNat b.toNat)

def describe (t : Token) : String :=
  match t.kind with
  | .eof => "end of input"
  | .keyword => "keyword '" ++ bytesText (t.text.map toUpper) ++ "'"
  | .ident => "identifier '" ++ bytesText t.text ++ "'"
  | .string => "string"
  | .int | .float => "number"
  | .param => "parameter"
  | _ => "'" ++ bytesText t.text ++ "'"

def failHere {α : Type} (message : String) : P α := do
  let t ← cur
  throw (parseError t.offset (message ++ ", got " ++ describe t) "")

def failUnsupported {α : Type} (what detail : String) : P α :=
  throw { code := .unsupported, message := what, detail }

def expectKw (kw : String) : P Unit := do
  if !(← acceptKw kw) then failHere ("expected keyword " ++ kw.toUpper)

def expect (k : TokenKind) (what : String) : P Token := do
  if (← cur).kind ≠ k then failHere ("expected " ++ what) else advance

/-- A keyword is not taken for an identifier. -/
def ident (what : String) : P Bytes := do
  let t ← cur
  if t.kind = .ident then
    let _ ← advance
    return t.text
  else failHere ("expected " ++ what)

def contextualWord (what : String) : P Bytes := do
  let t ← cur
  if t.kind = .ident ∨ t.kind = .keyword then
    let _ ← advance
    return lowerText t.text
  else failHere ("expected " ++ what)

/-- The last part of a name that may be qualified by a schema. -/
def qualifiedName : P Bytes := do
  let name ← ident "a name"
  if ← accept .dot then ident "a name" else return name

def identList : P (List Bytes) := Parser.sepBy (ident "a column name") (accept .comma)

def optionalAlias : P Bytes := do
  if ← acceptKw "as" then ident "an alias"
  else if (← cur).kind = .ident then return (← advance).text
  else return []

/-- The number that digits stand for, cut off at the largest one; zero if they are not decimal. -/
def atoi (s : Bytes) : Int64 :=
  if s ≠ [] ∧ s.all isDigit then
    .ofNat (min (s.foldl (fun n c => n * 10 + (c.toNat - 48)) 0) (2 ^ 63 - 1))
  else 0

def parseType : P TypeRef := do
  let t ← cur
  if t.kind ≠ .ident ∧ t.kind ≠ .keyword then failHere "expected a column type"
  else
    let _ ← advance
    let word := lowerText t.text
    let next ← cur
    let mut name := word
    if word = ascii "double" ∧ next.kind = .ident ∧ next.text = ascii "precision" then
      let _ ← advance
      name := ascii "double precision"
    if ← accept .lParen then
      let n ← expect .int "an integer dimension"
      let _ ← expect .rParen "')'"
      return { name, arg := atoi n.text, hasArg := true }
    else return { name }

def distanceOp : P (Option DistanceOp) := do
  match (← cur).kind with
  | .l2 => let _ ← advance; return some .l2Distance
  | .cos => let _ ← advance; return some .cosineDistance
  | .ip => let _ ← advance; return some .negInnerProd
  | .l1 => let _ ← advance; return some .l1Distance
  | _ => return none

def TokenKind.comparisonOp : TokenKind → Option BinaryOp
  | .eq => some .eq
  | .ne => some .ne
  | .lt => some .lt
  | .le => some .le
  | .gt => some .gt
  | .ge => some .ge
  | .contains => some .contains
  | .contained => some .contained
  | .overlap => some .overlap
  | _ => none

def TokenKind.additiveOp : TokenKind → Option BinaryOp
  | .plus => some .add
  | .minus => some .sub
  | .concat => some .concat
  | _ => none

def TokenKind.multiplicativeOp : TokenKind → Option BinaryOp
  | .star => some .mul
  | .slash => some .div
  | .percent => some .mod
  | _ => none

def acceptOp (op : TokenKind → Option BinaryOp) : P (Option BinaryOp) := do
  match op (← cur).kind with
  | some o => let _ ← advance; return some o
  | none => return none

/-- Operands of a level with the operators of the level between them, from left to right. -/
def leftAssoc (operand : P Expr) (op : TokenKind → Option BinaryOp) : P Expr := do
  Parser.chain (fun left => do
    match ← acceptOp op with
    | some o => return some (.binary o left (← operand))
    | none => return none) (← operand)

end Cursor

/-- The rules for what is inside an expression or a statement. -/
structure Rules where
  expr : P Expr
  select : P SelectStmt

section Expressions

variable (ft : FloatText) (self : Rules)

def exprList : P (List Expr) := Parser.sepBy self.expr (accept .comma)

def optionMap : P (List (Bytes × Expr)) := do
  let _ ← expect .lParen "'('"
  let options ← Parser.sepBy (do
    let key ← contextualWord "an option name"
    let _ ← expect .eq "'='"
    return (key, ← self.expr)) (accept .comma)
  let _ ← expect .rParen "')'"
  return options.foldl (fun m x => Assoc.upsert x.1 (fun _ => x.2) m) []

def intLiteral (t : Token) : P Expr :=
  match parseIntLiteral t.text with
  | some v => return .intLit v
  | none => failHere "invalid integer literal"

def parseParenOrSubquery : P Expr := do
  let _ ← expect .lParen "'('"
  if ← isKw "select" then
    let sub ← self.select
    let _ ← expect .rParen "')'"
    return .subquery sub
  else
    let e ← self.expr
    let _ ← expect .rParen "')'"
    return e

def parseFuncCall (name : Bytes) : P Expr := do
  let _ ← expect .lParen "'('"
  let mut star := false
  let mut distinct := false
  let mut args := []
  if ← accept .star then
    star := true
    let _ ← expect .rParen "')'"
  else if !(← accept .rParen) then
    distinct ← acceptKw "distinct"
    args ← exprList self
    let _ ← expect .rParen "')'"
  let mut filter := none
  if ← acceptKw "filter" then
    let _ ← expect .lParen "'('"
    expectKw "where"
    filter := some (← self.expr)
    let _ ← expect .rParen "')'"
  return .funcCall name args star distinct filter

def parseIdentPrimary (t : Token) : P Expr := do
  let _ ← advance
  if (← cur).kind = .lParen then parseFuncCall self t.text
  else if ← accept .dot then
    if ← accept .star then return .star
    else return .columnRef t.text (← ident "a column name")
  else return .columnRef [] t.text

def parseCase : P Expr := do
  expectKw "case"
  let mut operand := none
  if !(← isKw "when") then
    operand := some (← self.expr)
  let whens ← Parser.chain (fun whens => do
    if ← acceptKw "when" then
      let cond ← self.expr
      expectKw "then"
      return some (whens ++ [⟨cond, ← self.expr⟩])
    else return none) []
  let mut els := none
  if ← acceptKw "else" then
    els := some (← self.expr)
  expectKw "end"
  return .caseExpr operand whens els

def parseKeywordPrimary (t : Token) : P Expr := do
  if t.text = ascii "true" then
    let _ ← advance
    return .boolLit true
  else if t.text = ascii "false" then
    let _ ← advance
    return .boolLit false
  else if t.text = ascii "null" then
    let _ ← advance
    return .nullLit
  else if t.text = ascii "case" then parseCase self
  else if t.text = ascii "exists" then
    let _ ← advance
    let _ ← expect .lParen "'('"
    let sub ← self.select
    let _ ← expect .rParen "')'"
    return .exists sub
  else if t.text = ascii "fusion" then
    failHere "FUSION is a reserved clause keyword; quote \"fusion\" to use it as a column"
  else failHere ("unexpected keyword '" ++ bytesText (t.text.map toUpper) ++ "' in an expression")

def parsePrimary : P Expr := do
  let t ← cur
  match t.kind with
  | .int => let _ ← advance; intLiteral t
  | .float =>
    let _ ← advance
    match ft.parseFloat t.text with
    | some v => return .floatLit v
    | none => failHere "invalid float literal"
  | .string => let _ ← advance; return .stringLit t.text
  | .param => let _ ← advance; return .paramRef t.paramName t.paramPos
  | .lParen => parseParenOrSubquery self
  | .star => let _ ← advance; return .star
  | .keyword => parseKeywordPrimary self t
  | .ident => parseIdentPrimary self t
  | _ => failHere "expected an expression"

def parsePostfix : P Expr := do
  Parser.chain (fun e => do
    match (← cur).kind with
    | .cast => let _ ← advance; return some (.cast e (← parseType))
    | .arrow => let _ ← advance; return some (.json e (← expect .string "a JSON key string").text false)
    | .arrow2 => let _ ← advance; return some (.json e (← expect .string "a JSON key string").text true)
    | _ => return none) (← parsePrimary ft self)

def parseUnary : P Expr := Parser.marked (accept .minus) (.unary .neg) (parsePostfix ft self)

def parseMultiplicative : P Expr := leftAssoc (parseUnary ft self) TokenKind.multiplicativeOp

def parseAdditive : P Expr := leftAssoc (parseMultiplicative ft self) TokenKind.additiveOp

def parseDistance : P Expr := do
  Parser.chain (fun left => do
    match ← distanceOp with
    | some op => return some (.distance op left (← parseAdditive ft self))
    | none => return none) (← parseAdditive ft self)

def parseComparison : P Expr := do
  let left ← parseDistance ft self
  match ← acceptOp TokenKind.comparisonOp with
  | some op => return .binary op left (← parseDistance ft self)
  | none => return left

def parseBetween (left : Expr) (not : Bool) : P Expr := do
  expectKw "between"
  let lo ← parseDistance ft self
  expectKw "and"
  return .between left lo (← parseDistance ft self) not

def parseIn (left : Expr) (not : Bool) : P Expr := do
  expectKw "in"
  let _ ← expect .lParen "'('"
  if ← isKw "select" then
    let sub ← self.select
    let _ ← expect .rParen "')'"
    return .inSub left sub not
  else
    let list ← exprList self
    let _ ← expect .rParen "')'"
    return .inList left list not

def parseLike (left : Expr) (not : Bool) : P Expr := do
  let insens ← acceptKw "ilike"
  if !insens then expectKw "like"
  return .like left (← parseDistance ft self) not insens

def parsePredicateTail (left : Expr) : P (Option Expr) := do
  if ← isKw "is" then
    let _ ← advance
    let not ← acceptKw "not"
    expectKw "null"
    return some (.isNull left not)
  else if (← isKw "not") && (← peekKw "between") then
    let _ ← advance
    return some (← parseBetween ft self left true)
  else if ← isKw "between" then return some (← parseBetween ft self left false)
  else if (← isKw "not") && (← peekKw "in") then
    let _ ← advance
    return some (← parseIn self left true)
  else if ← isKw "in" then return some (← parseIn self left false)
  else if (← isKw "not") && ((← peekKw "like") || (← peekKw "ilike")) then
    let _ ← advance
    return some (← parseLike ft self left true)
  else if (← isKw "like") || (← isKw "ilike") then return some (← parseLike ft self left false)
  else return none

def parsePredicate : P Expr := do
  Parser.chain (parsePredicateTail ft self) (← parseComparison ft self)

def parseNot : P Expr := Parser.marked (acceptKw "not") (.unary .not) (parsePredicate ft self)

def keywordChain (operand : P Expr) (kw : String) (op : BinaryOp) : P Expr := do
  Parser.chain (fun left => do
    if ← acceptKw kw then return some (.binary op left (← operand)) else return none) (← operand)

def parseAnd : P Expr := keywordChain (parseNot ft self) "and" .and

def parseOr : P Expr := keywordChain (parseAnd ft self) "or" .or

end Expressions

section Select

variable (self : Rules)

def exprAliases : P (List ExprAlias) :=
  Parser.sepBy (do
    let expr ← self.expr
    return { expr, alias_ := ← optionalAlias }) (accept .comma)

def parseFusionStream : P FusionStream := do
  if ← acceptKw "keyword" then
    expectKw "match"
    let _ ← expect .lParen "'('"
    let cols ← identList
    let _ ← expect .rParen "')'"
    expectKw "against"
    let _ ← expect .lParen "'('"
    let against ← self.expr
    let _ ← expect .rParen "')'"
    let mut options := []
    if ← acceptKw "with" then
      options ← optionMap self
    return .keyword cols against options
  else
    expectKw "vector"
    expectKw "order"
    expectKw "by"
    let col ← ident "a vector column"
    match ← distanceOp with
    | none => failHere "expected a distance operator"
    | some op => return .vector col op (← self.expr)

def parseFusion : P FusionClause := do
  expectKw "fusion"
  let _ ← expect .lParen "'('"
  let streams ← Parser.sepBy (parseFusionStream self) (accept .comma)
  let _ ← expect .rParen "')'"
  let mut options := []
  if ← acceptKw "with" then
    options ← optionMap self
  return { streams, options }

def orderByList : P (List OrderItem) :=
  Parser.sepBy (do
    let expr ← self.expr
    let mut desc := false
    if !(← acceptKw "asc") then
      desc ← acceptKw "desc"
    let mut nullsFirst := false
    let nullsSet ← acceptKw "nulls"
    if nullsSet then
      nullsFirst ← acceptKw "first"
      if !nullsFirst then expectKw "last"
    return { expr, desc, nullsFirst, nullsSet }) (accept .comma)

def clause (kw : String) : P (Option Expr) := do
  if ← acceptKw kw then return some (← self.expr) else return none

def joinWords : List String := ["join", "cross", "inner", "left", "right", "full", "natural"]

def parseSelect : P SelectStmt := do
  expectKw "select"
  let distinct ← acceptKw "distinct"
  let mut distinctOn := []
  if distinct then
    if ← acceptKw "on" then
      let _ ← expect .lParen "'('"
      distinctOn ← exprList self
      let _ ← expect .rParen "')'"
  let star ← accept .star
  let mut columns := []
  if !star then
    columns ← exprAliases self
  expectKw "from"
  let from_ ← qualifiedName
  let fromAlias ← optionalAlias
  let t ← cur
  if joinWords.any t.isKw then
    failUnsupported "JOIN is not supported; VectorSQL allows a single FROM table"
      "spec 12 §17.1 restricts SELECT to one table"
  if t.kind = .comma then
    failUnsupported "comma joins are not supported; VectorSQL allows a single FROM table"
      "spec 12 §17.1 restricts SELECT to one table"
  let where_ ← clause self "where"
  let mut groupBy := []
  if ← acceptKw "group" then
    expectKw "by"
    groupBy ← exprList self
  let having_ ← clause self "having"
  let mut fusion := none
  if ← isKw "fusion" then
    fusion := some (← parseFusion self)
  let mut orderBy := []
  if ← acceptKw "order" then
    expectKw "by"
    orderBy ← orderByList self
  let limit ← clause self "limit"
  let offset ← clause self "offset"
  return ⟨distinct, distinctOn, columns, star, from_, fromAlias, where_, groupBy, having_, fusion,
    orderBy, limit, offset⟩

end Select

/-- The rules for what is nested at most so deep. -/
def rules (ft : FloatText) : ℕ → Rules
  | 0 => ⟨failHere "expected less nesting", failHere "expected less nesting"⟩
  | n + 1 => ⟨parseOr ft (rules ft n), parseSelect (rules ft n)⟩

section Statements

variable (self : Rules)

def assignList : P (List Assignment) :=
  Parser.sepBy (do
    let column ← ident "a column name"
    let _ ← expect .eq "'='"
    return { column, value := ← self.expr }) (accept .comma)

def parseReturning : P Returning := do
  if !(← acceptKw "returning") then return {}
  else if ← accept .star then return { all := true }
  else return { items := ← exprAliases self }

def optionalColumns : P (List Bytes) := do
  if ← accept .lParen then
    let columns ← identList
    let _ ← expect .rParen "')'"
    return columns
  else return []

def parseOnConflict : P OnConflict := do
  let columns ← optionalColumns
  expectKw "do"
  if ← acceptKw "nothing" then return { columns, doNothing := true }
  else
    expectKw "update"
    expectKw "set"
    return { columns, assigns := ← assignList self }

def parseInsert : P InsertStmt := do
  expectKw "insert"
  expectKw "into"
  let table ← qualifiedName
  let columns ← optionalColumns
  expectKw "values"
  let rows ← Parser.sepBy (do
    let _ ← expect .lParen "'('"
    let row ← exprList self
    let _ ← expect .rParen "')'"
    return row) (accept .comma)
  let mut onConflict := none
  if ← acceptKw "on" then
    expectKw "conflict"
    onConflict := some (← parseOnConflict self)
  return { table, columns, rows, onConflict, returning := ← parseReturning self }

def parseDelete : P DeleteStmt := do
  expectKw "delete"
  expectKw "from"
  let table ← qualifiedName
  let where_ ← clause self "where"
  return { table, where_, returning := ← parseReturning self }

def parseUpdate : P UpdateStmt := do
  expectKw "update"
  let table ← qualifiedName
  expectKw "set"
  let assigns ← assignList self
  let where_ ← clause self "where"
  return { table, assigns, where_, returning := ← parseReturning self }

def parseCopy : P CopyStmt := do
  expectKw "copy"
  let table ← qualifiedName
  let columns ← optionalColumns
  expectKw "from"
  let stdin ← acceptKw "stdin"
  let mut source := []
  if !stdin then
    source := (← expect .string "a file path string").text
  let mut format := []
  if ← acceptKw "format" then
    format ← contextualWord "a format name"
  let mut options := []
  if ← acceptKw "with" then
    options ← optionMap self
  return { table, columns, source, stdin, format, options }

def columnOption (c : ColumnSpec) : P (Option ColumnSpec) := do
  if ← acceptKw "not" then
    expectKw "null"
    return some { c with notNull := true }
  else if ← acceptKw "null" then return some { c with nullable := true }
  else if ← acceptKw "default" then return some { c with default := some (← self.expr) }
  else if ← acceptKw "primary" then
    expectKw "key"
    return some { c with primaryKey := true }
  else if ← acceptKw "unique" then return some { c with unique := true }
  else return none

def parseColumnSpec : P ColumnSpec := do
  let name ← ident "a column name"
  let type ← parseType
  Parser.chain (columnOption self) { name, type }

def parenIdents : P (List Bytes) := do
  let _ ← expect .lParen "'('"
  let names ← identList
  let _ ← expect .rParen "')'"
  return names

def tableItem (st : CreateTableStmt) : P CreateTableStmt := do
  if ← acceptKw "primary" then
    expectKw "key"
    return { st with primaryKey := ← parenIdents }
  else if ← acceptKw "unique" then return { st with uniques := st.uniques ++ [← parenIdents] }
  else if ← acceptKw "check" then
    let _ ← expect .lParen "'('"
    let check ← self.expr
    let _ ← expect .rParen "')'"
    return { st with checks := st.checks ++ [check] }
  else return { st with columns := st.columns ++ [← parseColumnSpec self] }

def parseIfNotExists : P Bool := do
  if ← acceptKw "if" then
    expectKw "not"
    expectKw "exists"
    return true
  else return false

def parseCreateTable : P CreateTableStmt := do
  let ifNotExists ← parseIfNotExists
  let name ← qualifiedName
  let _ ← expect .lParen "'('"
  let first ← tableItem self { ifNotExists, name }
  let st ← Parser.chain (fun st => do
    if ← accept .comma then return some (← tableItem self st) else return none) first
  let _ ← expect .rParen "')'"
  return st

def parseCreateIndex (unique : Bool) : P CreateIndexStmt := do
  let ifNotExists ← parseIfNotExists
  let mut name := []
  if (← cur).kind = .ident then
    name := (← advance).text
  expectKw "on"
  let table ← qualifiedName
  expectKw "using"
  let indexType ← contextualWord "an index type"
  let _ ← expect .lParen "'('"
  let column ← ident "the indexed column"
  let mut opclass := []
  if (← cur).kind = .ident then
    opclass := (← advance).text
  let _ ← expect .rParen "')'"
  let mut options := []
  if ← acceptKw "with" then
    options ← optionMap self
  let where_ ← clause self "where"
  return { unique, ifNotExists, name, table, indexType, column, opclass, options, where_ }

def parseCreate : P Stmt := do
  expectKw "create"
  if ← acceptKw "table" then return .createTable (← parseCreateTable self)
  else
    let unique ← acceptKw "unique"
    if ← acceptKw "index" then return .createIndex (← parseCreateIndex self unique)
    else failHere "expected TABLE or INDEX after CREATE"

def parseDrop : P DropStmt := do
  expectKw "drop"
  let table ← acceptKw "table"
  if !table && !(← acceptKw "index") then failHere "expected TABLE or INDEX after DROP"
  let ifExists ← acceptKw "if"
  if ifExists then expectKw "exists"
  if !table && (← acceptKw "on") then
    let onTable ← qualifiedName
    let _ ← expect .lParen "'('"
    let onColumn ← ident "a column name"
    let _ ← expect .rParen "')'"
    return { index := true, ifExists, onTable, onColumn }
  else return { index := !table, ifExists, name := ← qualifiedName }

def parseAlter : P Stmt := do
  expectKw "alter"
  expectKw "table"
  let table ← qualifiedName
  if ← acceptKw "add" then
    let _ ← acceptKw "column"
    return .alterTable table (.addColumn (← parseColumnSpec self))
  else if ← acceptKw "drop" then
    let _ ← acceptKw "column"
    return .alterTable table (.dropColumn (← ident "a column name"))
  else if ← acceptKw "rename" then
    if ← acceptKw "to" then return .alterTable table (.renameTable (← ident "a new table name"))
    else
      let _ ← acceptKw "column"
      let oldName ← ident "a column name"
      expectKw "to"
      return .alterTable table (.renameColumn oldName (← ident "a new column name"))
  else failHere "expected ADD, DROP, or RENAME"

def isolationLevel : P Bytes := do
  if ← acceptKw "serializable" then return ascii "serializable"
  else if ← acceptKw "repeatable" then
    let _ ← ident "read"
    return ascii "repeatable read"
  else if ← acceptKw "read" then return ascii "read " ++ (← ident "committed or uncommitted")
  else failHere "expected an isolation level"

def parseTxn : P TxnStmt := do
  let t ← advance
  if t.text = ascii "begin" then
    let _ ← acceptKw "transaction"
    if ← acceptKw "isolation" then
      expectKw "level"
      return { kind := .begin, isolation := ← isolationLevel }
    else return { kind := .begin }
  else if t.text = ascii "commit" then
    let _ ← acceptKw "transaction"
    return { kind := .commit }
  else if t.text = ascii "rollback" then
    let _ ← acceptKw "transaction"
    if ← acceptKw "to" then
      let _ ← acceptKw "savepoint"
      return { kind := .rollbackTo, name := ← ident "a savepoint name" }
    else return { kind := .rollback }
  else if t.text = ascii "savepoint" then
    return { kind := .savepoint, name := ← ident "a savepoint name" }
  else
    let _ ← acceptKw "savepoint"
    return { kind := .release, name := ← ident "a savepoint name" }

def parseExecute : P Stmt := do
  expectKw "execute"
  let name ← ident "a statement name"
  let mut args := []
  if ← accept .lParen then
    args ← exprList self
    let _ ← expect .rParen "')'"
  return .execute name args

def parseDeallocate : P Stmt := do
  expectKw "deallocate"
  let _ ← acceptKw "prepare"
  if ← acceptKw "all" then return .deallocate [] true
  else return .deallocate (← ident "a statement name") false

def parsePragma : P PragmaStmt := do
  expectKw "pragma"
  let first ← ident "a pragma name"
  let mut scope := []
  let mut name := first
  if ← accept .dot then
    scope := first
    name ← ident "a pragma name"
  if ← accept .eq then return { scope, name, value := some (← self.expr) }
  else if ← accept .lParen then
    let value ← self.expr
    let _ ← expect .rParen "')'"
    return { scope, name, value := some value }
  else return { scope, name }

def parseSet : P SetStmt := do
  expectKw "set"
  let isLocal ← acceptKw "local"
  let mut session := false
  if !isLocal then
    session ← acceptKw "session"
  let name ← ident "a setting name"
  if !(← accept .eq) then expectKw "to"
  if ← acceptKw "default" then return { isLocal, session, name }
  else return { isLocal, session, name, value := some (← self.expr) }

end Statements

def parseStatement (ft : FloatText) : ℕ → P Stmt
  | 0 => failHere "expected less nesting"
  | n + 1 => do
    let self := rules ft n
    let t ← cur
    if t.kind ≠ .keyword then failHere "expected a statement keyword"
    else if t.isKw "select" then return .select (← parseSelect self)
    else if t.isKw "insert" then return .insert (← parseInsert self)
    else if t.isKw "upsert" then
      failUnsupported "UPSERT keyword form not supported"
        "use INSERT ... ON CONFLICT (spec 12 §4.2)"
    else if t.isKw "delete" then return .delete (← parseDelete self)
    else if t.isKw "update" then return .update (← parseUpdate self)
    else if t.isKw "copy" then return .copy (← parseCopy self)
    else if t.isKw "create" then parseCreate self
    else if t.isKw "drop" then return .drop (← parseDrop)
    else if t.isKw "alter" then parseAlter self
    else if ["begin", "commit", "rollback", "savepoint", "release"].any t.isKw then
      return .txn (← parseTxn)
    else if t.isKw "prepare" then
      expectKw "prepare"
      let name ← ident "a statement name"
      let mut types := []
      if ← accept .lParen then
        types ← Parser.sepBy parseType (accept .comma)
        let _ ← expect .rParen "')'"
      expectKw "as"
      return .prepare name types (← parseStatement ft n)
    else if t.isKw "execute" then parseExecute self
    else if t.isKw "deallocate" then parseDeallocate
    else if t.isKw "explain" then
      expectKw "explain"
      let analyze ← acceptKw "analyze"
      let mut options := []
      if ← accept .lParen then
        options ← optionMap self
      return .explain analyze options (← parseStatement ft n)
    else if t.isKw "profile" then
      let _ ← advance
      return .profile (← parseStatement ft n)
    else if t.isKw "pragma" then return .pragma (← parsePragma self)
    else if t.isKw "set" then return .set (← parseSet self)
    else if t.isKw "join" || t.isKw "cross" then
      failUnsupported "JOIN is not supported"
        "VectorSQL has one FROM table per query (spec 12 §1.2)"
    else failHere ("unexpected statement keyword '" ++ bytesText (t.text.map toUpper) ++ "'")

def parse (ft : FloatText) (src : Bytes) : Except VecError Stmt := do
  let toks ← lex src
  let (stmt, toks) ← (do
    let stmt ← parseStatement ft (toks.length + 1)
    let _ ← accept .semicolon
    return stmt : P Stmt) toks
  let t := toks.headD eof
  if t.kind ≠ .eof then
    .error (parseError t.offset "unexpected trailing tokens" "a single statement was expected")
  else return stmt

end VecDb.VectorSql

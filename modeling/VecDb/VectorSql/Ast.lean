import VecDb.Base.Float

/-! # Syntax trees

The statements and expressions that the parser gives. A table of options has a key once.
-/

namespace VecDb.VectorSql

inductive DistanceOp
  | l2Distance | cosineDistance | negInnerProd | l1Distance
  deriving DecidableEq

inductive UnaryOp
  | not | neg
  deriving DecidableEq

inductive BinaryOp
  | or | and
  | eq | ne | lt | le | gt | ge
  | contains | contained | overlap
  | add | sub | concat | mul | div | mod
  deriving DecidableEq

/-- A type with its dimension or length, if it is given. -/
structure TypeRef where
  name : Bytes
  arg : Int64 := 0
  hasArg : Bool := false
  deriving DecidableEq

mutual

inductive Expr
  | columnRef (table name : Bytes)
  | star
  | intLit (value : Int64)
  | floatLit (value : Float64)
  | stringLit (value : Bytes)
  | boolLit (value : Bool)
  | nullLit
  | paramRef (name : Bytes) (pos : Int64)
  | unary (op : UnaryOp) (expr : Expr)
  | binary (op : BinaryOp) (left right : Expr)
  | distance (op : DistanceOp) (left right : Expr)
  | isNull (expr : Expr) (not : Bool)
  | between (expr lo hi : Expr) (not : Bool)
  | inList (expr : Expr) (list : List Expr) (not : Bool)
  | inSub (expr : Expr) (sub : SelectStmt) (not : Bool)
  | like (expr pattern : Expr) (not insens : Bool)
  | cast (expr : Expr) (type : TypeRef)
  | json (expr : Expr) (key : Bytes) (text : Bool)
  | funcCall (name : Bytes) (args : List Expr) (star distinct : Bool) (filter : Option Expr)
  | caseExpr (operand : Option Expr) (whens : List WhenClause) (els : Option Expr)
  | subquery (sub : SelectStmt)
  | exists (sub : SelectStmt)

structure WhenClause where
  cond : Expr
  result : Expr

/-- An item of a select list; the alias is empty if there is none. -/
structure ExprAlias where
  expr : Expr
  alias_ : Bytes

structure OrderItem where
  expr : Expr
  desc : Bool
  nullsFirst : Bool
  nullsSet : Bool

/-- The items and options of a fusion are those of a vector stream or of a keyword stream. -/
inductive FusionStream
  | vector (column : Bytes) (op : DistanceOp) (query : Expr)
  | keyword (matchCols : List Bytes) (against : Expr) (options : List (Bytes × Expr))

structure FusionClause where
  streams : List FusionStream
  options : List (Bytes × Expr)

structure SelectStmt where
  distinct : Bool
  distinctOn : List Expr
  columns : List ExprAlias
  star : Bool
  from_ : Bytes
  fromAlias : Bytes
  where_ : Option Expr
  groupBy : List Expr
  having_ : Option Expr
  fusion : Option FusionClause
  orderBy : List OrderItem
  limit : Option Expr
  offset : Option Expr

end

structure Assignment where
  column : Bytes
  value : Expr

structure Returning where
  items : List ExprAlias := []
  all : Bool := false

structure ColumnSpec where
  name : Bytes
  type : TypeRef
  notNull : Bool := false
  nullable : Bool := false
  primaryKey : Bool := false
  unique : Bool := false
  default : Option Expr := none

structure CreateTableStmt where
  ifNotExists : Bool := false
  name : Bytes := []
  columns : List ColumnSpec := []
  primaryKey : List Bytes := []
  uniques : List (List Bytes) := []
  checks : List Expr := []

structure CreateIndexStmt where
  unique : Bool := false
  ifNotExists : Bool := false
  name : Bytes := []
  table : Bytes := []
  indexType : Bytes := []
  column : Bytes := []
  opclass : Bytes := []
  options : List (Bytes × Expr) := []
  where_ : Option Expr := none

structure DropStmt where
  index : Bool
  ifExists : Bool := false
  name : Bytes := []
  onTable : Bytes := []
  onColumn : Bytes := []

inductive AlterAction
  | addColumn (column : ColumnSpec)
  | dropColumn (name : Bytes)
  | renameTable (newName : Bytes)
  | renameColumn (oldName newName : Bytes)

structure OnConflict where
  columns : List Bytes := []
  doNothing : Bool := false
  assigns : List Assignment := []

structure InsertStmt where
  table : Bytes
  columns : List Bytes := []
  rows : List (List Expr) := []
  onConflict : Option OnConflict := none
  returning : Returning := {}

structure DeleteStmt where
  table : Bytes
  where_ : Option Expr := none
  returning : Returning := {}

structure UpdateStmt where
  table : Bytes
  assigns : List Assignment := []
  where_ : Option Expr := none
  returning : Returning := {}

structure CopyStmt where
  table : Bytes
  columns : List Bytes := []
  source : Bytes := []
  stdin : Bool := false
  format : Bytes := []
  options : List (Bytes × Expr) := []

inductive TxnKind
  | begin | commit | rollback | savepoint | release | rollbackTo
  deriving DecidableEq

structure TxnStmt where
  kind : TxnKind
  isolation : Bytes := []
  name : Bytes := []
  deriving DecidableEq

structure PragmaStmt where
  scope : Bytes := []
  name : Bytes := []
  value : Option Expr := none

structure SetStmt where
  isLocal : Bool := false
  session : Bool := false
  name : Bytes := []
  value : Option Expr := none

inductive Stmt
  | select (s : SelectStmt)
  | createTable (s : CreateTableStmt)
  | createIndex (s : CreateIndexStmt)
  | drop (s : DropStmt)
  | alterTable (table : Bytes) (action : AlterAction)
  | insert (s : InsertStmt)
  | delete (s : DeleteStmt)
  | update (s : UpdateStmt)
  | copy (s : CopyStmt)
  | txn (s : TxnStmt)
  | prepare (name : Bytes) (types : List TypeRef) (body : Stmt)
  | execute (name : Bytes) (args : List Expr)
  /-- The name is empty if all are deallocated. -/
  | deallocate (name : Bytes) (all : Bool)
  | explain (analyze : Bool) (options : List (Bytes × Expr)) (body : Stmt)
  | profile (body : Stmt)
  | pragma (s : PragmaStmt)
  | set (s : SetStmt)

end VecDb.VectorSql

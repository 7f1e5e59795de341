import VecDb.Facade.Exec

/-! # Messages of the client

A message is a tag, a length and a body. The counts of a body are signed, and a slice is allocated
for a count without a look at its sign. The values of a Bind message are written into the
statement as literals, in the places of the placeholders that are outside of quotes.
-/

namespace VecDb.PgWire

open Bytes (getBE slice)

/-- How a decoder fails: the body is too short, or a slice or an allocation panics. -/
inductive Fault
  | shortRead
  | panic
  deriving DecidableEq

structure BodyReader where
  b : Bytes
  pos : ℕ := 0
  deriving DecidableEq

abbrev Decode := StateT BodyReader (Except Fault)

def bigEndian (n : ℕ) (s : Bytes) : Except Fault ℕ :=
  if s.length < n then .error .panic else .ok (getBE (s.take n))

def sliceFrom (s : Bytes) (i : ℕ) : Except Fault Bytes :=
  if s.length < i then .error .panic else .ok (s.drop i)

/-- More bytes than can be addressed are not allocated. -/
def maxAlloc : ℕ := 2 ^ 48

def make (size : ℕ) (n : ℤ) : Except Fault Unit :=
  if n < 0 ∨ maxAlloc < n * size then .error .panic else .ok ()

def BodyReader.remaining (r : BodyReader) : ℤ := r.b.length - r.pos

def number (n : ℕ) : Decode ℕ := fun r =>
  if r.remaining < n then .error .shortRead
  else do
    let s ← sliceFrom r.b r.pos
    let v ← bigEndian n s
    return (v, { r with pos := r.pos + n })

def int16 : Decode Int16 := return (UInt16.ofNat (← number 2)).toInt16

def int32 : Decode Int32 := return (UInt32.ofNat (← number 4)).toInt32

def byteVal : Decode UInt8 := return UInt8.ofNat (← number 1)

def cstring : Decode Bytes := fun r =>
  let rest := r.b.drop r.pos
  let s := rest.takeWhile (· ≠ 0)
  if s.length < rest.length then .ok (s, { r with pos := r.pos + s.length + 1 })
  else .error .shortRead

def bytesN (n : ℕ) : Decode Bytes := fun r =>
  if r.remaining < n then .error .shortRead
  else if r.b.length < r.pos + n then .error .panic
  else .ok (slice r.b r.pos n, { r with pos := r.pos + n })

def times {α : Type} (item : Decode α) : ℕ → Decode (List α)
  | 0 => return []
  | n + 1 => do
    let a ← item
    return a :: (← times item n)

/-- A count and as many items of the given size. The slice for them is allocated first. -/
def counted {α : Type} (size : ℕ) (item : Decode α) : Decode (List α) := do
  let n ← int16
  make size n.toInt
  times item n.toInt.toNat

/-- The value of a parameter. A negative length stands for null; a value without any byte is
copied to a slice that is null. -/
def paramValue : Decode (Option Bytes) := do
  let l ← int32
  if l < 0 then return none
  else
    let v ← bytesN l.toInt.toNat
    return if v = [] then none else some v

def parseBody : Decode (Bytes × Bytes × List Int32) := do
  let name ← cstring
  let sql ← cstring
  return (name, sql, ← counted 4 int32)

def bindNames : Decode (Bytes × Bytes) := do
  let portal ← cstring
  return (portal, ← cstring)

/-- The formats and the values of a Bind message, and the formats of its result. -/
def bindValues : Decode (List Int16 × List (Option Bytes) × List Int16) := do
  let paramFmts ← counted 2 int16
  let values ← counted 24 paramValue
  return (paramFmts, values, ← counted 2 int16)

def kindName : Decode (UInt8 × Bytes) := do
  let kind ← byteVal
  return (kind, ← cstring)

/-- The portal of an Execute message. The bound on the rows is read and not used. -/
def executeBody : Decode Bytes := do
  let portal ← cstring
  let _ ← int32
  return portal

def decode {α : Type} (d : Decode α) (body : Bytes) : Except Fault α := (d { b := body }).map Prod.fst

section Frames

structure Frame where
  tag : UInt8
  body : Bytes
  deriving DecidableEq

def readFull (n : ℕ) (input : Bytes) : Option (Bytes × Bytes) :=
  if input.length < n then none else some (input.take n, input.drop n)

/-- The body after a length, which counts itself. It is less than 4 GiB, so it can be
allocated. -/
def readBody (input : Bytes) : Option (Bytes × Bytes) := do
  let (lenBuf, input) ← readFull 4 input
  if getBE lenBuf < 4 then none else readFull (getBE lenBuf - 4) input

def readStartup (input : Bytes) : Option (Bytes × Bytes) := readBody input

def readFrame : Bytes → Option (Frame × Bytes)
  | [] => none
  | tag :: input => (readBody input).map fun (body, rest) => ({ tag, body }, rest)

end Frames

open VectorSql (VecError)
open Facade (LibErr ExecErr)

/-- What the text of an error is made of. -/
inductive Message
  | text (s : String)
  /-- A text that ends in a name in quotes, with what follows. -/
  | named (before : String) (name : Bytes) (after : String)
  | sql (e : VecError)
  | exec (e : ExecErr)
  deriving DecidableEq

structure PgError where
  code : String
  message : Message
  hint : String := ""
  deriving DecidableEq

/-- A step that fails with an error or with a panic. -/
abbrev Try := ExceptT PgError (Except Fault)

def oidBool : Int32 := 16
def oidBytea : Int32 := 17
def oidInt8 : Int32 := 20
def oidInt4 : Int32 := 23
def oidText : Int32 := 25
def oidFloat8 : Int32 := 701
def oidVarchar : Int32 := 1043
def oidVector : Int32 := 3999

def doubleQuotes (s : Bytes) : Bytes :=
  s.flatMap fun c => if c = byte '\'' then [byte '\'', byte '\''] else [c]

def formatInt (i : ℤ) : Bytes :=
  if i < 0 then byte '-' :: Decimal.text i.natAbs else Decimal.text i.natAbs

def quoteString (s : Bytes) : Bytes := byte '\'' :: doubleQuotes s ++ [byte '\'']

def decimalValue (ds : Bytes) : Option ℕ :=
  if ds ≠ [] ∧ ds.all VectorSql.isDigit then
    some (ds.foldl (fun n c => n * 10 + (c.toNat - 48)) 0)
  else none

def parseInt64 (t : Bytes) : Option Int64 :=
  match t with
  | 0x2d :: ds =>
    (decimalValue ds).bind fun n => if n ≤ 2 ^ 63 then some (.ofInt (-n)) else none
  | 0x2b :: ds => (decimalValue ds).bind fun n => if n < 2 ^ 63 then some (.ofNat n) else none
  | ds => (decimalValue ds).bind fun n => if n < 2 ^ 63 then some (.ofNat n) else none

def vectorText (sc : Strconv) (fl : List Float32) : Bytes :=
  byte '[' :: [byte ','].intercalate (fl.map sc.general32) ++ [byte ']']

/-- The type of a text parameter decides how it is written; what does not fit is a string. A text
in brackets is quoted as it is. -/
def encodeTextLiteral (sc : Strconv) (s : Bytes) (oid : Int32) : Bytes :=
  let t := trimSpace s
  if (oid = oidInt8 ∨ oid = oidInt4) ∧ (parseInt64 t).isSome then t
  else if oid = oidFloat8 ∧ (sc.parseFloat t).isSome then t
  else if oid = oidBool ∧ (t = ascii "t" ∨ t = ascii "true") then ascii "TRUE"
  else if oid = oidBool ∧ (t = ascii "f" ∨ t = ascii "false") then ascii "FALSE"
  else if 2 ≤ t.length ∧ t.head? = some (byte '[') ∧ t.getLast? = some (byte ']') then
    byte '\'' :: t ++ [byte '\'']
  else quoteString s

def readSingles (v : Bytes) (off : ℕ) : ℕ → Except Fault (List Float32)
  | 0 => .ok []
  | n + 1 => do
    let bits ← bigEndian 4 (← sliceFrom v off)
    return ⟨UInt32.ofNat bits⟩ :: (← readSingles v (off + 4) n)

/-- The dimension of a vector and where its numbers start: after two bytes and two more, or after
four and four more. -/
def vectorLayout (v : Bytes) : Except Fault (ℕ × ℕ) := do
  let dim ← bigEndian 2 v
  if dim * 4 + 4 ≠ v.length ∧ 8 ≤ v.length then
    let d2 ← bigEndian 4 v
    return if d2 * 4 + 8 = v.length then (d2, 8) else (dim, 4)
  else return (dim, 4)

def invalidBinary (message : String) : PgError := { code := "22P03", message := .text message }

def decodeBinaryVector (v : Bytes) : Try (List Float32) :=
  if v.length < 4 then throw (invalidBinary "invalid binary vector header")
  else do
    let (dim, off) ← vectorLayout v
    if dim * 4 + off ≠ v.length then throw (invalidBinary "binary vector length mismatch")
    else
      make 4 dim
      readSingles v off dim

def binaryNumber (n : ℕ) (name : String) (v : Bytes) (literal : ℕ → Bytes) : Try Bytes :=
  if v.length ≠ n then throw (invalidBinary ("invalid binary " ++ name ++ " length"))
  else do return literal (← bigEndian n v)

/-- A binary parameter of a type that is not known is taken for text. -/
def encodeBinaryLiteral (sc : Strconv) (v : Bytes) (oid : Int32) : Try Bytes :=
  if oid = oidVector then do
    return byte '\'' :: vectorText sc (← decodeBinaryVector v) ++ [byte '\'']
  else if oid = oidInt8 then
    binaryNumber 8 "int8" v fun n => formatInt (UInt64.ofNat n).toInt64.toInt
  else if oid = oidInt4 then
    binaryNumber 4 "int4" v fun n => formatInt (UInt32.ofNat n).toInt32.toInt
  else if oid = oidFloat8 then binaryNumber 8 "float8" v fun n => sc.general64 ⟨UInt64.ofNat n⟩
  else if oid = oidBool then
    return if v.length = 1 ∧ v.headD 0 ≠ 0 then ascii "TRUE" else ascii "FALSE"
  else return quoteString v

def encodeParamLiteral (sc : Strconv) (v : Option Bytes) (format : Int16) (oid : Int32) :
    Try Bytes :=
  match v with
  | none => return ascii "NULL"
  | some v =>
    if format = 1 then encodeBinaryLiteral sc v oid else return encodeTextLiteral sc v oid

def placeholderDigits (s : Bytes) : Bytes := s.takeWhile VectorSql.isDigit

/-- Write the literals in the places of the placeholders. A quote toggles whether the text is
quoted; some bytes of a replaced placeholder may be left. -/
def replaceFrom (lits : List Bytes) : Bool → ℕ → Bytes → Bytes
  | _, _, [] => []
  | inStr, skip + 1, _ :: s => replaceFrom lits inStr skip s
  | inStr, 0, c :: s =>
    if c = byte '\'' then c :: replaceFrom lits (!inStr) 0 s
    else
      let digits := placeholderDigits s
      let n := (VectorSql.atoi digits).toInt
      if c = byte '$' ∧ inStr = false ∧ digits ≠ [] ∧ 1 ≤ n ∧ n ≤ lits.length then
        lits.getD (n.toNat - 1) [] ++ replaceFrom lits inStr digits.length s
      else c :: replaceFrom lits inStr 0 s

def replacePlaceholders (sql : Bytes) (lits : List Bytes) : Bytes := replaceFrom lits false 0 sql

def formatAt (formats : List Int16) (i : ℕ) : Int16 :=
  match formats with
  | [f] => f
  | _ => formats.getD i 0

def substituteParams (sc : Strconv) (sql : Bytes) (values : List (Option Bytes))
    (formats : List Int16) (oids : List Int32) : Try Bytes :=
  if values = [] then return sql
  else do
    let lits ← values.zipIdx.mapM fun x =>
      encodeParamLiteral sc x.1 (formatAt formats x.2) (oids.getD x.2 0)
    return replacePlaceholders sql lits

def countFrom : Bool → ℕ → Bytes → ℕ
  | _, _, [] => 0
  | inStr, skip + 1, _ :: s => countFrom inStr skip s
  | inStr, 0, c :: s =>
    if c = byte '\'' then countFrom (!inStr) 0 s
    else
      let digits := placeholderDigits s
      if c = byte '$' ∧ inStr = false ∧ digits ≠ [] then
        max (VectorSql.atoi digits).toInt.toNat (countFrom inStr digits.length s)
      else countFrom inStr 0 s

def countParams (sql : Bytes) : ℕ := countFrom false 0 sql

/-- The types of the parameters: the declared ones, a vector for the first one of a search. -/
def inferParamOIDs (sql : Bytes) (paramOIDs : List Int32) : Except Fault (List Int32) := do
  make 4 (countParams sql)
  return (List.range (countParams sql)).map fun i =>
    if paramOIDs.getD i 0 ≠ 0 then paramOIDs.getD i 0
    else if i = 0 ∧ byte '<' ∈ sql then oidVector
    else oidInt8

end VecDb.PgWire

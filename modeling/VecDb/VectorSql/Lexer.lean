import VecDb.Base.Text
import VecDb.Base.Scan

/-! # The lexer

The source is scanned from left to right. Every scanner gets the offset and the input from there
on, and gives a token and the number of bytes it has read. The text of a token is decoded: words
in lower case, strings without their quotes.
-/

namespace VecDb.VectorSql

inductive TokenKind
  | eof | ident | keyword | int | float | string | param
  | comma | lParen | rParen | dot | semicolon | star
  | eq | ne | lt | le | gt | ge
  | plus | minus | slash | percent | concat
  | l2 | cos | ip | l1 | cast
  | arrow | arrow2
  | contains | contained | overlap
  deriving DecidableEq

structure Token where
  kind : TokenKind
  text : Bytes := []
  offset : ℕ
  paramName : Bytes := []
  paramPos : Int64 := 0
  deriving DecidableEq

def keywords : List String :=
  ["add", "against", "all", "alter", "analyze", "and",
    "as", "asc", "begin", "between", "by", "case",
    "check", "column", "commit", "conflict", "copy",
    "create", "cross", "deallocate", "default", "delete",
    "desc", "distinct", "do", "drop", "else", "end",
    "execute", "exists", "explain", "filter", "first",
    "format", "from", "fusion", "group", "having", "if",
    "ilike", "in", "index", "insert", "into", "is",
    "isolation", "join", "keyword", "key", "last", "level",
    "like", "limit", "local", "match", "not", "null",
    "nulls", "offset", "on", "or", "order", "pragma",
    "prepare", "primary", "profile", "release", "rename",
    "returning", "rollback", "savepoint", "select", "session",
    "set", "table", "then", "to", "transaction", "unique",
    "update", "upsert", "using", "values", "when", "where",
    "with", "true", "false"]

def isKeyword (lower : Bytes) : Bool := keywords.any fun w => ascii w = lower

inductive ErrCode
  | parse | unsupported | ident | type | dim | plan
  deriving DecidableEq

structure VecError where
  code : ErrCode
  message : String
  detail : String := ""
  /-- The byte offset in the source, -1 if the error has none. -/
  offset : ℤ := -1
  deriving DecidableEq

def parseError (offset : ℕ) (message detail : String) : VecError where
  code := .parse
  message := "syntax error at position " ++ toString offset ++ ": " ++ message
  detail := detail
  offset := offset

section Classes

def isDigit (c : UInt8) : Bool := byte '0' ≤ c && c ≤ byte '9'

def isIdentStart (c : UInt8) : Bool :=
  c == byte '_' || (byte 'a' ≤ c && c ≤ byte 'z') || (byte 'A' ≤ c && c ≤ byte 'Z')

def isIdentPart (c : UInt8) : Bool := isIdentStart c || isDigit c || c == byte '$'

def isBlank (c : UInt8) : Bool :=
  c == byte ' ' || c == byte '\t' || c == byte '\r' || c == byte '\n'

def hexVal (c : UInt8) : Option ℕ :=
  if byte '0' ≤ c ∧ c ≤ byte '9' then some (c.toNat - 48)
  else if byte 'a' ≤ c ∧ c ≤ byte 'f' then some (c.toNat - 97 + 10)
  else if byte 'A' ≤ c ∧ c ≤ byte 'F' then some (c.toNat - 65 + 10)
  else none

def isSpace (r : ℕ) : Bool :=
  r ∈ [0x09, 0x0a, 0x0b, 0x0c, 0x0d, 0x20, 0x85, 0xa0, 0x1680, 0x2028, 0x2029, 0x202f, 0x205f,
    0x3000] || 0x2000 ≤ r && r ≤ 0x200a

def isBoundary (r : ℕ) : Bool :=
  isSpace r || (ascii ",()[].;*=<>+-/%:'\"|@&!").any fun c => c.toNat == r

def toLower (c : UInt8) : UInt8 := if byte 'A' ≤ c ∧ c ≤ byte 'Z' then c + 32 else c

end Classes

def fail {α : Type} (off : ℕ) (message : String) (detail : String := "") : Except VecError α :=
  .error (parseError off message detail)

def peekAt (rest : Bytes) (off : ℕ) : UInt8 := rest.getD off 0

def width (p : UInt8 → Bool) (rest : Bytes) : ℕ := (rest.takeWhile p).length

def skipLineComment (rest : Bytes) : ℕ := width (· != byte '\n') rest

/-- The width of a block comment from after its first two bytes. -/
def blockBody (start : ℕ) : ℕ → Bytes → Except VecError ℕ
  | _, [] => fail start "unterminated block comment"
  | off, c :: rest =>
    if c = byte '/' ∧ peekAt rest 0 = byte '*' then
      fail off "nested block comment" "block comments may not be nested (spec 12 §2.2)"
    else if c = byte '*' ∧ peekAt rest 0 = byte '/' then .ok 2
    else (blockBody start (off + 1) rest).map (· + 1)

def skipBlockComment (off : ℕ) (rest : Bytes) : Except VecError ℕ :=
  (blockBody off (off + 2) (rest.drop 2)).map (· + 2)

def scanUnicodeEscape (off : ℕ) (rest : Bytes) (digits : ℕ) : Except VecError (Bytes × ℕ) :=
  let hex := (rest.drop 2).take digits
  if hex.length < digits then fail off "truncated unicode escape"
  else
    match hex.mapM hexVal with
    | none => fail off "invalid unicode escape digit"
    | some ds =>
      let r := ds.foldl (fun r d => r * 16 + d) 0
      if Utf8.validRune r then .ok (Utf8.encodeRune r, 2 + digits)
      else fail off "invalid unicode code point"

/-- The bytes that an escape stands for, and its width. -/
def scanEscape (off : ℕ) (rest : Bytes) : Except VecError (Bytes × ℕ) :=
  let esc := peekAt rest 1
  if esc = byte 'n' then .ok ([byte '\n'], 2)
  else if esc = byte 'r' then .ok ([byte '\r'], 2)
  else if esc = byte 't' then .ok ([byte '\t'], 2)
  else if esc = byte '\\' then .ok ([byte '\\'], 2)
  else if esc = byte '\'' then .ok ([byte '\''], 2)
  else if esc = byte 'u' then scanUnicodeEscape off rest 4
  else if esc = byte 'U' then scanUnicodeEscape off rest 8
  else fail off "invalid escape sequence"

/-- The text and the width of a string from after its first quote; the first argument says how many
bytes at the front are read already. -/
def stringBody (start : ℕ) : ℕ → ℕ → Bytes → Except VecError (Bytes × ℕ)
  | _, _, [] => fail start "unterminated string literal"
  | k + 1, off, _ :: rest => (stringBody start k (off + 1) rest).map fun x => (x.1, x.2 + 1)
  | 0, off, c :: rest =>
    if c = byte '\'' then
      if peekAt rest 0 = byte '\'' then
        (stringBody start 1 (off + 1) rest).map fun x => (byte '\'' :: x.1, x.2 + 1)
      else .ok ([], 1)
    else if c = byte '\\' then do
      let (text, n) ← scanEscape off (c :: rest)
      (stringBody start (n - 1) (off + 1) rest).map fun x => (text ++ x.1, x.2 + 1)
    else (stringBody start 0 (off + 1) rest).map fun x => (c :: x.1, x.2 + 1)

def scanString (off : ℕ) (rest : Bytes) : Except VecError (Token × ℕ) :=
  (stringBody off 0 (off + 1) rest.tail).map fun x => (⟨.string, x.1, off, [], 0⟩, x.2 + 1)

/-- The text and the width of a quoted identifier from after its first quote. -/
def quotedBody (start : ℕ) : Bytes → Except VecError (Bytes × ℕ)
  | [] => fail start "unterminated quoted identifier"
  | c :: rest =>
    if c = byte '"' then
      match rest with
      | d :: rest' =>
        if d = byte '"' then (quotedBody start rest').map fun x => (byte '"' :: x.1, x.2 + 2)
        else .ok ([], 1)
      | [] => .ok ([], 1)
    else (quotedBody start rest).map fun x => (c :: x.1, x.2 + 1)

def scanQuotedIdent (off : ℕ) (rest : Bytes) : Except VecError (Token × ℕ) :=
  (quotedBody off rest.tail).map fun x => (⟨.ident, x.1, off, [], 0⟩, x.2 + 1)

def scanNamedParam (off : ℕ) (rest : Bytes) : Except VecError (Token × ℕ) :=
  let name := rest.tail.takeWhile isIdentPart
  if name = [] then fail off "empty named parameter" "expected an identifier after ':'"
  else .ok (⟨.param, [], off, name.map toLower, 0⟩, name.length + 1)

def scanPositionalParam (off : ℕ) (rest : Bytes) : Except VecError (Token × ℕ) :=
  let num := rest.tail.takeWhile isDigit
  if num = [] then fail off "empty positional parameter" "expected a number after '$'"
  else
    let n := num.foldl (fun n c => n * 10 + (Int64.ofNat c.toNat - 48)) 0
    if n = 0 then fail off "positional parameter must be >= 1"
    else .ok (⟨.param, [], off, [], n⟩, num.length + 1)

section Numbers

def radixDigit (radix c : UInt8) : Bool :=
  if radix = byte 'x' then (hexVal c).isSome
  else if radix = byte 'b' then c == byte '0' || c == byte '1'
  else byte '0' ≤ c && c ≤ byte '7'

def scanRadixInt (off : ℕ) (rest : Bytes) (radix : UInt8) : Except VecError (Token × ℕ) :=
  let n := width (radixDigit radix) (rest.drop 2)
  if n = 0 then fail off "radix literal has no digits"
  else .ok (⟨.int, rest.take (2 + n), off, [], 0⟩, 2 + n)

def fractionWidth (rest : Bytes) : ℕ :=
  if peekAt rest 0 = byte '.' then 1 + width isDigit rest.tail else 0

def exponentWidth (rest : Bytes) : Option ℕ :=
  if peekAt rest 0 = byte 'e' ∨ peekAt rest 0 = byte 'E' then
    let sign := if peekAt rest 1 = byte '+' ∨ peekAt rest 1 = byte '-' then 2 else 1
    let n := width isDigit (rest.drop sign)
    if n = 0 then none else some (sign + n)
  else some 0

def scanNumber (off : ℕ) (rest : Bytes) : Except VecError (Token × ℕ) :=
  let radix := peekAt rest 1 ||| 0x20
  if peekAt rest 0 = byte '0' ∧ (radix = byte 'x' ∨ radix = byte 'b' ∨ radix = byte 'o') then
    scanRadixInt off rest radix
  else
    let whole := width isDigit rest
    let frac := fractionWidth (rest.drop whole)
    match exponentWidth (rest.drop (whole + frac)) with
    | none => fail off "exponent has no digits"
    | some exp =>
      let n := whole + frac + exp
      .ok (⟨if frac = 0 ∧ exp = 0 then .int else .float, rest.take n, off, [], 0⟩, n)

end Numbers

def scanWord (off : ℕ) (rest : Bytes) : Except VecError (Token × ℕ) :=
  let word := rest.takeWhile isIdentPart
  let next := (Utf8.decodeRune (rest.drop word.length)).getD 0xfffd
  if next ≠ 0xfffd ∧ 0x80 ≤ next ∧ !isBoundary next then
    fail (off + word.length) "non-ASCII character in unquoted identifier"
      "quote the identifier to use non-ASCII characters"
  else
    let lower := word.map toLower
    .ok (⟨if isKeyword lower then .keyword else .ident, lower, off, [], 0⟩, word.length)

def scanSingle (c : UInt8) : Option TokenKind :=
  if c = byte ',' then some .comma
  else if c = byte '(' then some .lParen
  else if c = byte ')' then some .rParen
  else if c = byte '.' then some .dot
  else if c = byte ';' then some .semicolon
  else if c = byte '*' then some .star
  else if c = byte '=' then some .eq
  else if c = byte '<' then some .lt
  else if c = byte '>' then some .gt
  else if c = byte '+' then some .plus
  else if c = byte '-' then some .minus
  else if c = byte '/' then some .slash
  else if c = byte '%' then some .percent
  else none

/-- The operators of more than one byte, in the order they are tried. -/
def operators : List (Bytes × TokenKind) :=
  [(ascii "<->", .l2), (ascii "<=>", .cos), (ascii "<#>", .ip), (ascii "<+>", .l1),
    (ascii "->>", .arrow2), (ascii "->", .arrow), (ascii "::", .cast), (ascii "||", .concat),
    (ascii "<=", .le), (ascii ">=", .ge), (ascii "<>", .ne), (ascii "!=", .ne),
    (ascii "@>", .contains), (ascii "<@", .contained), (ascii "&&", .overlap)]

def scanOperator (off : ℕ) (rest : Bytes) : Except VecError (Token × ℕ) :=
  match operators.find? fun x => x.1 = rest.take x.1.length with
  | some (text, kind) => .ok (⟨kind, text, off, [], 0⟩, text.length)
  | none =>
    let c := peekAt rest 0
    match scanSingle c with
    | some kind => .ok (⟨kind, [c], off, [], 0⟩, 1)
    | none => fail off "unexpected character" (String.singleton (Char.ofNat c.toNat))

/-- One round of the loop; a blank or a comment gives no token. -/
def step : Scan.Step UInt8 Token VecError := fun off rest =>
  let c := peekAt rest 0
  let token (r : Except VecError (Token × ℕ)) := r.map fun x => (some x.1, x.2)
  if isBlank c then .ok (none, 1)
  else if c = byte '-' ∧ peekAt rest 1 = byte '-' then .ok (none, skipLineComment rest)
  else if c = byte '/' ∧ peekAt rest 1 = byte '*' then
    (skipBlockComment off rest).map fun n => (none, n)
  else if c = byte '\'' then token (scanString off rest)
  else if c = byte '"' then token (scanQuotedIdent off rest)
  else if c = byte ':' ∧ peekAt rest 1 ≠ byte ':' then token (scanNamedParam off rest)
  else if c = byte '$' then token (scanPositionalParam off rest)
  else if isDigit c then token (scanNumber off rest)
  else if c = byte '.' ∧ isDigit (peekAt rest 1) then token (scanNumber off rest)
  else if isIdentStart c then token (scanWord off rest)
  else token (scanOperator off rest)

def lex (src : Bytes) : Except VecError (List Token) :=
  (Scan.run step 0 0 src).map (· ++ [⟨.eof, [], src.length, [], 0⟩])

example : (lex (ascii "a <= 'x''y' -- b")).map (·.map fun t => (t.kind, t.text, t.offset)) =
    .ok [(.ident, ascii "a", 0), (.le, ascii "<=", 2), (.string, ascii "x'y", 5),
      (.eof, [], 16)] := by decide

end VecDb.VectorSql

import VecDb.Storage.Value

/-! # The values of the data model

A value of the catalog carries the kind under which a column declares it. It is lowered
to a cell of the storage engine.
-/

namespace VecDb.Catalog

inductive Kind
  | null | bigInt | int | double | real | bool | text | timestamp | blob | json | array
  deriving DecidableEq

def Kind.code : Kind → UInt8
  | null => 0
  | bigInt => 1
  | int => 2
  | double => 3
  | real => 4
  | bool => 5
  | text => 6
  | timestamp => 7
  | blob => 8
  | json => 9
  | array => 10

inductive Value
  | null
  | bigInt (n : Int64)
  /-- A 32-bit integer in the slot of a 64-bit one. -/
  | int (n : Int64)
  | double (f : Float64)
  | real (f : Float64)
  | bool (b : Bool)
  | text (s : Bytes)
  /-- Microseconds since the Unix epoch. -/
  | timestamp (us : Int64)
  | blob (b : Bytes)
  | json (s : Bytes)
  | array (elem : Kind) (items : List Value)

namespace Value

def kind : Value → Kind
  | null => .null
  | bigInt _ => .bigInt
  | int _ => .int
  | double _ => .double
  | real _ => .real
  | bool _ => .bool
  | text _ => .text
  | timestamp _ => .timestamp
  | blob _ => .blob
  | json _ => .json
  | array _ _ => .array

def isNull (v : Value) : Bool := v.kind = .null

/-- The integer slot of a value, zero if its kind does not use it. -/
def i : Value → Int64
  | bigInt n | int n | timestamp n => n
  | bool b => if b then 1 else 0
  | _ => 0

def f : Value → Float64
  | double f | real f => f
  | _ => .ofInt 0

def b : Value → Bytes
  | text s | blob s | json s => s
  | _ => []

end Value

/-- A number in groups of seven bits, the lowest first; all but the last are marked. -/
def uvarint (x : UInt64) : Bytes := go 10 x.toNat
where
  go : ℕ → ℕ → Bytes
    | 0, _ => []
    | fuel + 1, n =>
      if 0x80 ≤ n then UInt8.ofNat (n % 0x80 + 0x80) :: go fuel (n / 0x80) else [UInt8.ofNat n]

/-- An element of an array, encoded by the kind that the array declares. -/
def encodeItem (elem : Kind) (v : Value) : Bytes :=
  match elem with
  | .bigInt | .int | .bool | .timestamp => uvarint v.i.toUInt64
  | .double | .real => uvarint v.f.bits
  | .text | .json | .blob => uvarint (UInt64.ofNat v.b.length) ++ v.b
  | .null | .array => []

def encodeArray (elem : Kind) (items : List Value) : Bytes :=
  elem.code :: uvarint (UInt64.ofNat items.length) ++ items.flatMap (encodeItem elem)

/-- A cell of which only the kind and the integer slot are set; the flag of a boolean stays false.
-/
def integerCell (k : Kind) (n : Int64) : Storage.Value :=
  match k with
  | .bool => .bool false
  | .timestamp => .timestamp n
  | _ => .int n

/-- The cell in which the engine stores a value. -/
def Value.lower : Value → Storage.Value
  | .null => .null
  | .bigInt n => integerCell .bigInt n
  | .int n => integerCell .int n
  | .bool b => integerCell .bool (Value.bool b).i
  | .timestamp us => integerCell .timestamp us
  | .double f | .real f => .float f
  | .text s | .json s => .text s
  | .blob b => .bytes b
  | .array elem items => .bytes (encodeArray elem items)

end VecDb.Catalog

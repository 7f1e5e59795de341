import VecDb.Base.Json
import VecDb.Base.Float

/-! # Import sources

A source gives one row after the other out of a finite input. The binary formats declare how
many rows they have, or go on while there are bytes; the CSV reader and the JSON decoder are
those of the standard library.
-/

namespace VecDb.Bulk

inductive Field
  | text (s : Bytes)
  | int (n : Int64)
  | float (f : Float64)
  | json (j : Json)

structure Row where
  vector : List Float32
  fields : List (Bytes × Field) := []
  autoIndex : UInt64

inductive ReadErr
  | eof
  | unexpectedEOF
  deriving DecidableEq

inductive VectorErr
  | element (i : ℕ)
  | elementKind (i : ℕ)
  | notArray
  deriving DecidableEq

inductive DecodeErr
  | eof
  | malformed (message : Bytes)
  | unmarshal (message : Bytes)
  deriving DecidableEq

inductive SourceErr
  | read (e : ReadErr)
  | dimension (row : UInt64) (d : ℕ)
  | dimensionDiffers (row : UInt64) (d dim : ℕ)
  | csv (message : Bytes)
  | missingColumn (row : UInt64) (column : ℕ)
  | missingVectorColumn (row : UInt64)
  | vector (row : UInt64) (e : VectorErr)
  | token (e : DecodeErr)
  | expectedArray
  | decodeRow (row : UInt64) (e : DecodeErr)
  | noVectorField (row : UInt64)
  | vectorFieldMissing (row : UInt64) (field : Bytes)
  deriving DecidableEq

/-- What a call for the next row gives. -/
inductive Outcome
  | row (r : Row)
  | stop
  | fail (e : SourceErr)

/-- What is left to the runtime: conversions of numbers and the order of a map's keys. -/
structure Runtime extends Strconv where
  singleOfInt32 : UInt32 → Float32
  jsonDouble : JsonNumber → Option Float64
  narrow : Float64 → Float32
  jsonText : JsonNumber → Bytes
  mapOrder : List (Bytes × Json) → List (Bytes × Json)

def readFull (n : ℕ) (input : Bytes) : Except ReadErr Bytes × Bytes :=
  if n = 0 then (.ok [], input)
  else if input = [] then (.error .eof, [])
  else if input.length < n then (.error .unexpectedEOF, [])
  else (.ok (input.take n), input.drop n)

def words (buf : Bytes) (n : ℕ) : List UInt32 :=
  (List.range n).map fun i => UInt32.ofNat (Bytes.getLE (Bytes.slice buf (4 * i) 4))

section Vectors

variable (rt : Runtime)

def parseElements (parts : List Bytes) : Except VectorErr (List Float32) :=
  parts.zipIdx.mapM fun (p, i) =>
    match rt.parseFloat32 (trimSpace p) with
    | some f => .ok f
    | none => .error (.element i)

def parseVectorString (s : Bytes) : Except VectorErr (List Float32) :=
  let s := trimSpace s
  let s := if s.head? = some (byte '[') then s.tail else s
  let s := if s.getLast? = some (byte ']') then s.dropLast else s
  let s := trimSpace s
  if s = [] then .ok [] else parseElements rt (s.splitOn (byte ','))

def jsonVector : Json → Except VectorErr (List Float32)
  | .arr items => items.zipIdx.mapM fun (x, i) =>
    match x with
    | .num n =>
      match rt.jsonDouble n with
      | some f => .ok (rt.narrow f)
      | none => .error (.element i)
    | _ => .error (.elementKind i)
  | .str s => parseVectorString rt s
  | _ => .error .notArray

def normalizeJSON : Json → Field
  | .num n =>
    match (Json.num n).intoInt64 with
    | some i => .int i
    | none =>
      match rt.jsonDouble n with
      | some f => .float f
      | none => .text (rt.jsonText n)
  | .str s => .text s
  | j => .json j

end Vectors

/-- The `.fbin` and `.ibin` formats: a count, a dimension and the elements. -/
structure FbinSource where
  input : Bytes
  dim : ℕ
  count : UInt32
  isInt : Bool
  rowIdx : UInt64 := 0

def FbinSource.next (rt : Runtime) (s : FbinSource) : Outcome × FbinSource :=
  if s.count.toUInt64 ≤ s.rowIdx then (.stop, s)
  else
    match readFull (4 * s.dim) s.input with
    | (.error _, rest) => (.stop, { s with input := rest })
    | (.ok scratch, rest) =>
      let element := if s.isInt then rt.singleOfInt32 else Float32.mk
      (.row { vector := (words scratch s.dim).map element, autoIndex := s.rowIdx },
        { s with input := rest, rowIdx := s.rowIdx + 1 })

inductive XvecsKind
  | fvecs
  | bvecs
  | ivecs
  deriving DecidableEq

/-- The `.fvecs`, `.bvecs` and `.ivecs` formats: each vector has its own dimension in front. -/
structure XvecsSource where
  input : Bytes
  kind : XvecsKind
  dim : ℕ := 0
  rowIdx : UInt64 := 0

namespace XvecsSource

def elemWidth (s : XvecsSource) : ℕ := if s.kind = .bvecs then 1 else 4

def elements (rt : Runtime) (s : XvecsSource) (scratch : Bytes) : List Float32 :=
  match s.kind with
  | .bvecs => (scratch.take s.dim).map fun b => rt.singleOfInt32 (UInt32.ofNat b.toNat)
  | .ivecs => (words scratch s.dim).map rt.singleOfInt32
  | .fvecs => (words scratch s.dim).map Float32.mk

def next (rt : Runtime) (s : XvecsSource) : Outcome × XvecsSource :=
  match readFull 4 s.input with
  | (.error _, rest) => (.stop, { s with input := rest })
  | (.ok dimBuf, rest) =>
    let d := Bytes.getLE dimBuf
    let s := { s with input := rest }
    if d = 0 then (.fail (.dimension s.rowIdx d), s)
    else if s.dim ≠ 0 ∧ d ≠ s.dim then (.fail (.dimensionDiffers s.rowIdx d s.dim), s)
    else
      let s := { s with dim := d }
      match readFull (d * s.elemWidth) s.input with
      | (.error e, rest) => (.fail (.read e), { s with input := rest })
      | (.ok scratch, rest) =>
        (.row { vector := s.elements rt scratch, autoIndex := s.rowIdx },
          { s with input := rest, rowIdx := s.rowIdx + 1 })

end XvecsSource

/-- The `.npy` format. The numbers are those of the header, which can be negative; the slice for a
row was made before the first one is read. -/
structure NpySource where
  input : Bytes
  rows : Int64
  dim : Int64
  rowIdx : UInt64 := 0
  made : 0 ≤ dim * 4 := by decide

namespace NpySource

def width (s : NpySource) : ℕ := (s.dim * 4).toInt.toNat

/-- The vector of a row can be made. -/
def Sized (s : NpySource) : Prop := 0 ≤ s.dim.toInt ∧ s.dim.toInt * 4 ≤ 2 ^ 48

instance (s : NpySource) : Decidable s.Sized := inferInstanceAs (Decidable (_ ∧ _))

def read (s : NpySource) : Outcome × NpySource :=
  if s.rows.toUInt64 ≤ s.rowIdx then (.stop, s)
  else
    match readFull s.width s.input with
    | (.error _, rest) => (.stop, { s with input := rest })
    | (.ok scratch, rest) =>
      (.row { vector := (words scratch s.dim.toInt.toNat).map Float32.mk, autoIndex := s.rowIdx },
        { s with input := rest, rowIdx := s.rowIdx + 1 })

/-- Nothing is returned when a row was read and its vector cannot be made: a panic. -/
def next (s : NpySource) : Option (Outcome × NpySource) :=
  if s.rowIdx < s.rows.toUInt64 ∧ s.width ≤ s.input.length ∧ ¬ s.Sized then none else some s.read

theorem dim_read (s : NpySource) : s.read.2.dim = s.dim := by
  rw [read]
  split
  · rfl
  · split <;> rfl

theorem Sized.read {s : NpySource} (h : s.Sized) : s.read.2.Sized := by
  rwa [Sized, s.dim_read]

end NpySource

/-- The CSV reader: the next record, or an error with the record skipped. -/
structure CsvReader (ρ : Type) where
  read : ρ → Except (Option Bytes) (List Bytes) × ρ
  remaining : ρ → ℕ

/-- Whatever the reader gives short of the end, it has read something for it. -/
def CsvReader.Documented {ρ : Type} (csv : CsvReader ρ) : Prop :=
  ∀ r r' out, csv.read r = (out, r') → out ≠ .error none → csv.remaining r' < csv.remaining r

structure CsvSource (ρ : Type) where
  r : ρ
  header : List Bytes
  vecCol : ℕ
  numbered : List ℕ
  rowIdx : UInt64 := 0

namespace CsvSource

variable {ρ : Type} (rt : Runtime) (csv : CsvReader ρ)

def vector (s : CsvSource ρ) (rec : List Bytes) : Except SourceErr (List Float32) :=
  if s.numbered ≠ [] then
    s.numbered.zipIdx.mapM fun (col, i) =>
      match rec[col]? with
      | none => .error (.missingColumn s.rowIdx col)
      | some text =>
        match rt.parseFloat32 (trimSpace text) with
        | some f => .ok f
        | none => .error (.vector s.rowIdx (.element i))
  else
    match rec[s.vecCol]? with
    | none => .error (.missingVectorColumn s.rowIdx)
    | some text => (parseVectorString rt text).mapError (.vector s.rowIdx)

def next (s : CsvSource ρ) : Outcome × CsvSource ρ :=
  match csv.read s.r with
  | (.error none, r) => (.stop, { s with r })
  | (.error (some message), r) => (.fail (.csv message), { s with r })
  | (.ok rec, r) =>
    let s' := { s with r, rowIdx := s.rowIdx + 1 }
    match s.vector rt rec with
    | .error e => (.fail e, s')
    | .ok vector =>
      (.row { vector, fields := (s.header.zip rec).map fun (name, v) => (name, .text v),
              autoIndex := s.rowIdx }, s')

end CsvSource

/-- A token of the JSON decoder: the start of an array, or another one. -/
inductive JsonToken
  | openArray
  | other
  deriving DecidableEq

/-- The streaming JSON decoder. It decodes into a map from names to values. -/
structure JsonDecoder (δ : Type) where
  token : δ → Except DecodeErr JsonToken × δ
  more : δ → Bool
  decode : δ → Except DecodeErr (List (Bytes × Json)) × δ
  remaining : δ → ℕ

namespace JsonDecoder

variable {δ : Type}

/-- The decoder has read the value it was called for: it decoded, or is of another type. -/
def Consumed : Except DecodeErr (List (Bytes × Json)) → Prop
  | .ok _ => True
  | .error (.unmarshal _) => True
  | .error _ => False

/-- What is read is consumed, and an error other than a wrong type is returned again. -/
structure Documented (d : JsonDecoder δ) : Prop where
  token_consumes : ∀ s s' t, d.token s = (.ok t, s') → d.remaining s' < d.remaining s
  decode_consumes : ∀ s s' out, d.decode s = (out, s') → Consumed out →
    d.remaining s' < d.remaining s
  token_repeats : ∀ s s' e, d.token s = (.error e, s') → d.token s' = (.error e, s')
  decode_repeats : ∀ s s' out, d.decode s = (out, s') → ¬ Consumed out → d.decode s' = (out, s')

end JsonDecoder

structure JsonSource (δ : Type) where
  dec : δ
  vecField : Bytes
  array : Bool
  started : Bool := false
  rowIdx : UInt64 := 0

namespace JsonSource

variable {δ : Type} (rt : Runtime) (d : JsonDecoder δ)

/-- The field that holds the vector: by its name, or the first array. -/
def discover (obj : List (Bytes × Json)) : Option Bytes :=
  match [ascii "embedding", ascii "vector"].find? fun name => (obj.lookup name).isSome with
  | some name => some name
  | none =>
    ((rt.mapOrder obj).find? fun (_, v) =>
      match v with
      | .arr _ => true
      | _ => false).map Prod.fst

def rowOf (s : JsonSource δ) (obj : List (Bytes × Json)) : Outcome × JsonSource δ :=
  let s' := { s with rowIdx := s.rowIdx + 1 }
  match if s.vecField = [] then discover rt obj else some s.vecField with
  | none => (.fail (.noVectorField s.rowIdx), s')
  | some vecField =>
    let s' := { s' with vecField }
    match obj.lookup vecField with
    | none => (.fail (.vectorFieldMissing s.rowIdx vecField), s')
    | some rawVec =>
      match jsonVector rt rawVec with
      | .error e => (.fail (.vector s.rowIdx e), s')
      | .ok vector =>
        (.row { vector, fields := obj.map fun (name, v) => (name, normalizeJSON rt v),
                autoIndex := s.rowIdx }, s')

def nextElement (s : JsonSource δ) : Outcome × JsonSource δ :=
  if s.array && !d.more s.dec then (.stop, s)
  else
    match d.decode s.dec with
    | (.error .eof, dec) => (.stop, { s with dec })
    | (.error e, dec) => (.fail (.decodeRow s.rowIdx e), { s with dec })
    | (.ok obj, dec) => rowOf rt { s with dec } obj

def next (s : JsonSource δ) : Outcome × JsonSource δ :=
  if s.array && !s.started then
    match d.token s.dec with
    | (.error e, dec) => (.fail (.token e), { s with dec })
    | (.ok .other, dec) => (.fail .expectedArray, { s with dec })
    | (.ok .openArray, dec) => nextElement rt d { s with dec, started := true }
  else nextElement rt d s

end JsonSource

/-- The sources of imports. The dimension of an array was compared with that of the collection. -/
inductive RowSource (ρ δ : Type)
  | csv (s : CsvSource ρ)
  | json (s : JsonSource δ)
  | fbin (s : FbinSource)
  | xvecs (s : XvecsSource)
  | npy (s : NpySource) (h : s.Sized)

def RowSource.next {ρ δ : Type} (rt : Runtime) (csv : CsvReader ρ) (d : JsonDecoder δ) :
    RowSource ρ δ → Outcome × RowSource ρ δ
  | .csv s => (s.next rt csv).map id .csv
  | .json s => (s.next rt d).map id .json
  | .fbin s => (s.next rt).map id .fbin
  | .xvecs s => (s.next rt).map id .xvecs
  | .npy s h => (s.read.1, .npy s.read.2 h.read)

end VecDb.Bulk

import VecDb.Base.Fallible
import VecDb.Catalog.Value
import VecDb.Storage.Collection

/-! # Schemas

A schema lists the columns of a collection. Before it is registered, defaults are filled in and
the structural rules are checked; its metadata columns are numbered for the engine.
-/

namespace VecDb.Catalog

open Fallible Storage

/-- The named conditions of the data model, with what their messages report. -/
inductive Err
  | duplicateKey
  | dimMismatch (column : Bytes) (dim : UInt32) (got : ℕ)
  | nanInVector (column : Bytes) (element : ℕ)
  | infInVector (column : Bytes) (element : ℕ)
  | nullViolation (column : Bytes)
  | typeMismatch (column : Bytes) (declared got : Kind)
  | valueOutOfRange (column : Bytes) (element : ℕ)
  | metricUnsupported (column : Bytes)
  | valueTooLarge (column : Bytes)
  | collectionNotFound
  | collectionExists
  | idTypeMismatch
  | reservedName
  | invalidSchema (column reason : Bytes)
  | sequenceOverflow
  | idRequired
  deriving DecidableEq

inductive ColumnKind
  | vector | metadata | unknown
  deriving DecidableEq

inductive IDKind
  | bigInt | text | blob
  deriving DecidableEq

inductive SchemaMode
  | fixed | optional
  deriving DecidableEq

inductive ElementType
  | fp32 | fp16 | int8 | binary
  deriving DecidableEq

inductive Metric
  | cosine | l2 | innerProduct | hamming | jaccard | dotSparse
  deriving DecidableEq

def defaultMetric : ElementType → Metric
  | .fp32 | .fp16 => .cosine
  | .int8 => .l2
  | .binary => .hamming

def metricSupported : Metric → ElementType → Bool
  | .cosine, e | .l2, e | .innerProduct, e => e = .fp32 || e = .fp16 || e = .int8
  | .hamming, e | .jaccard, e => e = .binary
  | .dotSparse, _ => false

/-- A column; an element type or metric that is not set is `none`. -/
structure ColumnDef where
  name : Bytes
  kind : ColumnKind
  ordinal : ℕ := 0
  dim : UInt32 := 0
  elemType : Option ElementType := none
  vecMetric : Option Metric := none
  dataType : Kind := .null
  arrayElem : Kind := .null
  nullable : Bool := false
  default : Option Value := none
  defaultNow : Bool := false

structure Schema where
  name : Bytes
  idName : Bytes := []
  idKind : IDKind := .bigInt
  autoIncrement : Bool := false
  mode : Option SchemaMode := none
  columns : List ColumnDef := []

namespace Schema

def vectorColumns (s : Schema) : List ColumnDef := s.columns.filter (·.kind = .vector)

def metadataColumns (s : Schema) : List ColumnDef := s.columns.filter (·.kind = .metadata)

def column (s : Schema) (name : Bytes) : Option ColumnDef := s.columns.find? (·.name = name)

end Schema

def maxCollectionNameBytes : ℕ := 255

def maxDim : UInt32 := 65535

def maxMetadataColumns : ℕ := 1024

def validateName (name : Bytes) : Except Err Unit :=
  if name = [] then .error (.invalidSchema [] (ascii "collection name is empty"))
  else if maxCollectionNameBytes < name.length then
    .error (.invalidSchema [] (ascii "collection name exceeds 255 bytes"))
  else if ascii "vec_" <+: name then .error .reservedName
  else .ok ()

/-- Fill in and check what depends on the kind of a column. -/
def normalizeKind (c : ColumnDef) : Except Err ColumnDef :=
  match c.kind with
  | .vector =>
    if c.dim = 0 ∨ maxDim < c.dim then
      .error (.invalidSchema c.name (ascii "vector column dimension out of range 1..65535"))
    else
      let elem := c.elemType.getD .fp32
      let metric := c.vecMetric.getD (defaultMetric elem)
      if metricSupported metric elem then
        .ok { c with elemType := some elem, vecMetric := some metric }
      else .error (.metricUnsupported c.name)
  | .metadata =>
    if c.dataType = .null then .error (.invalidSchema c.name (ascii "metadata column has no type"))
    else if c.dataType = .array ∧ c.arrayElem = .null then
      .error (.invalidSchema c.name (ascii "array column has no element type"))
    else .ok c
  | .unknown => .error (.invalidSchema c.name (ascii "column has unknown kind"))

/-- Normalize the columns from the given ordinal on; the names before are given. -/
def normalizeColumns (idName : Bytes) : ℕ → List Bytes → List ColumnDef →
    Except Err (List ColumnDef)
  | _, _, [] => .ok []
  | i, seen, c :: cols =>
    if c.name = [] then .error (.invalidSchema [] (ascii "column has no name"))
    else if c.name = idName ∨ c.name = ascii "id" ∨ c.name = ascii "point_id" then
      .error (.invalidSchema c.name (ascii "column name collides with the primary key"))
    else if c.name ∈ seen then .error (.invalidSchema c.name (ascii "duplicate column name"))
    else do
      let c' ← normalizeKind { c with ordinal := i }
      let cols' ← normalizeColumns idName (i + 1) (c.name :: seen) cols
      .ok (c' :: cols')

def checkCounts (s : Schema) : Except Err Schema :=
  if s.vectorColumns = [] then .error (.invalidSchema [] (ascii "schema has no vector column"))
  else if maxMetadataColumns < s.metadataColumns.length then
    .error (.invalidSchema [] (ascii "metadata columns exceed limit 1024"))
  else .ok s

def Schema.normalize (s : Schema) : Except Err Schema :=
  let idName := if s.idName = [] then ascii "id" else s.idName
  do
    validateName s.name
    if s.autoIncrement ∧ s.idKind ≠ .bigInt then
      .error (.invalidSchema [] (ascii "AUTOINCREMENT requires a BIGINT primary key"))
    else do
      let columns ← normalizeColumns idName 0 [] s.columns
      checkCounts { s with idName, mode := some (s.mode.getD .fixed), columns }

section Normalized

variable {idName : Bytes} {i : ℕ} {seen : List Bytes} {cols cols' : List ColumnDef}
  {s s' : Schema} {c c' : ColumnDef}

theorem normalizeKind_dim (h : normalizeKind c = .ok c') (hv : c'.kind = .vector) : c'.dim ≠ 0 := by
  rw [normalizeKind] at h
  split at h
  · split at h
    · cases h
    case isFalse hdim =>
      dsimp only at h
      split at h <;> cases h
      exact fun h0 => hdim (.inl h0)
  case h_2 hk =>
    split at h
    · cases h
    · split at h <;> cases h
      rw [hk] at hv
      cases hv
  · cases h

theorem normalizeColumns_dim (h : normalizeColumns idName i seen cols = .ok cols') :
    ∀ c ∈ cols', c.kind = .vector → c.dim ≠ 0 := by
  induction cols generalizing i seen cols' with
  | nil => cases h; simp
  | cons c cols ih =>
    rw [normalizeColumns] at h
    split at h
    · cases h
    split at h
    · cases h
    split at h
    · cases h
    obtain ⟨d, hd, h⟩ := bind_eq_ok.mp h
    obtain ⟨ds, hds, h⟩ := bind_eq_ok.mp h
    cases h
    intro x hx hv
    rcases List.mem_cons.mp hx with rfl | hx
    · exact normalizeKind_dim hd hv
    · exact ih hds x hx hv

theorem checkCounts_eq_ok (h : checkCounts s = .ok s') :
    s' = s ∧ s.vectorColumns ≠ [] ∧ s.metadataColumns.length ≤ maxMetadataColumns := by
  rw [checkCounts] at h
  split at h
  · cases h
  case isFalse hvec =>
    split at h
    · cases h
    case isFalse hfew =>
      cases h
      exact ⟨rfl, hvec, Nat.not_lt.mp hfew⟩

theorem Schema.normalize_eq_ok (h : s.normalize = .ok s') :
    s'.name = s.name ∧ (∀ c ∈ s'.columns, c.kind = .vector → c.dim ≠ 0) ∧
      s'.vectorColumns ≠ [] := by
  rw [Schema.normalize] at h
  obtain ⟨u, -, h⟩ := bind_eq_ok.mp h
  split at h
  · cases h
  obtain ⟨columns, hcols, h⟩ := bind_eq_ok.mp h
  obtain ⟨rfl, hvec, -⟩ := checkCounts_eq_ok h
  exact ⟨rfl, normalizeColumns_dim hcols, hvec⟩

end Normalized

section Lower

def lowerElem : ElementType → ElemType
  | .fp32 => .fp32
  | .fp16 => .fp16
  | .int8 => .int8
  | .binary => .binary

def lowerColType : Kind → ColType
  | .bigInt | .int => .int64
  | .double | .real => .float64
  | .bool => .bool
  | .timestamp => .timestamp
  | .text | .json => .text
  | .blob | .array => .bytes
  | .null => .text

/-- How the element types other than single precision are stored. -/
structure Codecs where
  fp16 : ℕ → VecCodec
  int8 : ℕ → VecCodec
  binary : ℕ → VecCodec

def Codecs.of (codecs : Codecs) : ElementType → ℕ → VecCodec
  | .fp32 => fp32Codec
  | .fp16 => codecs.fp16
  | .int8 => codecs.int8
  | .binary => codecs.binary

/-- The first vector column; a normalized schema has one. -/
def Schema.primary (s : Schema) : ColumnDef :=
  s.vectorColumns.headD { name := [], kind := .vector }

def Schema.colIDs (s : Schema) : List (Bytes × ColID) :=
  s.metadataColumns.zipIdx.map fun (c, i) => (c.name, UInt32.ofNat i)

def Schema.lower (codecs : Codecs) (s : Schema) (collID : UInt64) (segCapacity : UInt32) :
    CollectionDef where
  id := collID
  dims := s.primary.dim
  elem := lowerElem (s.primary.elemType.getD .fp32)
  codec := codecs.of (s.primary.elemType.getD .fp32) s.primary.dim.toNat
  columns := s.metadataColumns.zipIdx.map fun (c, i) =>
    { id := UInt32.ofNat i, type := lowerColType c.dataType }
  segmentCapacity := segCapacity

theorem Schema.primary_dim_ne_zero {s s' : Schema} (h : s.normalize = .ok s') :
    s'.primary.dim ≠ 0 := by
  obtain ⟨-, hdim, hne⟩ := Schema.normalize_eq_ok h
  obtain ⟨c, cs, hcons⟩ := List.exists_cons_of_ne_nil hne
  have hmem : c ∈ s'.vectorColumns := by rw [hcons]; exact List.mem_cons_self
  obtain ⟨hc, hk⟩ := List.mem_filter.mp hmem
  rw [Schema.primary, hcons, List.headD_cons]
  exact hdim c hc (of_decide_eq_true hk)

end Lower

section Check

def maxValueBytes : ℕ := 2 ^ 31 - 1

def validateElement (col : ColumnDef) (i : ℕ) (x : Float32) : Except Err Unit :=
  if x.isNaN then .error (.nanInVector col.name i)
  else if x.isInf then .error (.infInVector col.name i)
  else
    match col.elemType with
    | some .int8 =>
      -- -128 and 127
      if x.lt ⟨0xc3000000⟩ || Float32.lt ⟨0x42fe0000⟩ x then .error (.valueOutOfRange col.name i)
      else .ok ()
    | some .binary =>
      -- 0 and 1
      if !x.eq ⟨0⟩ && !x.eq ⟨0x3f800000⟩ then .error (.valueOutOfRange col.name i)
      else .ok ()
    | _ => .ok ()

def validateVector (col : ColumnDef) (vec : Vec) : Except Err Unit :=
  if UInt32.ofNat vec.length ≠ col.dim then .error (.dimMismatch col.name col.dim vec.length)
  else vec.zipIdx.forM fun (x, i) => validateElement col i ⟨x⟩

def kindAssignable (declared got : Kind) : Bool :=
  declared = got ||
    match declared with
    | .bigInt | .int => got = .bigInt || got = .int
    | .double | .real => got = .double || got = .real || got = .bigInt || got = .int
    | _ => false

/-- The checks that depend on the size of a value and on the elements of an array. -/
def validateContent (col : ColumnDef) (optional : Bool) : Value → Except Err Unit
  | .text s | .blob s | .json s =>
    if maxValueBytes < s.length then .error (.valueTooLarge col.name) else .ok ()
  | .array elem items =>
    if !optional && col.dataType = .array then
      if elem ≠ col.arrayElem then .error (.typeMismatch col.name col.arrayElem elem)
      else if items.any Value.isNull then .error (.nullViolation col.name)
      else .ok ()
    else .ok ()
  | _ => .ok ()

def validateMeta (col : ColumnDef) (v : Value) (optional : Bool) : Except Err Unit :=
  if v.isNull then
    if col.nullable then .ok () else .error (.nullViolation col.name)
  else if !optional && !kindAssignable col.dataType v.kind then
    .error (.typeMismatch col.name col.dataType v.kind)
  else validateContent col optional v

/-- The value of a column that the caller may have omitted; `none` leaves it out. -/
def suppliedOrDefault (supplied : List (Bytes × Value)) (now : Value) (optional : Bool)
    (col : ColumnDef) : Option Value :=
  match supplied.lookup col.name with
  | some v => some v
  | none =>
    if col.defaultNow then some now
    else
      match col.default with
      | some v => some v
      | none => if optional then none else some .null

/-- The values of the metadata columns, checked one after the other. -/
def resolveColumns (supplied : List (Bytes × Value)) (now : Value) (optional : Bool) :
    List ColumnDef → Except Err (List (Bytes × Value))
  | [] => .ok []
  | col :: cols =>
    match suppliedOrDefault supplied now optional col with
    | none => resolveColumns supplied now optional cols
    | some v => do
      validateMeta col v optional
      let row ← resolveColumns supplied now optional cols
      .ok ((col.name, v) :: row)

def Schema.resolveMeta (s : Schema) (supplied : List (Bytes × Value)) (now : Value) :
    Except Err (List (Bytes × Value)) := do
  let optional := decide (s.mode = some .optional)
  let row ← resolveColumns supplied now optional s.metadataColumns
  let extra := supplied.filter fun e => optional && (s.column e.1).isNone
  .ok (row ++ extra)

end Check

end VecDb.Catalog

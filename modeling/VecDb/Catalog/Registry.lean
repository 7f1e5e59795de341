import VecDb.Catalog.Identity

/-! # The registry of collections

The catalog binds names to collections and numbers the collections it registers. A
handle is the number of a collection: it stays valid when the name is dropped.
-/

namespace VecDb.Catalog

structure Collection where
  schema : Schema
  id : UInt64
  identity : Identity
  storageDef : Storage.CollectionDef
  colIDs : List (Bytes × Storage.ColID)

namespace Collection

def colID (c : Collection) (name : Bytes) : Option Storage.ColID := c.colIDs.lookup name

/-- The engine's row of the metadata supplied for a point. -/
def lowerMeta (c : Collection) (supplied : List (Bytes × Value)) (now : Value) :
    Except Err (List (Storage.ColID × Storage.Value)) := do
  let resolved ← c.schema.resolveMeta supplied now
  .ok (resolved.filterMap fun (name, v) => (c.colID name).map fun id => (id, v.lower))

def validateVector (c : Collection) (column : Bytes) (vec : Storage.Vec) : Except Err Unit :=
  match c.schema.column column with
  | none => .error .collectionNotFound
  | some col =>
    if col.kind ≠ .vector then .error .collectionNotFound else Catalog.validateVector col vec

def prepareID (c : Collection) (supplied : Option Id) : Except Err (Collection × Id) := do
  let (identity, p) ← c.identity.prepareID c.schema.idKind supplied
  .ok ({ c with identity }, p)

def noteDeleted (c : Collection) (p : Id) : Collection :=
  { c with identity := c.identity.markDeleted p }

variable {supplied : Option Id}

theorem prepareID_eq_ok {c c' : Collection} {p : Id} : c.prepareID supplied = .ok (c', p) ↔
      ∃ i, c.identity.prepareID c.schema.idKind supplied = .ok (i, p) ∧
        c' = { c with identity := i } := by
  rw [prepareID, Fallible.bind_eq_ok]
  constructor
  · rintro ⟨⟨i, q⟩, hi, h⟩
    cases h
    exact ⟨i, hi, rfl⟩
  · rintro ⟨i, hi, rfl⟩
    exact ⟨(i, p), hi, rfl⟩

theorem prepareID_ok_iff {c : Collection} : (∃ r, c.prepareID supplied = .ok r) ↔
      ∃ r, c.identity.prepareID c.schema.idKind supplied = .ok r := by
  constructor
  · rintro ⟨⟨c', p⟩, h⟩
    obtain ⟨i, hi, -⟩ := prepareID_eq_ok.mp h
    exact ⟨_, hi⟩
  · rintro ⟨⟨i, p⟩, h⟩
    exact ⟨_, prepareID_eq_ok.mpr ⟨i, h, rfl⟩⟩

end Collection

def defaultSegmentCapacity : UInt32 := 0

structure Registry where
  byName : Bytes → Option UInt64 := fun _ => none
  collections : UInt64 → Option Collection := fun _ => none
  nextCID : UInt64 := 1

namespace Registry

def newHandle (codecs : Codecs) (s : Schema) (cid : UInt64) : Collection where
  schema := s
  id := cid
  identity := { auto := s.autoIncrement }
  storageDef := s.lower codecs cid defaultSegmentCapacity
  colIDs := s.colIDs

def register (r : Registry) (codecs : Codecs) (s : Schema) : Registry where
  byName := Function.update r.byName s.name (some r.nextCID)
  collections := Function.update r.collections r.nextCID (some (newHandle codecs s r.nextCID))
  nextCID := r.nextCID + 1

def createCollection (r : Registry) (codecs : Codecs) (s : Schema) (ifNotExists : Bool) :
    Except Err (Registry × UInt64 × Bool) :=
  match s.normalize with
  | .error e => .error e
  | .ok s =>
    match r.byName s.name with
    | some cid => if ifNotExists then .ok (r, cid, false) else .error .collectionExists
    | none => .ok (r.register codecs s, r.nextCID, true)

def dropCollection (r : Registry) (name : Bytes) (ifExists : Bool) :
    Except Err (Registry × Option UInt64) :=
  match r.byName name with
  | none => if ifExists then .ok (r, none) else .error .collectionNotFound
  | some cid => .ok ({ r with byName := Function.update r.byName name none }, some cid)

end Registry

end VecDb.Catalog

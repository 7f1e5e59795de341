import VecDb.Storage.Collection

/-! # Writes

The calls of a write transaction on one collection. They change the collection at
once, and register what a commit has to stamp and what an abort has to undo. A call
that fails keeps what it has done and registered up to the failure.
-/

namespace VecDb.Storage

inductive Undo
  | append (di slotPos : ℕ) (id : PointID)
  | delete (di slotPos : ℕ) (id : PointID) (segSeq : ℕ)
  | replace (di slotPos : ℕ)
  | cell (col : ColID) (segSeq slotPos : ℕ) (prev : Value)
  deriving DecidableEq

/-- A collection under a write transaction, with what the transaction registered. -/
structure Draft where
  coll : Collection
  stamp : List (ℕ × ℕ) := []
  /-- The undo log, the newest entry first. -/
  undo : List Undo := []

/-- Fill the next slot of a segment and write its row; take the slot back if that fails. -/
def Collection.appendSlot (c : Collection) (order : RangeOrder) (di : ℕ) (id : PointID) (vec : Vec)
    (row : MetaRow) : Collection × Except Err Unit :=
  let seg := c.seg di
  let c := c.modifySeg di fun s => s.append c.codec id vec 0
  match c.metadata.writeRow order seg.seqNum seg.nextPos row with
  | (metadata, .error e) => ({ c with metadata }.modifySeg di Segment.rollBack, .error e)
  | (metadata, .ok ()) => ({ c with metadata }, .ok ())

namespace Draft

def appendPoint (d : Draft) (order : RangeOrder) (id : PointID) (vec : Vec) (row : MetaRow) :
    Draft × Except Err UInt32 :=
  if UInt32.ofNat vec.length ≠ d.coll.dims then (d, .error .dimensionMismatch)
  else
    match d.coll.idmap.forwardLookup id with
    | .ok _ => (d, .error .duplicateID)
    | .error _ =>
      let c := d.coll.ensureOpen
      let di := c.openIdx.getD 0
      let loc : IdLoc := ⟨(c.seg di).seqNum, (c.seg di).nextPos⟩
      match c.appendSlot order di id vec row with
      | (c, .error e) => ({ d with coll := c }, .error e)
      | (c, .ok ()) =>
        match c.idmap.insert id loc with
        | .error e => ({ d with coll := c.modifySeg di Segment.rollBack }, .error e)
        | .ok idmap =>
          ({ coll := { c with idmap }
             stamp := d.stamp ++ [(di, loc.slotPos)]
             undo := .append di loc.slotPos id :: d.undo },
            .ok (c.colPos di loc.slotPos))

def delete (d : Draft) (id : PointID) : Draft × Except Err Unit :=
  match d.coll.idmap.forwardLookup id with
  | .error _ => (d, .error .notFound)
  | .ok loc =>
    match d.coll.dirOf loc.segSeq with
    | none => (d, .error .notFound)
    | some di =>
      let c := d.coll.modifySeg di fun s => s.tombstone loc.slotPos
      match c.idmap.tombstone id with
      | .error e => ({ d with coll := c }, .error e)
      | .ok idmap =>
        ({ d with
            coll := { c with idmap }
            undo := .delete di loc.slotPos id loc.segSeq :: d.undo },
          .ok ())

def retire (d : Draft) (id : PointID) (loc : IdLoc) : Draft :=
  let di := (d.coll.dirOf loc.segSeq).getD 0
  let c := d.coll.modifySeg di fun s => s.tombstone loc.slotPos
  { d with
    coll := { c with
      idmap := match c.idmap.tombstone id with
        | .ok idmap => idmap
        | .error _ => c.idmap }
    undo := .replace di loc.slotPos :: d.undo }

def upsert (d : Draft) (order : RangeOrder) (id : PointID) (vec : Vec) (row : MetaRow) :
    Draft × Except Err (UInt32 × Bool) :=
  match d.coll.idmap.forwardLookup id with
  | .ok loc =>
    let (d, r) := (d.retire id loc).appendPoint order id vec row
    (d, r.map fun pos => (pos, false))
  | .error _ =>
    let (d, r) := d.appendPoint order id vec row
    (d, r.map fun pos => (pos, true))

def updateCells (d : Draft) (segSeq slotPos : ℕ) : List (ColID × Value) → Draft × Except Err Unit
  | [] => (d, .ok ())
  | (col, v) :: entries =>
    if !d.coll.metadata.has col then (d, .error .unknownColumn)
    else
      let prev := d.coll.metadata.cell segSeq slotPos col
      match d.coll.metadata.writeAt col segSeq slotPos v with
      | .error e => (d, .error e)
      | .ok metadata =>
        updateCells
          { d with
            coll := { d.coll with metadata }
            undo := .cell col segSeq slotPos prev :: d.undo } segSeq slotPos entries

def updateMeta (d : Draft) (id : PointID) (row : MetaRow) : Draft × Except Err Unit :=
  match d.coll.idmap.forwardLookup id with
  | .error _ => (d, .error .notFound)
  | .ok loc => d.updateCells loc.segSeq loc.slotPos row.entries

end Draft

inductive Write
  | insert (order : RangeOrder) (id : PointID) (vec : Vec) (row : MetaRow)
  | delete (id : PointID)
  | upsert (order : RangeOrder) (id : PointID) (vec : Vec) (row : MetaRow)
  | updateMeta (id : PointID) (row : MetaRow)

def failure {α : Type} : Except Err α → Option Err
  | .ok _ => none
  | .error e => some e

def Write.run (d : Draft) : Write → Draft × Option Err
  | .insert order id vec row => ((d.appendPoint order id vec row).1,
      failure (d.appendPoint order id vec row).2)
  | .delete id => ((d.delete id).1, failure (d.delete id).2)
  | .upsert order id vec row => ((d.upsert order id vec row).1,
      failure (d.upsert order id vec row).2)
  | .updateMeta id row => ((d.updateMeta id row).1, failure (d.updateMeta id row).2)

namespace Collection

def undo (c : Collection) : Undo → Collection
  | .append di slotPos id =>
    { c.modifySeg di fun s => s.unappend slotPos with idmap := c.idmap.forget id }
  | .delete di slotPos id segSeq =>
    { c.modifySeg di fun s => s.revive slotPos with idmap := c.idmap.reassign id ⟨segSeq, slotPos⟩ }
  | .replace di slotPos => c.modifySeg di fun s => s.revive slotPos
  | .cell col segSeq slotPos prev =>
    match c.metadata.writeAt col segSeq slotPos prev with
    | .ok metadata => { c with metadata }
    | .error _ => c

def undoAll (c : Collection) (log : List Undo) : Collection := log.foldl undo c

def stampSlot (c : Collection) (seq : ℕ) (slot : ℕ × ℕ) : Collection :=
  c.modifySeg slot.1 fun s => s.stamp slot.2 seq

def stampAll (c : Collection) (seq : ℕ) (slots : List (ℕ × ℕ)) : Collection :=
  slots.foldl (fun c slot => c.stampSlot seq slot) c

def sealOpen (c : Collection) : Collection :=
  match c.openIdx with
  | some di => { c.modifySeg di fun s => { s with sealed := true } with openIdx := none }
  | none => c

end Collection

end VecDb.Storage

import Mathlib.Data.Set.Card
import VecDb.Storage.Metadata

/-! # Collections

A collection is a directory of segments, the cells of its metadata columns and the map from points
to slots. Positions number the slots of the directory, capacity by capacity.
-/

namespace VecDb.Storage

open Mvcc Function

structure IdLoc where
  segSeq : ℕ
  slotPos : ℕ
  deriving DecidableEq

structure IdMapStats where
  liveEntries : ℕ
  tombstonedEntries : ℕ

structure IdMap where
  fwd : PointID → Option IdLoc := fun _ => none
  dead : PointID → Bool := fun _ => false

namespace IdMap

def forwardLookup (m : IdMap) (id : PointID) : Except Err IdLoc :=
  match m.fwd id with
  | none => .error .notFound
  | some loc => .ok loc

def insert (m : IdMap) (id : PointID) (loc : IdLoc) : Except Err IdMap :=
  match m.fwd id with
  | some _ => .error .duplicateID
  | none => .ok
      { fwd := update m.fwd id (some loc), dead := update m.dead id false }

def tombstone (m : IdMap) (id : PointID) : Except Err IdMap :=
  match m.fwd id with
  | none => .error .notFound
  | some _ => .ok
      { fwd := update m.fwd id none, dead := update m.dead id true }

def reassign (m : IdMap) (id : PointID) (loc : IdLoc) : IdMap :=
  { fwd := update m.fwd id (some loc), dead := update m.dead id false }

/-- What aborting an insert does to the map; a failing `tombstone` is ignored. -/
def forget (m : IdMap) (id : PointID) : IdMap :=
  let m := match m.tombstone id with
    | .ok m => m
    | .error _ => m
  { m with dead := update m.dead id false }

/-- The sizes of the source's two maps, which are functions here. -/
noncomputable def stats (m : IdMap) : IdMapStats :=
  ⟨Set.ncard {id | m.fwd id ≠ none}, Set.ncard {id | m.dead id = true}⟩

end IdMap

structure Collection where
  dims : UInt32
  capacity : UInt32
  capacity_pos : 0 < capacity
  codec : VecCodec
  segs : List Segment := []
  dirOf : ℕ → Option ℕ := fun _ => none
  openIdx : Option ℕ := none
  nextSeq : ℕ := 0
  idmap : IdMap := {}
  metadata : MetadataStore

inductive ElemType
  | fp32 | fp16 | int8 | binary
  deriving DecidableEq

namespace ElemType

def elemAlign : ElemType → ℕ
  | fp32 => 32
  | fp16 | int8 => 16
  | binary => 8

def rawBytes (e : ElemType) (dims : ℕ) : ℕ :=
  match e with
  | fp32 => dims * 4
  | fp16 => dims * 2
  | int8 => dims
  | binary => (dims + 7) / 8

end ElemType

def computeStride (elem : ElemType) (dims : UInt32) : UInt32 :=
  let align := elem.elemAlign
  UInt32.ofNat ((elem.rawBytes dims.toNat + align - 1) / align * align)

structure CollectionDef where
  id : UInt64
  dims : UInt32
  elem : ElemType := .fp32
  codec : VecCodec
  columns : List ColumnDef := []
  segmentCapacity : UInt32 := 0

/-- The number of slots of a segment: as given, or as many as fit in 256 MB. -/
def segCapacity (d : CollectionDef) : UInt32 :=
  if 0 < d.segmentCapacity then d.segmentCapacity
  else
    let cap := UInt32.ofNat (256 * 2 ^ 20 / (computeStride d.elem d.dims).toNat)
    if cap = 0 then 1 else cap

theorem segCapacity_pos (d : CollectionDef) : 0 < segCapacity d := by
  unfold segCapacity
  split
  · assumption
  · dsimp only
    split
    · decide
    · exact UInt32.pos_iff_ne_zero.mpr ‹_›

def newCollection (d : CollectionDef) : Collection :=
  { dims := d.dims, capacity := segCapacity d, capacity_pos := segCapacity_pos d, codec := d.codec
    metadata := newMetadataStore d.columns }

structure PointRecord where
  pos : UInt32
  id : PointID
  vec : Vec
  metadata : List (ColID × Value)
  deriving DecidableEq

structure PositionBitmap where
  n : UInt32
  marked : List UInt32 := []
  deriving DecidableEq

namespace PositionBitmap

def set (b : PositionBitmap) (p : UInt32) : PositionBitmap :=
  if b.n ≤ p then b else { b with marked := p :: b.marked }

def contains (b : PositionBitmap) (p : UInt32) : Bool :=
  if b.n ≤ p then false else decide (p ∈ b.marked)

end PositionBitmap

namespace Collection

def seg (c : Collection) (di : ℕ) : Segment := c.segs.getD di (newSegment 0 0)

def modifySeg (c : Collection) (di : ℕ) (f : Segment → Segment) : Collection :=
  { c with segs := c.segs.modify di f }

def colPos (c : Collection) (di slotPos : ℕ) : UInt32 :=
  UInt32.ofNat di * c.capacity + UInt32.ofNat slotPos

def locate (c : Collection) (p : UInt32) : Option (ℕ × ℕ) :=
  let di := p.toNat / c.capacity.toNat
  if c.segs.length ≤ di then none else some (di, p.toNat % c.capacity.toNat)

def openSegment (c : Collection) : Collection :=
  { c with
    segs := c.segs ++ [newSegment c.nextSeq c.capacity.toNat]
    dirOf := update c.dirOf c.nextSeq (some c.segs.length)
    openIdx := some c.segs.length
    nextSeq := c.nextSeq + 1 }

def ensureOpen (c : Collection) : Collection :=
  match c.openIdx with
  | some di =>
    if (c.seg di).full then (c.modifySeg di fun s => { s with sealed := true }).openSegment else c
  | none => c.openSegment

def liveTotal (c : Collection) : ℕ × ℕ :=
  ((c.segs.map Segment.liveCount).sum, (c.segs.map Segment.deadCount).sum)

def lookupID (c : Collection) (id : PointID) : Except Err UInt32 :=
  match c.idmap.forwardLookup id with
  | .error _ => .error .notFound
  | .ok loc =>
    match c.dirOf loc.segSeq with
    | none => .error .notFound
    | some di => .ok (c.colPos di loc.slotPos)

def lookupPos (c : Collection) (p : UInt32) : Except Err PointID :=
  match c.locate p with
  | none => .error .positionOutOfRange
  | some (di, slotPos) =>
    let seg := c.seg di
    if seg.nextPos ≤ slotPos then .error .positionOutOfRange
    else if seg.isTombstoned slotPos then .error .deleted
    else seg.backwardMapLookup slotPos

/-- The non-null cells of a slot in the columns asked for, or in all of them. -/
def projectMeta (c : Collection) (segSeq slotPos : ℕ) (proj : Option (List ColID)) :
    List (ColID × Value) :=
  (proj.getD (c.metadata.columns.map ColumnDef.id)).filterMap fun col =>
    match c.metadata.readAt col segSeq slotPos with
    | .ok v => if v.isNull then none else some (col, v)
    | .error _ => none

def fetch (c : Collection) (p : UInt32) (proj : Option (List ColID)) (snap : Option Snapshot) :
    Except Err PointRecord :=
  match c.locate p with
  | none => .error .positionOutOfRange
  | some (di, slotPos) =>
    let seg := c.seg di
    if seg.nextPos ≤ slotPos then .error .positionOutOfRange
    else if seg.isTombstoned slotPos then .error .deleted
    else if !visibleIn snap (seg.version slotPos) then .error .notVisible
    else
      .ok
        { pos := p
          id := seg.backward slotPos
          vec := c.codec.decode (seg.data slotPos)
          metadata := c.projectMeta seg.seqNum slotPos proj }

/-- The vector that a buffer of the given length is filled with. -/
def fetchVector (c : Collection) (p : UInt32) (bufLen : ℕ) : Except Err Vec :=
  match c.locate p with
  | none => .error .positionOutOfRange
  | some (di, slotPos) =>
    let seg := c.seg di
    if seg.isTombstoned slotPos then .error .deleted
    else if UInt32.ofNat bufLen ≠ c.dims then .error .dimensionMismatch
    else seg.fetchVector c.codec slotPos

/-- The positions and vectors that the callback of a scan is given, in order. -/
def scanVectors (c : Collection) (snap : Option Snapshot) : List (UInt32 × Vec) :=
  c.segs.zipIdx.flatMap fun (seg, di) =>
    (List.range seg.nextPos).filterMap fun slotPos =>
      if seg.visibleLive slotPos snap then
        some (c.colPos di slotPos, c.codec.decode (seg.data slotPos))
      else none

def gridSize (c : Collection) : UInt32 := UInt32.ofNat c.segs.length * c.capacity

def filterBlock (c : Collection) (pred : Predicate) (snap : Option Snapshot) (seg : Segment)
    (di block : ℕ) : List UInt32 :=
  let lo := block * zoneBlockSize
  let hi := min (lo + zoneBlockSize) seg.nextPos
  (List.range' lo (hi - lo)).filterMap fun slotPos =>
    if seg.visibleLive slotPos snap && pred.eval (c.metadata.cell seg.seqNum slotPos) then
      some (c.colPos di slotPos)
    else none

/-- The positions a filter marks in one segment. The number of blocks is computed in 32 bits. -/
def filterSegment (c : Collection) (pred : Predicate) (snap : Option Snapshot) (seg : Segment)
    (di : ℕ) : List UInt32 :=
  let nblocks := (seg.nextPos + zoneBlockSize - 1) % 2 ^ 32 / zoneBlockSize
  (List.range nblocks).flatMap fun block =>
    if blockSkippable (fun col => c.metadata.zone col seg.seqNum) block pred then []
    else c.filterBlock pred snap seg di block

def filterHits (c : Collection) (pred : Predicate) (snap : Option Snapshot) : List UInt32 :=
  c.segs.zipIdx.flatMap fun (seg, di) => c.filterSegment pred snap seg di

def metadataFilter (c : Collection) (pred : Predicate) (snap : Option Snapshot) :
    PositionBitmap :=
  (c.filterHits pred snap).foldl PositionBitmap.set { n := c.gridSize }

end Collection

end VecDb.Storage

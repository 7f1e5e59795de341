import VecDb.Storage.Collection

/-! # Compaction

Compaction copies the live slots of a collection, in order, into fresh segments
without gaps, and repoints the id map to the copies.
-/

namespace VecDb.Storage

structure LiveRef where
  oldPos : UInt32
  segSeq : ℕ
  slotPos : ℕ
  id : PointID
  version : ℕ
  deriving DecidableEq

structure Repoint where
  oldPos : UInt32
  newPos : UInt32
  pointID : PointID
  deriving DecidableEq

structure Packed where
  segs : List Segment := []
  metadata : MetadataStore
  repoint : List Repoint := []
  nextSeq : ℕ

/-- Start a new segment when there is none or the last one is full. -/
def Packed.ensureOpen (p : Packed) (capacity : ℕ) : Packed :=
  match p.segs.getLast? with
  | none => { p with segs := [newSegment p.nextSeq capacity], nextSeq := p.nextSeq + 1 }
  | some cur =>
    if cur.full then
      { p with
        segs := p.segs.modify (p.segs.length - 1) (fun s => { s with sealed := true }) ++
          [newSegment p.nextSeq capacity]
        nextSeq := p.nextSeq + 1 }
    else p

def IdMap.repoint (locOf : UInt32 → IdLoc) (m : IdMap) (r : Repoint) : IdMap :=
  match m.fwd r.pointID with
  | none => m
  | some _ => { m with fwd := Function.update m.fwd r.pointID (some (locOf r.newPos)) }

def IdMap.applyRepoint (m : IdMap) (rp : List Repoint) (locOf : UInt32 → IdLoc) : IdMap :=
  rp.foldl (IdMap.repoint locOf) m

namespace Collection

def liveRefs (c : Collection) : List LiveRef :=
  c.segs.zipIdx.flatMap fun (seg, di) =>
    (List.range seg.nextPos).filterMap fun slotPos =>
      if seg.isTombstoned slotPos then none
      else
        some
          { oldPos := c.colPos di slotPos
            segSeq := seg.seqNum
            slotPos
            id := seg.backward slotPos
            version := seg.version slotPos }

def copyCells (c : Collection) (lr : LiveRef) (segSeq slotPos : ℕ) (m : MetadataStore) :
    MetadataStore :=
  c.metadata.columns.foldl (fun m cd =>
    match m.writeAt cd.id segSeq slotPos (c.metadata.cell lr.segSeq lr.slotPos cd.id) with
    | .ok m => m
    | .error _ => m) m

def copyPoint (c : Collection) (p : Packed) (lr : LiveRef) : Packed :=
  let p := p.ensureOpen c.capacity.toNat
  let dir := p.segs.length - 1
  let cur := p.segs.getD dir (newSegment 0 0)
  let old := c.seg ((c.dirOf lr.segSeq).getD 0)
  let vec := match old.fetchVector c.codec lr.slotPos with
    | .ok vec => vec
    | .error _ => []
  { p with
    segs := p.segs.modify dir fun s => s.append c.codec lr.id vec lr.version
    metadata := c.copyCells lr cur.seqNum cur.nextPos p.metadata
    repoint := p.repoint ++
      [{ oldPos := lr.oldPos, newPos := c.colPos dir cur.nextPos, pointID := lr.id }] }

def enlist (c : Collection) (entry : Segment × ℕ) : Collection :=
  { c with
    dirOf := Function.update c.dirOf entry.1.seqNum (some entry.2)
    openIdx := if entry.1.sealed then c.openIdx else some entry.2 }

def rebuildDir (c : Collection) : Collection :=
  c.segs.zipIdx.foldl enlist { c with dirOf := fun _ => none, openIdx := none }

def packed (c : Collection) : Packed :=
  c.liveRefs.foldl c.copyPoint
    { metadata := newMetadataStore c.metadata.columns, nextSeq := c.nextSeq }

/-- Rewrite the collection; the repoint table is `c.packed.repoint`. -/
def compact (c : Collection) : Collection :=
  let p := c.packed
  let newLoc (newPos : UInt32) : IdLoc :=
    ⟨(p.segs.getD (newPos.toNat / c.capacity.toNat) (newSegment 0 0)).seqNum,
      newPos.toNat % c.capacity.toNat⟩
  { c with
    idmap := c.idmap.applyRepoint p.repoint newLoc
    segs := p.segs
    metadata := p.metadata
    nextSeq := p.nextSeq }.rebuildDir

end Collection

end VecDb.Storage

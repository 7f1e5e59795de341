import VecDb.Base.PageFile
import VecDb.Format.Page
import VecDb.MemFs

/-! # The pager

The buffer pool, its CLOCK replacement, page allocation and the checkpoint. A
frame is named by its slot in the pool. File writes do not fail, unless an eviction
is told which of its write-backs do; such a write leaves the file as it was.
-/

namespace VecDb

open Bytes Vfs Format

structure Pager.Frame where
  pgno : UInt32 := 0
  data : Bytes
  /-- The pin count, which wraps like the 32-bit counter of the source. -/
  pins : UInt32 := 0
  dirty : Bool := false
  ref : Bool := false
  deriving DecidableEq

structure Pager.Options where
  pageSize : ℤ := 0
  cacheFrames : ℤ := 0
  checksum : UInt8 := 0
  flags : UInt8 := 0
  deriving DecidableEq

inductive Pager.Err
  | nullPage | exhausted
  | badPageSize
  | readHeader | header (e : Format.Err)
  | readTrunk
  /-- A leaf of a trunk page lies past the page: the read panics. -/
  | trunkOutOfRange
  /-- The trunk chain comes back to a page it visited: the walk does not end. -/
  | endlessChain
  deriving DecidableEq

structure Pager where
  file : MemData
  header : Header
  /-- Resident pages, by their slot. -/
  index : UInt32 → Option ℕ := fun _ => none
  pool : List Pager.Frame
  hand : ℕ := 0
  dbSize : UInt32
  free : List UInt32 := []

namespace Pager

def defaultCacheFrames : ℕ := 2000

def pageSize (p : Pager) : ℕ := p.header.pageSize.val

def offset (p : Pager) (pgno : UInt32) : ℕ := (pgno - 1).toNat * p.pageSize

def frame (p : Pager) (slot : ℕ) : Frame := p.pool.getD slot { data := [] }

def setFrame (p : Pager) (slot : ℕ) (fr : Frame) : Pager :=
  { p with pool := p.pool.set slot fr }

def newPager (file : MemData) (header : Header) (cacheFrames : ℤ) (dbSize : UInt32) : Pager where
  file := file
  header := header
  pool := List.replicate (if cacheFrames ≤ 0 then defaultCacheFrames else cacheFrames.toNat)
    { data := List.replicate header.pageSize.val 0 }
  dbSize := dbSize

theorem validPageSize_toNat {ps : ℤ} (h : validPageSize ps = true) :
    validPageSize ps.toNat = true := by
  unfold validPageSize at *
  split at h
  · cases h
  · rwa [Int.toNat_of_nonneg (by omega), if_neg (by assumption)]

/-- `Create` over the file that `OpenCreate` returned. -/
def create (file : MemData) (opts : Options) : Except Err Pager :=
  let ps := if opts.pageSize = 0 then defaultPageSize else opts.pageSize
  if h : validPageSize ps = true then
    let header := { newHeader ⟨ps.toNat, validPageSize_toNat h⟩ opts.checksum with
      flags := opts.flags }
    let page1 := header.encode (List.replicate ps.toNat 0)
    .ok (newPager (file.writeAt page1 0).sync header.stamped opts.cacheFrames 1)
  else .error .badPageSize

def writePage (p : Pager) (pgno : UInt32) (data : Bytes) : Pager :=
  { p with file := p.file.writeAt data (p.offset pgno) }

/-- The bytes of a frame as they are written to its page. -/
def stamped (p : Pager) (fr : Frame) : Bytes :=
  if fr.pgno ≠ 1 then writePageChecksum fr.data p.header.checksum else fr.data

/-- Flush one frame to its page, stamping the checksum first except on page 1. -/
def writeBack (p : Pager) (slot : ℕ) : Pager :=
  let fr := p.frame slot
  let data := if fr.pgno ≠ 1 then writePageChecksum fr.data p.header.checksum else fr.data
  (p.writePage fr.pgno data).setFrame slot { fr with data := data, dirty := false }

/-- Give up the page of a frame, after writing it back if it is dirty. -/
def release (p : Pager) (slot : ℕ) : Pager :=
  let fr := p.frame slot
  let p := if fr.dirty then p.writeBack slot else p
  { p.setFrame slot { p.frame slot with pgno := 0, dirty := false } with
    index := Function.update p.index fr.pgno none }

/-- The CLOCK sweep, for a number of steps: the slot of the victim, if one was found. Whether the
file takes a write-back is given by the steps that are left. -/
def sweep (takes : ℕ → Bool) (p : Pager) : ℕ → Pager × Option ℕ
  | 0 => (p, none)
  | n + 1 =>
    let slot := p.hand
    let fr := p.frame slot
    let p := { p with hand := (p.hand + 1) % p.pool.length }
    if fr.pins ≠ 0 then p.sweep takes n
    else if fr.ref then (p.setFrame slot { fr with ref := false }).sweep takes n
    -- a write-back that fails has stamped the checksum already
    else if fr.dirty ∧ takes n = false then
      (p.setFrame slot { fr with data := p.stamped fr }).sweep takes n
    else (p.release slot, some slot)

def evict (p : Pager) (takes : ℕ → Bool := fun _ => true) : Pager × Option ℕ :=
  match p.pool.findIdx? fun fr => fr.pgno = 0 ∧ fr.pins = 0 with
  | some slot => (p, some slot)
  | none => p.sweep takes (2 * p.pool.length)

def bindFrame (p : Pager) (slot : ℕ) (pgno : UInt32) : Pager :=
  { p.setFrame slot { p.frame slot with pgno := pgno, dirty := false, ref := false } with
    index := Function.update p.index pgno (some slot) }

def admitPage (p : Pager) (pgno : UInt32) (takes : ℕ → Bool := fun _ => true) :
    Pager × Except Err ℕ :=
  match p.evict takes with
  | (p, none) => (p, .error .exhausted)
  | (p, some slot) => (p.bindFrame slot pgno, .ok slot)

def pin (p : Pager) (slot : ℕ) : Pager :=
  let fr := p.frame slot
  p.setFrame slot { fr with pins := fr.pins + 1, ref := true }

/-- What a frame is filled with when its page is read: a short read zero-fills it. -/
def load (p : Pager) (pgno : UInt32) : Bytes :=
  let (data, eof) := p.file.readAt (p.offset pgno) p.pageSize
  if eof then List.replicate p.pageSize 0 else data

def get (p : Pager) (pgno : UInt32) (takes : ℕ → Bool := fun _ => true) : Pager × Except Err ℕ :=
  if pgno = 0 then (p, .error .nullPage)
  else
    match p.index pgno with
    | some slot => (p.pin slot, .ok slot)
    | none =>
      match p.admitPage pgno takes with
      | (p, .error e) => (p, .error e)
      | (p, .ok slot) =>
        ((p.setFrame slot { p.frame slot with data := p.load pgno }).pin slot, .ok slot)

def unpin (p : Pager) (slot : ℕ) (dirty : Bool) : Pager :=
  let fr := p.frame slot
  p.setFrame slot { fr with dirty := fr.dirty || dirty, pins := fr.pins - 1 }

/-- A caller's write into the bytes of a frame, which cannot change their number. -/
def poke (p : Pager) (slot off : ℕ) (bytes : Bytes) : Pager :=
  let fr := p.frame slot
  p.setFrame slot { fr with data := overlay fr.data off bytes }

/-- Take a page off the freelist, or grow the file by one page. -/
def nextPage (p : Pager) : Pager × UInt32 :=
  match p.free.getLast? with
  | some pgno => ({ p with free := p.free.dropLast }, pgno)
  | none => ({ p with dbSize := p.dbSize + 1 }, p.dbSize + 1)

def allocate (p : Pager) (takes : ℕ → Bool := fun _ => true) : Pager × Except Err (UInt32 × ℕ) :=
  match p.nextPage.1.admitPage p.nextPage.2 takes with
  | (q, .error e) => (q, .error e)
  | (q, .ok slot) =>
    let fr := { q.frame slot with data := List.replicate q.pageSize 0, dirty := true }
    ((q.setFrame slot fr).pin slot, .ok (p.nextPage.2, slot))

def dropFrame (p : Pager) (pgno : UInt32) : Pager :=
  match p.index pgno with
  | some slot =>
    { p.setFrame slot { p.frame slot with pgno := 0, dirty := false, ref := false } with
      index := Function.update p.index pgno none }
  | none => p

def freePage (p : Pager) (pgno : UInt32) : Pager :=
  let p := p.dropFrame pgno
  { p with free := p.free ++ [pgno] }

/-- The loop that picks how many pages of the freelist carry the others. -/
def countTrunks (cap len : ℕ) : ℕ → ℕ → ℕ
  | 0, nTrunks => nTrunks
  | fuel + 1, nTrunks =>
    if (len - nTrunks + cap - 1) / cap ≤ nTrunks then nTrunks
    else countTrunks cap len fuel (nTrunks + 1)

/-- Write the trunk pages in order, each linked to the one before: the head of the chain. -/
def writeTrunks (p : Pager) (cap : ℕ) : List UInt32 → List UInt32 → UInt32 → Pager × UInt32
  | [], _, next => (p, next)
  | trunk :: trunks, leaves, next =>
    let buf := writePageChecksum (encodeTrunk p.pageSize ⟨next, leaves.take cap⟩) p.header.checksum
    (p.writePage trunk buf).writeTrunks cap trunks (leaves.drop cap) trunk

/-- How many leaf page numbers a trunk page of this file carries. -/
def trunkCap (p : Pager) : ℕ := trunkCapacity p.pageSize p.header.reservedPerPage

/-- How many pages at the front of the freelist are leaves of the chain. -/
def leafCount (p : Pager) : ℕ :=
  p.free.length - countTrunks p.trunkCap p.free.length p.free.length 0

/-- The pages at the end of the freelist that carry the chain. -/
def trunkPages (p : Pager) : List UInt32 := p.free.drop p.leafCount

def persistFreelist (p : Pager) : Pager :=
  if p.free = [] ∨ p.trunkCap = 0 then
    { p with header := { p.header with freelistTrunk := 0, freelistCount := 0 } }
  else
    let (p, next) := p.writeTrunks p.trunkCap p.trunkPages (p.free.take p.leafCount) 0
    { p with header := { p.header with
        freelistTrunk := next, freelistCount := UInt32.ofNat p.free.length } }

/-- Write a frame back if it is dirty and holds a page other than page 1. -/
def flushFrame (p : Pager) (slot : ℕ) : Pager :=
  if (p.frame slot).pgno ≠ 0 ∧ (p.frame slot).dirty ∧ (p.frame slot).pgno ≠ 1 then p.writeBack slot
  else p

def flushDirty (p : Pager) : Pager := (List.range p.pool.length).foldl flushFrame p

def nextHeader (p : Pager) : Header :=
  { p.header with
    pageCount := p.dbSize
    changeCounter := p.header.changeCounter + 1
    versionValidFor := p.header.changeCounter + 1 }

/-- The bytes of page 1 that a checkpoint re-encodes the header into. -/
def headerPage (p : Pager) : Bytes :=
  match p.index 1 with
  | some slot => (p.frame slot).data
  | none =>
    let data := (p.file.readAt 0 p.pageSize).1
    data ++ List.replicate (p.pageSize - data.length) 0

/-- Write page 1, in its frame too if it is resident, and sync. -/
def writeHeader (p : Pager) (header : Header) (page1 : Bytes) : Pager :=
  let p := { p with header := header }
  let p :=
    match p.index 1 with
    | some slot => p.setFrame slot { p.frame slot with data := page1, dirty := false }
    | none => p
  { p with file := (p.file.writeAt page1 0).sync }

def checkpoint (p : Pager) : Pager :=
  let p := p.flushDirty.persistFreelist
  p.writeHeader p.nextHeader.stamped (p.nextHeader.encode p.headerPage)

/-- Follow the trunk chain; a chain of more pages than the file has comes back to one. -/
def loadTrunks (file : MemData) (ps : ℕ) :
    ℕ → UInt32 → List UInt32 → Except Err (List UInt32)
  | fuel, trunk, free =>
    if trunk = 0 then .ok free
    else
      let (buf, eof) := file.readAt ((trunk - 1).toNat * ps) ps
      if eof then .error .readTrunk
      else
        match decodeTrunk buf with
        | none => .error .trunkOutOfRange
        | some tp =>
          match fuel with
          | 0 => .error .endlessChain
          | fuel + 1 => loadTrunks file ps fuel tp.next (free ++ tp.leafs ++ [trunk])

def loadFreelist (p : Pager) : Except Err Pager :=
  (loadTrunks p.file p.pageSize (p.file.size / p.pageSize) p.header.freelistTrunk p.free).map
    fun free => { p with free := free }

def openPager (file : MemData) (cacheFrames : ℤ) : Except Err Pager :=
  let (hbuf, eof) := file.readAt 0 headerSize
  if eof then .error .readHeader
  else
    match decodeHeader hbuf with
    | .error e => .error (.header e)
    | .ok h =>
      let dbSize := UInt32.ofNat (file.size / h.pageSize.val)
      (newPager file h cacheFrames (if dbSize = 0 then 1 else dbSize)).loadFreelist

end Pager

end VecDb

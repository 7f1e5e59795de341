import VecDb.MemFs
import VecDb.Wal.Replay

/-! # The log writer

Appending a frame overwrites whatever lies past the writer's append offset, so
the file stays a log followed by stale bytes.
-/

namespace VecDb.Wal

open Bytes Vfs List

inductive Sync
  | off | normal | full | extra
  deriving DecidableEq

structure Options where
  pageSize : ℤ := 0
  sync : Sync := .off
  salt : UInt64 := 0
  deriving DecidableEq

structure WAL where
  file : MemData
  pageSize : ℤ
  syncMode : Sync
  salt : UInt64
  lsn : UInt64
  lastSum : UInt64 := 0
  tailOff : ℕ
  grew : Bool := false
  batchN : UInt32 := 0
  syncs : UInt64 := 0
  deriving DecidableEq

namespace WAL

def headerBody (w : WAL) : Bytes :=
  be32 walMagic ++ be32 walVersion ++ be32 (UInt32.ofInt w.pageSize) ++ be64 w.salt ++ [0, 0, 0, 0]

def headerChecksum (w : WAL) : UInt64 := sum64 w.headerBody

def headerBytes (w : WAL) : Bytes := w.headerBody ++ be64 (sum64 w.headerBody)

def writeHeader (w : WAL) : WAL := { w with file := w.file.writeAt w.headerBytes 0 }

def appendFrame (w : WAL) (ft : FrameType) (version : UInt64) (payload : Bytes) : WAL :=
  let hdr := headerSansSum ft.toByte (UInt32.ofNat payload.length) w.lsn version w.salt
  let sum := chain w.lastSum hdr payload
  let frame := hdr ++ be64 sum ++ payload
  { w with
    file := w.file.writeAt frame w.tailOff
    tailOff := w.tailOff + frame.length
    lastSum := sum
    lsn := w.lsn + 1
    grew := true }

def sync (w : WAL) : WAL :=
  match w.syncMode with
  | .off | .normal => w
  | .full => { w with syncs := w.syncs + 1, file := w.file.sync }
  | .extra => { w with syncs := w.syncs + 1, file := w.file.sync, grew := false }

def flush (w : WAL) : WAL :=
  { w with syncs := w.syncs + 1, grew := false, file := w.file.sync }

def logBatch (w : WAL) (version : UInt64) (encoded : Bytes) : WAL :=
  let w := w.appendFrame .opBatch version encoded
  { w with batchN := w.batchN + 1 }

/-- `Commit`: the log after the commit frame, and the LSN of that frame. -/
def commit (w : WAL) (version : UInt64) : WAL × UInt64 :=
  let commitLSN := w.lsn
  let w := w.appendFrame .commit version (be32 w.batchN)
  (sync { w with batchN := 0 }, commitLSN)

end WAL

def nextSalt (prev foldedLSN : UInt64) : UInt64 :=
  let x := prev ^^^ (foldedLSN * 0x9E3779B97F4A7C15)
  let x := x ^^^ (x >>> 30)
  let x := x * 0xBF58476D1CE4E5B9
  let x := x ^^^ (x >>> 27)
  x ||| 1

namespace WAL

def checkpointed (w : WAL) (foldedLSN : UInt64) : WAL :=
  let w := flush (w.appendFrame .checkpoint 0 (be64 foldedLSN))
  let w := writeHeader { w with
    salt := nextSalt w.salt foldedLSN
    tailOff := headerSize
    lsn := foldedLSN + 1 }
  flush { w with lastSum := w.headerChecksum }

end WAL

/-- `Create` over the file that `OpenCreate` returned. -/
def create (file : MemData) (opts : Options) : WAL :=
  let w : WAL := {
    file := file
    pageSize := opts.pageSize
    syncMode := opts.sync
    salt := opts.salt
    lsn := 1
    tailOff := headerSize }
  let w := w.writeHeader
  { w with lastSum := w.headerChecksum, file := w.file.sync }

/-- `Open`: recover the file, and resume after its durable tail. -/
def openWal (file : MemData) (opts : Options) : Except Fault (WAL × RecoverResult) := do
  let res ← recover file.live
  return ({
    file := file
    pageSize := opts.pageSize
    syncMode := opts.sync
    salt := res.salt
    lsn := res.durableLSN + 1
    lastSum := res.durableSum
    tailOff := res.durableEndOff }, res)

/-- The file is a log, then stale bytes; the writer stands at the end of the log. -/
structure WAL.Tracks (w : WAL) (hdr : Bytes) (fs : List Frame) (stale : Bytes) : Prop where
  header : IsHeader hdr
  live : w.file.live = logBytes hdr fs ++ stale
  tailOff : w.tailOff = (logBytes hdr fs).length
  lastSum : w.lastSum = logSum hdr fs
  salt : w.salt = headerSalt hdr

section Append

variable {w : WAL} {hdr stale : Bytes} {fs : List Frame}

theorem logBytes_concat (hdr : Bytes) (fs : List Frame) (f : Frame) : logBytes hdr (fs ++ [f]) =
      logBytes hdr fs ++ f.encode (headerSalt hdr) (logSum hdr fs) := by
  rw [logBytes, ChainCodec.encodeAll_concat, ← append_assoc]; rfl

theorem logSum_concat (hdr : Bytes) (fs : List Frame) (f : Frame) :
    logSum hdr (fs ++ [f]) = f.sum (headerSalt hdr) (logSum hdr fs) := by
  rw [logSum, ChainCodec.nextAll_append]; rfl

@[simp] theorem logBytes_nil (hdr : Bytes) : logBytes hdr [] = hdr := by simp [logBytes]

@[simp] theorem logSum_nil (hdr : Bytes) : logSum hdr [] = headerSum hdr := rfl

theorem WAL.Tracks.appendFrame (h : w.Tracks hdr fs stale) (ft : FrameType) (version : UInt64)
    (payload : Bytes) : (w.appendFrame ft version payload).Tracks hdr
      (fs ++ [⟨ft.toByte, w.lsn, version, payload⟩])
      (stale.drop (frameHeaderSize + payload.length)) := by
  have hframe : headerSansSum ft.toByte (UInt32.ofNat payload.length) w.lsn version w.salt ++
      be64 (chain w.lastSum (headerSansSum ft.toByte (UInt32.ofNat payload.length) w.lsn version
        w.salt) payload) ++ payload =
      Frame.encode (headerSalt hdr) (logSum hdr fs) ⟨ft.toByte, w.lsn, version, payload⟩ := by
    rw [h.salt, h.lastSum]; rfl
  have hlen := Frame.length_encode (headerSalt hdr) (logSum hdr fs)
    ⟨ft.toByte, w.lsn, version, payload⟩
  refine ⟨h.header, ?_, ?_, ?_, h.salt⟩
  · simp only [WAL.appendFrame, MemData.live_writeAt]
    rw [hframe, h.live, h.tailOff, writeAt_append, hlen, logBytes_concat]
  · simp only [WAL.appendFrame]
    rw [hframe, h.tailOff, logBytes_concat, length_append]
  · simp only [WAL.appendFrame]
    rw [logSum_concat, h.lastSum, h.salt]; rfl

theorem WAL.Tracks.congr {w' : WAL} (h : w.Tracks hdr fs stale)
    (hl : w'.file.live = w.file.live) (ht : w'.tailOff = w.tailOff)
    (hs : w'.lastSum = w.lastSum) (hsalt : w'.salt = w.salt) : w'.Tracks hdr fs stale :=
  ⟨h.header, hl.trans h.live, ht.trans h.tailOff, hs.trans h.lastSum, hsalt.trans h.salt⟩

theorem WAL.live_sync (w : WAL) : w.sync.file.live = w.file.live := by
  unfold WAL.sync; split <;> rfl

theorem WAL.sync_fields (w : WAL) :
    w.sync.tailOff = w.tailOff ∧ w.sync.lastSum = w.lastSum ∧ w.sync.salt = w.salt ∧
      w.sync.lsn = w.lsn ∧ w.sync.pageSize = w.pageSize := by
  unfold WAL.sync; split <;> exact ⟨rfl, rfl, rfl, rfl, rfl⟩

theorem WAL.Tracks.logBatch (h : w.Tracks hdr fs stale) (version : UInt64) (encoded : Bytes) :
    (w.logBatch version encoded).Tracks hdr
      (fs ++ [⟨FrameType.opBatch.toByte, w.lsn, version, encoded⟩])
      (stale.drop (frameHeaderSize + encoded.length)) :=
  (h.appendFrame .opBatch version encoded).congr rfl rfl rfl rfl

theorem WAL.Tracks.commit (h : w.Tracks hdr fs stale) (version : UInt64) :
    (w.commit version).1.Tracks hdr
      (fs ++ [⟨FrameType.commit.toByte, w.lsn, version, be32 w.batchN⟩])
      (stale.drop (frameHeaderSize + 4)) := by
  obtain ⟨ht, hs, hsalt, _⟩ := WAL.sync_fields
    { w.appendFrame .commit version (be32 w.batchN) with batchN := 0 }
  exact (h.appendFrame .commit version (be32 w.batchN)).congr (WAL.live_sync _) ht hs hsalt

@[simp] theorem WAL.lsn_logBatch (w : WAL) (version : UInt64) (encoded : Bytes) :
    (w.logBatch version encoded).lsn = w.lsn + 1 := rfl

@[simp] theorem WAL.lsn_commit (w : WAL) (version : UInt64) :
    (w.commit version).1.lsn = w.lsn + 1 := (WAL.sync_fields _).2.2.2.1

end Append

section Header

theorem WAL.length_headerBody (w : WAL) : w.headerBody.length = 24 := by simp [WAL.headerBody]

theorem WAL.isHeader_headerBytes (w : WAL) :
    IsHeader w.headerBytes ∧ headerSalt w.headerBytes = w.salt ∧
      headerSum w.headerBytes = w.headerChecksum := by
  have hl := w.length_headerBody
  have hlen : w.headerBytes.length = headerSize := by simp [WAL.headerBytes, hl, headerSize]
  have hbody : slice w.headerBytes 0 24 = w.headerBody := slice_zero hl
  have hsum : slice w.headerBytes 24 8 = be64 (sum64 w.headerBody) := by
    rw [WAL.headerBytes, slice_append_right hl.le, hl, Nat.sub_self, slice,
      drop_zero, take_of_length_le (by simp)]
  have hsalt : slice w.headerBytes 12 8 = be64 w.salt := by
    simp [slice, WAL.headerBytes, WAL.headerBody, drop_append, drop_eq_nil_of_le]
  have hmagic : slice w.headerBytes 0 4 = be32 walMagic := by
    simp [slice, WAL.headerBytes, WAL.headerBody]
  have hsum' : headerSum w.headerBytes = w.headerChecksum := by
    rw [headerSum, hsum, getBE_be64]; rfl
  refine ⟨⟨hlen, hlen.ge, ?_, ?_⟩, ?_, hsum'⟩
  · rw [headerMagic, hmagic, getBE_be32]
  · rw [hsum', hbody]; rfl
  · rw [headerSalt, hsalt, getBE_be64]

theorem tracks_create (opts : Options) :
    (create .empty opts).Tracks (create .empty opts).headerBytes [] [] := by
  obtain ⟨hh, hsalt, hsum⟩ := (create .empty opts).isHeader_headerBytes
  refine ⟨hh, ?_, ?_, hsum.symm, hsalt.symm⟩
  · rw [logBytes_nil, append_nil]
    simp [create, WAL.writeHeader, MemData.empty, writeAt, WAL.headerBytes, WAL.headerBody]
  · rw [logBytes_nil, hh.1]; rfl

end Header

theorem openWal_log {file : MemData} {hdr stale : Bytes} {fs : List Frame} {r : Replay}
    (hh : IsHeader hdr) (hl : file.live = logBytes hdr fs ++ stale) (hf : ∀ f ∈ fs, f.Fits)
    (hd : Frame.decode (headerSalt hdr) (logSum hdr fs) stale = none)
    (hr : Replay.run {} fs = .ok r) (opts : Options) :
    ∃ w res, openWal file opts = .ok (w, res) ∧ w.Tracks hdr fs stale ∧ w.file = file ∧
      w.lsn = r.durableLSN + 1 ∧ w.batchN = 0 ∧ res.batches = r.batches := by
  have hrec := recover_log hh hf hd
  rw [hr, ← hl] at hrec
  refine ⟨_, _, by rw [openWal, hrec]; rfl, ⟨hh, hl, rfl, rfl, rfl⟩, rfl, rfl, rfl, rfl⟩

/-- Recovery gives a result unless a checkpoint frame of the chain is shorter than its LSN. -/
theorem recover_answers_iff (file : Bytes) : (∃ res, recover file = .ok res) ↔
    (HeaderOk file → ∀ f ∈ (chained file).1,
      FrameType.ofByte f.type = some .checkpoint → 8 ≤ f.payload.length) := by
  by_cases hok : HeaderOk file
  · rw [recover_of_headerOk hok, ← Replay.run_answers {}]
    rcases Replay.run {} (chained file).1 with e | r <;> simp [Except.map, hok]
  · simp [recover_of_not_headerOk hok, hok]

/-- A log whose only frame is a checkpoint frame without a payload. -/
theorem empty_checkpoint_panics : let hdr := (create .empty {}).headerBytes
    recover (logBytes hdr [⟨FrameType.checkpoint.toByte, 1, 0, []⟩]) = .error .sliceOutOfRange := by
  intro hdr
  have h := @recover_log hdr [] [⟨FrameType.checkpoint.toByte, 1, 0, []⟩]
    (WAL.isHeader_headerBytes _).1 (by simp [Frame.Fits]) rfl
  rw [List.append_nil] at h
  rw [h]
  rfl

end VecDb.Wal

import VecDb.Wal.Frame

/-! # The recovery scan

`recover` walks a WAL file frame by frame. It is the replay of the frames that
chain from the header checksum, which ties the reader's offset arithmetic to the
chained log of the file; it stops at the first bytes that do not chain.
-/

namespace VecDb.Wal

open Bytes

inductive Fault
  | sliceOutOfRange
  deriving DecidableEq

structure CommittedBatch where
  version : UInt64
  lsn : UInt64
  encoded : Bytes
  deriving DecidableEq

structure RecoverResult where
  batches : List CommittedBatch := []
  lastCheckpointLSN : UInt64 := 0
  durableLSN : UInt64 := 0
  durableEndOff : ℕ := 0
  durableSum : UInt64 := 0
  salt : UInt64 := 0
  tornTail : Bool := false
  deriving DecidableEq

/-- The batches not yet folded into the main file at a checkpoint boundary. -/
def RecoverResult.committedAfter (r : RecoverResult) (lsn : UInt64) : List CommittedBatch :=
  r.batches.filter (fun b => lsn < b.lsn)

structure ScanState where
  off : ℕ
  prevSum : UInt64
  pending : List CommittedBatch
  res : RecoverResult

def ScanState.dispatch (st : ScanState) (ft : Option FrameType) (lsn version : UInt64)
    (payload : Bytes) : Except Fault ScanState :=
  match ft with
  | some .opBatch => .ok { st with pending := st.pending ++ [⟨version, lsn, payload⟩] }
  | some .commit =>
    .ok { st with res := { st.res with batches := st.res.batches ++ st.pending }, pending := [] }
  | some .checkpoint =>
    -- `payload[:8]` panics on a shorter payload
    if payload.length < 8 then .error .sliceOutOfRange
    else .ok { st with res := { st.res with
      lastCheckpointLSN := UInt64.ofNat (getBE (payload.take 8)) } }
  | some .pageImage => .ok st
  | none => .ok st

/-- One iteration of the scan: the next loop state, or the result the loop breaks with. -/
def scanStep (file : Bytes) (salt : UInt64) (st : ScanState) :
    Except Fault (ScanState ⊕ RecoverResult) :=
  let hp := slice file st.off frameHeaderSize
  let plen := getBE (slice hp 1 4)
  let lsn := UInt64.ofNat (getBE (slice hp 5 8))
  let version := UInt64.ofNat (getBE (slice hp 13 8))
  let fsalt := UInt64.ofNat (getBE (slice hp 21 8))
  let sum := UInt64.ofNat (getBE (slice hp 29 8))
  let stop := st.off + frameHeaderSize + plen
  if file.length < stop then .ok (.inr { st.res with tornTail := true })
  else
    let payload := slice file (st.off + frameHeaderSize) plen
    if fsalt ≠ salt ∨ chain st.prevSum (slice hp 0 29) payload ≠ sum then
      .ok (.inr { st.res with tornTail := true })
    else do
      let st' ← st.dispatch (FrameType.ofByte (hp.getD 0 0)) lsn version payload
      return .inl { st' with
        off := stop
        prevSum := sum
        res := { st'.res with durableLSN := lsn, durableEndOff := stop, durableSum := sum } }

/-- The scan loop; every iteration consumes a frame header, so the file length bounds it. -/
def scanLoop (file : Bytes) (salt : UInt64) : ℕ → ScanState → Except Fault RecoverResult
  | 0, st => .ok st.res
  | fuel + 1, st =>
    if st.off + frameHeaderSize ≤ file.length then do
      match ← scanStep file salt st with
      | .inl st' => scanLoop file salt fuel st'
      | .inr res => return res
    else .ok st.res

def headerMagic (file : Bytes) : UInt32 := UInt32.ofNat (getBE (slice file 0 4))
def headerSalt (file : Bytes) : UInt64 := UInt64.ofNat (getBE (slice file 12 8))
def headerSum (file : Bytes) : UInt64 := UInt64.ofNat (getBE (slice file 24 8))

def recover (file : Bytes) : Except Fault RecoverResult :=
  if file.length < headerSize then .ok {}
  else
    let hdr := slice file 0 headerSize
    if headerMagic hdr ≠ walMagic then .ok {}
    else if headerSum hdr ≠ sum64 (slice hdr 0 24) then .ok {}
    else
      let salt := headerSalt hdr
      let prevSum := headerSum hdr
      scanLoop file salt file.length
        { off := headerSize, prevSum := prevSum, pending := []
          res := { salt := salt, durableEndOff := headerSize, durableSum := prevSum } }

open List FrameType

/-- What replaying a list of frames amounts to. -/
structure Replay where
  batches : List CommittedBatch := []
  pending : List CommittedBatch := []
  lastCheckpointLSN : UInt64 := 0
  durableLSN : UInt64 := 0
  deriving DecidableEq

namespace Replay

def frame (r : Replay) (f : Frame) : Except Fault Replay :=
  match FrameType.ofByte f.type with
  | some .opBatch => .ok { r with
      pending := r.pending ++ [⟨f.version, f.lsn, f.payload⟩], durableLSN := f.lsn }
  | some .commit => .ok { r with
      batches := r.batches ++ r.pending, pending := [], durableLSN := f.lsn }
  | some .checkpoint =>
    if f.payload.length < 8 then .error .sliceOutOfRange
    else .ok { r with
      lastCheckpointLSN := UInt64.ofNat (getBE (f.payload.take 8)), durableLSN := f.lsn }
  | some .pageImage => .ok { r with durableLSN := f.lsn }
  | none => .ok { r with durableLSN := f.lsn }

def run (r : Replay) (fs : List Frame) : Except Fault Replay := fs.foldlM frame r

@[simp] theorem run_nil (r : Replay) : r.run [] = .ok r := rfl

theorem run_cons (r : Replay) (f : Frame) (fs : List Frame) :
    r.run (f :: fs) = r.frame f >>= fun r' => r'.run fs := rfl

theorem run_append (r : Replay) (fs gs : List Frame) :
    r.run (fs ++ gs) = r.run fs >>= fun r' => r'.run gs := foldlM_append

theorem run_answers (r : Replay) (fs : List Frame) : (∃ r', r.run fs = .ok r') ↔
    ∀ f ∈ fs, ofByte f.type = some .checkpoint → 8 ≤ f.payload.length := by
  induction fs generalizing r with
  | nil => simp
  | cons f fs ih =>
    have hframe : (∃ r', r.frame f = .ok r') ↔
        (ofByte f.type = some .checkpoint → 8 ≤ f.payload.length) := by
      unfold frame
      rcases ofByte f.type with _ | _ | _ | _ | _
      case some.checkpoint => dsimp only; split <;> simp <;> omega
      all_goals simp
    rw [run_cons, forall_mem_cons, ← hframe]
    rcases r.frame f with e | r'
    · simp [bind, Except.bind]
    · simp [bind, Except.bind, ih]

end Replay

/-- The loop state reached after replaying to `r`, at an offset and a checksum. -/
def ScanState.at (salt : UInt64) (off : ℕ) (sum : UInt64) (r : Replay) : ScanState where
  off := off
  prevSum := sum
  pending := r.pending
  res := {
    batches := r.batches
    lastCheckpointLSN := r.lastCheckpointLSN
    durableLSN := r.durableLSN
    durableEndOff := off
    durableSum := sum
    salt := salt }

def Replay.result (salt : UInt64) (off : ℕ) (sum : UInt64) (torn : Bool) (r : Replay) :
    RecoverResult := { (ScanState.at salt off sum r).res with tornTail := torn }

section Scan

variable {salt sum : UInt64} {pre b : Bytes}

theorem hp_field {o n : ℕ} (ho : o + n ≤ 37) :
    slice (slice (pre ++ b) pre.length frameHeaderSize) o n = slice b o n := by
  rw [slice_slice (by simpa [frameHeaderSize] using ho), slice_append_right (by omega),
    Nat.add_sub_cancel_left]

theorem hp_type : (slice (pre ++ b) pre.length frameHeaderSize).getD 0 0 = b.getD 0 0 := by
  simp [slice, frameHeaderSize]

theorem frame_payload (n : ℕ) :
    slice (pre ++ b) (pre.length + frameHeaderSize) n = slice b frameHeaderSize n := by
  rw [slice_append_right (by omega), Nat.add_sub_cancel_left]

theorem dispatch_at (off stop : ℕ) (sum' : UInt64) (r : Replay) (f : Frame) :
    ((ScanState.at salt off sum r).dispatch (ofByte f.type) f.lsn f.version f.payload
      >>= fun st' => (pure (Sum.inl { st' with
        off := stop
        prevSum := sum'
        res := { st'.res with durableLSN := f.lsn, durableEndOff := stop, durableSum := sum' } }) :
          Except Fault (ScanState ⊕ RecoverResult))) =
      (r.frame f).map fun r' => .inl (.at salt stop sum' r') := by
  unfold ScanState.dispatch Replay.frame
  rcases ofByte f.type with _ | _ | _ | _ | _
  · rfl
  · rfl
  · rfl
  · dsimp only; split <;> rfl
  · rfl

theorem sum_parse (hb : frameHeaderSize + getBE (slice b 1 4) ≤ b.length)
    (hsalt : UInt64.ofNat (getBE (slice b 21 8)) = salt)
    (hsum : chain sum (slice b 0 29) (Frame.parse b).payload =
      UInt64.ofNat (getBE (slice b 29 8))) :
    (Frame.parse b).sum salt sum = UInt64.ofNat (getBE (slice b 29 8)) := by
  rw [Frame.sum, ← hsalt, Frame.header_parse hb, hsum]

theorem scanStep_eq (h : frameHeaderSize ≤ b.length) (r : Replay) :
    scanStep (pre ++ b) salt (.at salt pre.length sum r) =
      match (codec salt).decode sum b with
      | none => .ok (.inr (r.result salt pre.length sum true))
      | some (f, _) => (r.frame f).map fun r' => .inl (.at salt
          (pre.length + ((codec salt).encode sum f).length) ((codec salt).next sum f) r') := by
  have hst : (ScanState.at salt pre.length sum r).off = pre.length := rfl
  have hps : (ScanState.at salt pre.length sum r).prevSum = sum := rfl
  simp only [codec]
  unfold scanStep Frame.decode
  simp only [hst, hps, hp_field (show 1 + 4 ≤ 37 by omega), hp_field (show 5 + 8 ≤ 37 by omega),
    hp_field (show 13 + 8 ≤ 37 by omega), hp_field (show 21 + 8 ≤ 37 by omega),
    hp_field (show 29 + 8 ≤ 37 by omega), hp_field (show 0 + 29 ≤ 37 by omega), hp_type,
    frame_payload, if_neg (not_lt.mpr h), length_append]
  by_cases hp : b.length < frameHeaderSize + getBE (slice b 1 4)
  · rw [if_pos (by omega), if_pos hp]; rfl
  · rw [if_neg (by omega), if_neg hp]
    split
    · rename_i hc
      rw [if_pos (by exact hc)]; rfl
    · rename_i hc
      obtain ⟨hsalt, hsum⟩ := not_or.mp hc
      have hb := not_lt.mp hp
      rw [if_neg (by exact hc)]
      dsimp only
      rw [Frame.length_encode, Frame.length_parse_payload hb,
        sum_parse hb (not_not.mp hsalt) (not_not.mp hsum), ← Nat.add_assoc]
      exact dispatch_at pre.length _ _ r (Frame.parse b)

theorem scanLoop_eq {fuel : ℕ} (hf : b.length ≤ fuel) (r : Replay) :
    scanLoop (pre ++ b) salt fuel (.at salt pre.length sum r) =
      (r.run ((codec salt).scan sum b).1).map fun r' =>
        r'.result salt (pre.length + ((codec salt).encodeAll sum ((codec salt).scan sum b).1).length)
          ((codec salt).nextAll sum ((codec salt).scan sum b).1)
          (frameHeaderSize ≤ ((codec salt).scan sum b).2.length) := by
  induction fuel generalizing pre b sum r with
  | zero =>
    obtain rfl : b = [] := length_eq_zero_iff.mp (by omega)
    have hd : (codec salt).decode sum [] = none := rfl
    rw [(codec salt).scan_none hd]
    rfl
  | succ fuel ih =>
    have hoff : (ScanState.at salt pre.length sum r).off = pre.length := rfl
    by_cases h : frameHeaderSize ≤ b.length
    · rw [scanLoop, hoff, if_pos (by simpa using h), scanStep_eq h]
      rcases hd : (codec salt).decode sum b with _ | ⟨f, rest⟩
      · rw [(codec salt).scan_none hd]
        simp [Except.map, bind, Except.bind, pure, Except.pure, h]
      · obtain ⟨_, rfl⟩ := (codec salt).decode_sound sum b f rest hd
        rw [(codec salt).scan_some hd, Replay.run_cons]
        dsimp only
        rcases r.frame f with e | r'
        · rfl
        · have hle : rest.length ≤ fuel := by
            have := (codec salt).decode_shorter hd; omega
          have hrec : scanLoop ((pre ++ (codec salt).encode sum f) ++ rest) salt fuel
              (.at salt (pre ++ (codec salt).encode sum f).length ((codec salt).next sum f) r') =
              _ := ih hle r'
          simp only [append_assoc, length_append] at hrec
          simp only [Except.map, bind, Except.bind] at hrec ⊢
          rw [hrec]
          simp only [ChainCodec.encodeAll_cons, ChainCodec.nextAll_cons, length_append,
            Nat.add_assoc]
    · have hd : (codec salt).decode sum b = none := if_pos (by omega)
      rw [scanLoop, hoff, if_neg (by simpa using h), (codec salt).scan_none hd]
      have ht : decide (frameHeaderSize ≤ b.length) = false := by simpa using h
      simp only [ht]
      rfl

end Scan

/-- The 32-byte header is present, names the format and carries its own checksum. -/
def HeaderOk (file : Bytes) : Prop :=
  headerSize ≤ file.length ∧ headerMagic file = walMagic ∧
    headerSum file = sum64 (slice file 0 24)

instance (file : Bytes) : Decidable (HeaderOk file) := by unfold HeaderOk; infer_instance

theorem recover_of_not_headerOk {file : Bytes} (h : ¬ HeaderOk file) : recover file = .ok {} := by
  unfold recover
  split
  · rfl
  · rename_i hl
    simp only [headerMagic, headerSum, slice_slice (show 0 + 4 ≤ headerSize by decide),
      slice_slice (show 24 + 8 ≤ headerSize by decide),
      slice_slice (show 0 + 24 ≤ headerSize by decide), Nat.zero_add]
    split
    · rfl
    · rename_i hm
      rw [if_pos]
      intro hs
      exact h ⟨not_lt.mp hl, not_not.mp hm, hs⟩

/-- The frames that chain from the header checksum of a file, and the bytes after them. -/
def chained (file : Bytes) : List Frame × Bytes :=
  (codec (headerSalt file)).scan (headerSum file) (file.drop headerSize)

theorem recover_of_headerOk {file : Bytes} (h : HeaderOk file) :
    recover file = (Replay.run {} (chained file).1).map (Replay.result (headerSalt file)
      (headerSize + ((codec (headerSalt file)).encodeAll (headerSum file) (chained file).1).length)
      ((codec (headerSalt file)).nextAll (headerSum file) (chained file).1)
      (frameHeaderSize ≤ (chained file).2.length)) := by
  obtain ⟨hl, hm, hs⟩ := h
  have hsplit : file = file.take headerSize ++ file.drop headerSize :=
    (take_append_drop ..).symm
  have htake : (file.take headerSize).length = headerSize := by
    rw [length_take, Nat.min_eq_left hl]
  have hloop := @scanLoop_eq (headerSalt file) (headerSum file) (file.take headerSize)
    (file.drop headerSize) file.length (by simp) {}
  rw [← hsplit, htake] at hloop
  have hf : ∀ o n, o + n ≤ headerSize → slice (slice file 0 headerSize) o n = slice file o n := by
    intro o n ho
    rw [slice_slice ho, Nat.zero_add]
  have hsalt : headerSalt (slice file 0 headerSize) = headerSalt file := by
    rw [headerSalt, headerSalt, hf 12 8 (by decide)]
  have hsum : headerSum (slice file 0 headerSize) = headerSum file := by
    rw [headerSum, headerSum, hf 24 8 (by decide)]
  have hmagic : headerMagic (slice file 0 headerSize) = headerMagic file := by
    rw [headerMagic, headerMagic, hf 0 4 (by decide)]
  unfold recover
  dsimp only
  rw [if_neg (not_lt.mpr hl), hmagic, if_neg (not_not.mpr hm), hsum, hf 0 24 (by decide),
    if_neg (not_not.mpr hs), hsalt]
  exact hloop

section Log

variable {hdr rest : Bytes} {fs : List Frame}

/-- The log a header starts: the header and the frames that chain from it. -/
def logBytes (hdr : Bytes) (fs : List Frame) : Bytes :=
  hdr ++ (codec (headerSalt hdr)).encodeAll (headerSum hdr) fs

def logSum (hdr : Bytes) (fs : List Frame) : UInt64 :=
  (codec (headerSalt hdr)).nextAll (headerSum hdr) fs

def IsHeader (hdr : Bytes) : Prop := hdr.length = headerSize ∧ HeaderOk hdr

theorem header_append (h : hdr.length = headerSize) (rest : Bytes) :
    headerSalt (hdr ++ rest) = headerSalt hdr ∧ headerSum (hdr ++ rest) = headerSum hdr ∧
      headerMagic (hdr ++ rest) = headerMagic hdr ∧ slice (hdr ++ rest) 0 24 = slice hdr 0 24 := by
  have hf : ∀ o n, o + n ≤ headerSize → slice (hdr ++ rest) o n = slice hdr o n :=
    fun o n ho => slice_append_left (h ▸ ho)
  refine ⟨?_, ?_, ?_, hf 0 24 (by decide)⟩
  · rw [headerSalt, headerSalt, hf 12 8 (by decide)]
  · rw [headerSum, headerSum, hf 24 8 (by decide)]
  · rw [headerMagic, headerMagic, hf 0 4 (by decide)]

theorem IsHeader.append (h : IsHeader hdr) : HeaderOk (hdr ++ rest) := by
  obtain ⟨_, hsum, hmagic, hbody⟩ := header_append h.1 rest
  exact ⟨by rw [length_append, h.1]; omega, hmagic.trans h.2.2.1,
    by rw [hsum, hbody]; exact h.2.2.2⟩

theorem chained_log (h : hdr.length = headerSize) (hf : ∀ f ∈ fs, f.Fits) :
    chained (logBytes hdr fs ++ rest) =
      (fs ++ ((codec (headerSalt hdr)).scan (logSum hdr fs) rest).1,
        ((codec (headerSalt hdr)).scan (logSum hdr fs) rest).2) := by
  have hr := header_append h ((codec (headerSalt hdr)).encodeAll (headerSum hdr) fs ++ rest)
  rw [chained, logBytes, append_assoc, hr.1, hr.2.1, drop_left' h]
  exact (codec (headerSalt hdr)).scan_encodeAll hf rest

theorem recover_log (h : IsHeader hdr) (hf : ∀ f ∈ fs, f.Fits)
    (hr : Frame.decode (headerSalt hdr) (logSum hdr fs) rest = none) :
    recover (logBytes hdr fs ++ rest) = (Replay.run {} fs).map
      (Replay.result (headerSalt hdr) (logBytes hdr fs).length (logSum hdr fs)
        (frameHeaderSize ≤ rest.length)) := by
  have hok : HeaderOk (logBytes hdr fs ++ rest) := by
    rw [logBytes, append_assoc]; exact h.append
  have hs := header_append h.1 ((codec (headerSalt hdr)).encodeAll (headerSum hdr) fs ++ rest)
  have hscan := (codec (headerSalt hdr)).scan_none hr
  rw [recover_of_headerOk hok, chained_log h.1 hf, hscan]
  rw [logBytes, append_assoc, hs.1, hs.2.1, append_nil, length_append, h.1]
  rfl

end Log

end VecDb.Wal

import VecDb.Base.Run
import VecDb.Wal.Writer

/-! # Histories of one WAL file

A history is a list of writer calls, with the file closed and opened again in between. Without
checkpoints, recovery returns its batches unless a commit frame also covers batches that an
earlier session left behind.
-/

namespace VecDb.Wal

open Bytes Vfs List Replay

inductive Op
  | logBatch (version : UInt64) (encoded : Bytes)
  | commit (version : UInt64)
  | checkpointed (foldedLSN : UInt64)
  | reopen (opts : Options)
  deriving DecidableEq

/-- The writer of a file, and what its callers have seen since the file was created. -/
structure Run where
  wal : WAL
  /-- Batches logged in this session and not committed yet. -/
  pending : List CommittedBatch := []
  /-- Batches that ended sessions left uncommitted. -/
  carried : List CommittedBatch := []
  /-- Carried batches that a later session's commit frame follows. -/
  promoted : List CommittedBatch := []
  /-- Batches committed in the session that logged them, and where the commit frame ends. -/
  committed : List (CommittedBatch × ℕ) := []
  /-- The LSNs that `Commit` returned. -/
  commits : List UInt64 := []
  /-- The LSNs that `Checkpointed` was called with. -/
  folded : List UInt64 := []
  assigned : List (FrameType × UInt64) := []
  deriving DecidableEq

namespace Run

def fresh (opts : Options) : Run := { wal := create .empty opts }

def logBatch (s : Run) (version : UInt64) (encoded : Bytes) : Run :=
  { s with
    wal := s.wal.logBatch version encoded
    pending := s.pending ++ [⟨version, s.wal.lsn, encoded⟩]
    assigned := s.assigned ++ [(.opBatch, s.wal.lsn)] }

def commit (s : Run) (version : UInt64) : Run :=
  let (w, commitLSN) := s.wal.commit version
  { s with
    wal := w
    pending := []
    carried := []
    promoted := s.promoted ++ s.carried
    committed := s.committed ++ s.pending.map fun b => (b, w.tailOff)
    commits := s.commits ++ [commitLSN]
    assigned := s.assigned ++ [(.commit, s.wal.lsn)] }

def checkpointed (s : Run) (foldedLSN : UInt64) : Run :=
  { s with
    wal := s.wal.checkpointed foldedLSN
    folded := s.folded ++ [foldedLSN]
    assigned := s.assigned ++ [(.checkpoint, s.wal.lsn)] }

/-- The run after its session ended and `w` was opened. -/
def reopened (s : Run) (w : WAL) : Run :=
  { s with wal := w, pending := [], carried := s.carried ++ s.pending }

def step (s : Run) : Op → Except Fault Run
  | .logBatch version encoded => .ok (s.logBatch version encoded)
  | .commit version => .ok (s.commit version)
  | .checkpointed foldedLSN => .ok (s.checkpointed foldedLSN)
  | .reopen opts => (openWal s.wal.file opts).map fun p => s.reopened p.1

theorem step_reopen {s s' : Run} {opts : Options} : s.step (.reopen opts) = .ok s' ↔
      ∃ w res, openWal s.wal.file opts = .ok (w, res) ∧ s' = s.reopened w := by
  rw [step]
  rcases openWal s.wal.file opts with e | ⟨w, res⟩
  · simp [Except.map]
  · simp [Except.map, eq_comm]

end Run

/-- The payload's length fits the 32-bit length field of a frame. -/
def Op.Fits : Op → Prop
  | .logBatch _ encoded => encoded.length < 2 ^ 32
  | _ => True

def Op.isCheckpoint : Op → Bool
  | .checkpointed _ => true
  | _ => false

/-- A commit is not issued while batches of an ended session are still uncommitted. -/
def Op.CommitsOwn (s : Run) : Op → Prop
  | .commit _ => s.carried = []
  | _ => True

/-- The file of a run is a log that replays, then stale bytes. -/
structure Run.OnLog (s : Run) (hdr : Bytes) (fs : List Frame) (stale : Bytes) (r : Replay) :
    Prop where
  tracks : s.wal.Tracks hdr fs stale
  fits : ∀ f ∈ fs, f.Fits
  replay : Replay.run {} fs = .ok r

/-- The pending batches of the replay are the uncommitted batches of the run. -/
structure Run.Held (s : Run) (hdr : Bytes) (fs : List Frame) (stale : Bytes) (r : Replay) : Prop
    extends s.OnLog hdr fs stale r where
  pending : r.pending = s.carried ++ s.pending

/-- The file of a run without checkpoints is the log of its batches. -/
structure Run.Logged (s : Run) (hdr : Bytes) (fs : List Frame) (r : Replay) : Prop
    extends s.Held hdr fs [] r where
  length_batches : r.batches.length = s.committed.length + s.promoted.length
  batches : s.promoted = [] → r.batches = s.committed.map Prod.fst

section Step

variable {s : Run} {hdr stale : Bytes} {fs : List Frame} {r : Replay} {encoded : Bytes} {f : Frame}

theorem Replay.run_concat {r' : Replay} (hr : run {} fs = .ok r)
    (hf : r.frame f = .ok r') : run {} (fs ++ [f]) = .ok r' := by
  rw [run_append, hr]
  change r.run [f] = .ok r'
  rw [run_cons, hf]; rfl

theorem fits_concat (h : ∀ g ∈ fs, g.Fits) (hf : f.Fits) : ∀ g ∈ fs ++ [f], g.Fits := by
  intro g hg
  rcases mem_append.mp hg with hg | hg
  · exact h g hg
  · rwa [mem_singleton.mp hg]

theorem Run.OnLog.logBatch (h : s.OnLog hdr fs stale r) (version : UInt64)
    (hf : encoded.length < 2 ^ 32) : (s.logBatch version encoded).OnLog hdr
      (fs ++ [⟨FrameType.opBatch.toByte, s.wal.lsn, version, encoded⟩])
      (stale.drop (frameHeaderSize + encoded.length)) { r with
        pending := r.pending ++ [⟨version, s.wal.lsn, encoded⟩], durableLSN := s.wal.lsn } :=
  ⟨h.tracks.logBatch version encoded, fits_concat h.fits hf, run_concat h.replay rfl⟩

theorem Run.OnLog.commit (h : s.OnLog hdr fs stale r) (version : UInt64) :
    (s.commit version).OnLog hdr
      (fs ++ [⟨FrameType.commit.toByte, s.wal.lsn, version, be32 s.wal.batchN⟩])
      (stale.drop (frameHeaderSize + 4))
      { r with batches := r.batches ++ r.pending, pending := [], durableLSN := s.wal.lsn } :=
  ⟨h.tracks.commit version, fits_concat h.fits (by simp [Frame.Fits]),
    Replay.run_concat h.replay rfl⟩

theorem Run.Held.logBatch (h : s.Held hdr fs stale r) (version : UInt64)
    (hf : encoded.length < 2 ^ 32) : (s.logBatch version encoded).Held hdr
      (fs ++ [⟨FrameType.opBatch.toByte, s.wal.lsn, version, encoded⟩])
      (stale.drop (frameHeaderSize + encoded.length)) { r with
        pending := r.pending ++ [⟨version, s.wal.lsn, encoded⟩], durableLSN := s.wal.lsn } :=
  ⟨h.toOnLog.logBatch version hf, by simp [Run.logBatch, h.pending]⟩

theorem Run.Held.commit (h : s.Held hdr fs stale r) (version : UInt64) : (s.commit version).Held hdr
      (fs ++ [⟨FrameType.commit.toByte, s.wal.lsn, version, be32 s.wal.batchN⟩])
      (stale.drop (frameHeaderSize + 4))
      { r with batches := r.batches ++ r.pending, pending := [], durableLSN := s.wal.lsn } :=
  ⟨h.toOnLog.commit version, rfl⟩

theorem Run.Held.reopen (h : s.Held hdr fs stale r)
    (hd : Frame.decode (headerSalt hdr) (logSum hdr fs) stale = none) (opts : Options) :
    ∃ w, s.step (.reopen opts) = .ok (s.reopened w) ∧ (s.reopened w).Held hdr fs stale r ∧
      w.lsn = r.durableLSN + 1 := by
  obtain ⟨w, res, hw, ht, _, hlsn, _⟩ := openWal_log h.tracks.header h.tracks.live h.fits hd
    h.replay opts
  refine ⟨w, Run.step_reopen.mpr ⟨w, res, hw, rfl⟩, ⟨⟨ht, h.fits, h.replay⟩, ?_⟩, hlsn⟩
  simp [h.pending, Run.reopened]

theorem Run.OnLog.recover (h : s.OnLog hdr fs stale r)
    (hd : Frame.decode (headerSalt hdr) (logSum hdr fs) stale = none) :
    ∃ res, Wal.recover s.wal.file.live = .ok res ∧ res.batches = r.batches := by
  have hrec := recover_log h.tracks.header h.fits hd
  rw [h.replay, ← h.tracks.live] at hrec
  exact ⟨_, hrec, rfl⟩

theorem Run.logged_fresh (opts : Options) :
    (fresh opts).Logged (create .empty opts).headerBytes [] {} :=
  ⟨⟨⟨tracks_create opts, by simp, rfl⟩, rfl⟩, rfl, fun _ => rfl⟩

theorem Run.Logged.logBatch (h : s.Logged hdr fs r) (version : UInt64)
    (hf : encoded.length < 2 ^ 32) : (s.logBatch version encoded).Logged hdr
      (fs ++ [⟨FrameType.opBatch.toByte, s.wal.lsn, version, encoded⟩]) { r with
        pending := r.pending ++ [⟨version, s.wal.lsn, encoded⟩], durableLSN := s.wal.lsn } := by
  refine ⟨?_, h.length_batches, h.batches⟩
  simpa using h.toHeld.logBatch version hf

theorem Run.Logged.commit (h : s.Logged hdr fs r) (version : UInt64) : (s.commit version).Logged hdr
      (fs ++ [⟨FrameType.commit.toByte, s.wal.lsn, version, be32 s.wal.batchN⟩])
      { r with batches := r.batches ++ r.pending, pending := [], durableLSN := s.wal.lsn } := by
  refine ⟨?_, ?_, ?_⟩
  · simpa using h.toHeld.commit version
  · simp only [Run.commit, h.pending, length_append, length_map, h.length_batches]
    omega
  · intro hp
    obtain ⟨hp, hc⟩ := append_eq_nil_iff.mp hp
    simp [Run.commit, h.batches hp, h.pending, hc, Function.comp_def]

theorem Run.Logged.step {op : Op} (h : s.Logged hdr fs r) (hf : op.Fits)
    (hc : op.isCheckpoint = false) : ∃ s', s.step op = .ok s' ∧ ∃ fs' r', s'.Logged hdr fs' r' := by
  cases op with
  | logBatch version encoded => exact ⟨_, rfl, _, _, h.logBatch version hf⟩
  | commit version => exact ⟨_, rfl, _, _, h.commit version⟩
  | checkpointed f => cases hc
  | reopen opts =>
    obtain ⟨w, hs, hw, _⟩ := h.toHeld.reopen rfl opts
    exact ⟨_, hs, fs, r, hw, h.length_batches, h.batches⟩

end Step

section Promotion

variable {s s' : Run} {ops : List Op}

theorem Run.step_promoted {op : Op} (h : s.step op = .ok s') :
    s'.promoted = [] ↔ s.promoted = [] ∧ op.CommitsOwn s := by
  cases op with
  | logBatch | commit | checkpointed =>
    cases h
    simp [Op.CommitsOwn, Run.logBatch, Run.commit, Run.checkpointed]
  | reopen opts =>
    obtain ⟨w, res, _, rfl⟩ := Run.step_reopen.mp h
    simp [Op.CommitsOwn, Run.reopened]

theorem Run.exec_promoted (h : exec Run.step s ops = .ok s') :
    s'.promoted = [] ↔ s.promoted = [] ∧ Along Run.step (fun t op => op.CommitsOwn t) s ops := by
  induction ops generalizing s with
  | nil => cases h; simp [Along]
  | cons op ops ih =>
    rcases ht : s.step op with e | t
    · rw [exec, foldlM_cons, ht] at h; cases h
    · rw [exec_cons ht] at h
      rw [ih h, along_cons ht, Run.step_promoted ht, and_assoc]

end Promotion

theorem Run.logged_exec {s : Run} {hdr : Bytes} {ops : List Op}
    (h : ∃ fs r, s.Logged hdr fs r) (hf : ∀ op ∈ ops, op.Fits)
    (hc : ∀ op ∈ ops, op.isCheckpoint = false) :
    ∃ s', exec Run.step s ops = .ok s' ∧ ∃ fs r, s'.Logged hdr fs r := by
  have hp : Along Run.step (fun _ op => op.Fits ∧ op.isCheckpoint = false) s ops :=
    Along.of_forall fun op hop _ => ⟨hf op hop, hc op hop⟩
  refine Along.exec ?_ h hp
  rintro t op ⟨fs, r, ht⟩ ⟨hfit, hck⟩
  exact ht.step hfit hck

/-- Recovery returns the batches committed by their own session exactly when no
commit covers a batch left by an earlier session. -/
theorem recover_history_iff (opts : Options) (ops : List Op)
    (hc : ∀ op ∈ ops, op.isCheckpoint = false) (hf : ∀ op ∈ ops, op.Fits) :
    ∃ s res, exec Run.step (Run.fresh opts) ops = .ok s ∧ recover s.wal.file.live = .ok res ∧
      (res.batches = s.committed.map Prod.fst ↔
        Along Run.step (fun t op => op.CommitsOwn t) (Run.fresh opts) ops) := by
  obtain ⟨s, hs, fs, r, hl⟩ := Run.logged_exec ⟨[], {}, Run.logged_fresh opts⟩ hf hc
  obtain ⟨res, hres, hb⟩ := hl.toOnLog.recover rfl
  have hp := Run.exec_promoted hs
  refine ⟨s, res, hs, hres, ?_⟩
  rw [hb]
  constructor
  · intro h
    have hlen := hl.length_batches
    rw [h, length_map] at hlen
    exact (hp.mp (eq_nil_of_length_eq_zero (by omega))).2
  · intro h
    exact hl.batches (hp.mpr ⟨rfl, h⟩)

theorem recover_history_iff_two_sessions :
    ∃ s res, exec Run.step (Run.fresh {})
        [.logBatch 1 [7], .commit 2, .reopen {}, .logBatch 3 [8]] = .ok s ∧
      recover s.wal.file.live = .ok res ∧
      (res.batches = s.committed.map Prod.fst ↔
        Along Run.step (fun t op => op.CommitsOwn t) (Run.fresh {})
          [.logBatch 1 [7], .commit 2, .reopen {}, .logBatch 3 [8]]) :=
  recover_history_iff {} _ (by simp [Op.isCheckpoint]) (by simp [Op.Fits])

/-- The batch of the first session was never committed there, and is recovered. -/
theorem recover_promotes_ended_session :
    ∃ s, exec Run.step (Run.fresh {}) [.logBatch 1 [7], .reopen {}, .commit 2] = .ok s ∧
      ∃ res, recover s.wal.file.live = .ok res ∧ s.committed = [] ∧
        res.batches = [⟨1, 1, [7]⟩] := by
  decide +kernel

end VecDb.Wal

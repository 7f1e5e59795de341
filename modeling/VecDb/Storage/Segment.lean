import Mathlib.Data.Nat.Count
import VecDb.Base.Bytes
import VecDb.Mvcc.Delta

/-! # Vector segments

A segment holds a fixed number of slots, filled in order. Each has the stored bytes of a vector,
its tombstone bit, the version that wrote it and the point it belongs to.
-/

namespace VecDb.Storage

open Mvcc Bytes Function Nat

inductive Err
  | notFound | duplicateID | deleted | notVisible | positionOutOfRange | dimensionMismatch
  | schemaMismatch | unknownCollection | unknownColumn
  deriving DecidableEq

abbrev PointID := UInt64

/-- A vector is given by the bit patterns of its single-precision numbers. -/
abbrev Vec := List UInt32

structure VecCodec where
  encode : Vec → Bytes
  decode : Bytes → Vec

def fp32Codec (dims : ℕ) : VecCodec where
  encode vec := (vec.take dims).flatMap le32
  decode src := (List.range dims).map fun i => UInt32.ofNat (getLE (slice src (4 * i) 4))

/-- Slots do not record the transaction that wrote them: the check is made for transaction 0. -/
def visibleIn (snap : Option Snapshot) (ver : ℕ) : Bool :=
  match snap with
  | none => true
  | some snap => snap.isVisible ver 0

structure Segment where
  seqNum : ℕ
  capacity : ℕ
  sealed : Bool := false
  nextPos : ℕ := 0
  data : ℕ → Bytes := fun _ => []
  tomb : ℕ → Bool := fun _ => false
  version : ℕ → ℕ := fun _ => 0
  backward : ℕ → PointID := fun _ => 0
  liveCount : ℕ := 0
  deadCount : ℕ := 0

def newSegment (seqNum capacity : ℕ) : Segment := { seqNum, capacity }

namespace Segment

def full (s : Segment) : Bool := decide (s.capacity ≤ s.nextPos)

def append (s : Segment) (codec : VecCodec) (id : PointID) (vec : Vec) (ver : ℕ) : Segment :=
  { s with
    data := update s.data s.nextPos (codec.encode vec)
    backward := update s.backward s.nextPos id
    version := update s.version s.nextPos ver
    nextPos := s.nextPos + 1
    liveCount := s.liveCount + 1 }

def isTombstoned (s : Segment) (slotPos : ℕ) : Bool :=
  if s.capacity ≤ slotPos then true else s.tomb slotPos

def tombstone (s : Segment) (slotPos : ℕ) : Segment :=
  if s.isTombstoned slotPos then s
  else
    { s with
      tomb := update s.tomb slotPos true
      liveCount := s.liveCount - 1
      deadCount := s.deadCount + 1 }

def fetchVector (s : Segment) (codec : VecCodec) (slotPos : ℕ) : Except Err Vec :=
  if s.nextPos ≤ slotPos then .error .positionOutOfRange
  else .ok (codec.decode (s.data slotPos))

def backwardMapLookup (s : Segment) (slotPos : ℕ) : Except Err PointID :=
  if s.nextPos ≤ slotPos then .error .positionOutOfRange else .ok (s.backward slotPos)

def visibleLive (s : Segment) (slotPos : ℕ) (snap : Option Snapshot) : Bool :=
  if s.isTombstoned slotPos then false else visibleIn snap (s.version slotPos)

/-- Take back the slot just filled, when its metadata does not fit the schema. -/
def rollBack (s : Segment) : Segment :=
  { s with nextPos := s.nextPos - 1, liveCount := s.liveCount - 1 }

/-- What aborting an insert does to the segment. -/
def unappend (s : Segment) (slotPos : ℕ) : Segment :=
  { s with
    tomb := update s.tomb slotPos false
    nextPos := if s.nextPos = slotPos + 1 then s.nextPos - 1 else s.nextPos
    liveCount := s.liveCount - 1 }

def revive (s : Segment) (slotPos : ℕ) : Segment :=
  { s with
    tomb := update s.tomb slotPos false
    liveCount := s.liveCount + 1
    deadCount := s.deadCount - 1 }

def stamp (s : Segment) (slotPos seq : ℕ) : Segment :=
  { s with version := update s.version slotPos seq }

/-- The counters count the filled slots, which are within the capacity, and no other slot
has its tombstone bit set. -/
structure WF (s : Segment) : Prop where
  fits : s.nextPos ≤ s.capacity
  clear : ∀ slot, s.nextPos ≤ slot → s.tomb slot = false
  dead : s.deadCount = Nat.count (fun slot => s.tomb slot = true) s.nextPos
  total : s.liveCount + s.deadCount = s.nextPos

variable {s : Segment} {slot n : ℕ} {f : ℕ → Bool}

theorem wf_newSegment (seqNum capacity : ℕ) : (newSegment seqNum capacity).WF :=
  ⟨zero_le _, fun _ _ => rfl, rfl, rfl⟩

theorem count_update_of_le (b : Bool) (h : n ≤ slot) :
    Nat.count (fun p => update f slot b p = true) n = Nat.count (fun p => f p = true) n := by
  induction n with
  | zero => rfl
  | succ n ih =>
    rw [count_succ, count_succ, ih (by omega), update_of_ne (by omega)]

theorem count_update (hf : f slot = false) (h : slot < n) :
    Nat.count (fun p => update f slot true p = true) n = Nat.count (fun p => f p = true) n + 1 := by
  induction n with
  | zero => cases h
  | succ n ih =>
    rw [count_succ, count_succ]
    rcases Nat.lt_succ_iff_lt_or_eq.mp h with hlt | rfl
    · rw [ih hlt, update_of_ne (by omega)]
      omega
    · simp [count_update_of_le, hf]

theorem count_lt (hf : f slot = false) (h : slot < n) : Nat.count (fun p => f p = true) n < n := by
  have hup := count_update hf h
  have hle := count_le (p := fun p => update f slot true p = true) (n := n)
  omega

theorem WF.live_pos (h : s.WF) (hs : slot < s.nextPos) (hl : s.tomb slot = false) :
    0 < s.liveCount := by
  have := count_lt hl hs
  have := h.dead
  have := h.total
  omega

theorem isTombstoned_eq (h : s.WF) (hs : slot < s.nextPos) : s.isTombstoned slot = s.tomb slot := by
  have := h.fits
  rw [isTombstoned, if_neg (by omega)]

theorem tombstone_eq (h : s.WF) (hs : slot < s.nextPos) (hl : s.tomb slot = false) :
    s.tombstone slot = { s with
      tomb := update s.tomb slot true
      liveCount := s.liveCount - 1
      deadCount := s.deadCount + 1 } := by
  rw [tombstone, isTombstoned_eq h hs, hl]
  rfl

theorem tombstone_keeps (s : Segment) (slot : ℕ) : (s.tombstone slot).seqNum = s.seqNum ∧
    (s.tombstone slot).capacity = s.capacity ∧ (s.tombstone slot).nextPos = s.nextPos := by
  unfold tombstone
  split <;> exact ⟨rfl, rfl, rfl⟩

theorem WF.append (h : s.WF) (hf : s.full = false) (codec : VecCodec) (id : PointID) (vec : Vec)
    (ver : ℕ) : (s.append codec id vec ver).WF := by
  have hfull : s.nextPos < s.capacity := by simpa [full] using hf
  constructor
  · exact hfull
  · intro slot hslot
    exact h.clear slot (le_of_succ_le hslot)
  · have := h.clear s.nextPos (le_refl _)
    simp [Segment.append, count_succ, this, h.dead]
  · have := h.total
    simp only [Segment.append]
    omega

theorem WF.tombstone (h : s.WF) (hs : slot < s.nextPos) (hl : s.tomb slot = false) :
    (s.tombstone slot).WF := by
  rw [tombstone_eq h hs hl]
  constructor
  · exact h.fits
  · intro p hp
    dsimp only at hp ⊢
    rw [update_of_ne (by omega)]
    exact h.clear p hp
  · rw [count_update hl hs, h.dead]
  · have := h.live_pos hs hl
    have := h.total
    dsimp only
    omega

theorem WF.stamp (h : s.WF) (seq : ℕ) : (s.stamp slot seq).WF := ⟨h.fits, h.clear, h.dead, h.total⟩

end Segment

end VecDb.Storage

import VecDb.Base.Run
import VecDb.Storage.Compaction
import VecDb.Storage.Write

/-! # The storage engine

The collections of an engine under its commit clock, and the write transaction that holds the
writer lock. A commit draws its sequence number first and stamps the slots in a second step.
-/

namespace VecDb.Storage

open Mvcc

structure Engine where
  clock : Clock
  colls : UInt64 → Option Collection := fun _ => none

def newEngine : Engine := { clock := newClock 1 }

structure Txn where
  id : ℕ
  readSeq : ℕ
  stamp : List (UInt64 × ℕ × ℕ) := []
  /-- The undo log, the newest entry first. -/
  undo : List (UInt64 × Undo) := []

namespace Engine

def createCollection (e : Engine) (d : CollectionDef) : Except Err Engine :=
  if d.dims = 0 then .error .dimensionMismatch
  else
    match e.colls d.id with
    | some _ => .error .duplicateID
    | none => .ok { e with colls := Function.update e.colls d.id (some (newCollection d)) }

def snapshot (e : Engine) : Snapshot := { readSeq := e.clock.current }

def modifyColl (e : Engine) (k : UInt64) (f : Collection → Collection) : Engine :=
  { e with colls := Function.update e.colls k ((e.colls k).map f) }

def begin (e : Engine) : Engine × Txn :=
  let (clock, id) := e.clock.nextTxn
  ({ e with clock }, { id, readSeq := e.clock.current })

def call (e : Engine) (t : Txn) (k : UInt64) (w : Write) : Engine × Txn × Option Err :=
  match e.colls k with
  | none => (e, t, some .unknownCollection)
  | some c =>
    let (d, err) := w.run { coll := c }
    ({ e with colls := Function.update e.colls k (some d.coll) },
      { t with
        stamp := t.stamp ++ d.stamp.map fun slot => (k, slot)
        undo := d.undo.map (fun u => (k, u)) ++ t.undo },
      err)

def drawSeq (e : Engine) : Engine × ℕ :=
  let (clock, seq) := e.clock.nextSeq
  ({ e with clock }, seq)

def publish (e : Engine) (t : Txn) (seq : ℕ) : Engine :=
  t.stamp.foldl (fun e x => e.modifyColl x.1 fun c => c.stampSlot seq x.2) e

def commit (e : Engine) (t : Txn) : Engine := e.drawSeq.1.publish t e.drawSeq.2

def abort (e : Engine) (t : Txn) : Engine :=
  t.undo.foldl (fun e x => e.modifyColl x.1 fun c => c.undo x.2) e

section Reads

variable (e : Engine) (k : UInt64)

def lookupID (id : PointID) : Except Err UInt32 :=
  match e.colls k with
  | none => .error .unknownCollection
  | some c => c.lookupID id

def lookupPos (p : UInt32) : Except Err PointID :=
  match e.colls k with
  | none => .error .unknownCollection
  | some c => c.lookupPos p

def fetch (p : UInt32) (proj : Option (List ColID)) (snap : Option Snapshot) :
    Except Err PointRecord :=
  match e.colls k with
  | none => .error .unknownCollection
  | some c => c.fetch p proj snap

def fetchVector (p : UInt32) (bufLen : ℕ) : Except Err Vec :=
  match e.colls k with
  | none => .error .unknownCollection
  | some c => c.fetchVector p bufLen

def scanVectors (snap : Option Snapshot) : Except Err (List (UInt32 × Vec)) :=
  match e.colls k with
  | none => .error .unknownCollection
  | some c => .ok (c.scanVectors snap)

def metadataFilter (pred : Predicate) (snap : Option Snapshot) : Except Err PositionBitmap :=
  match e.colls k with
  | none => .error .unknownCollection
  | some c => .ok (c.metadataFilter pred snap)

def collectionStats : Except Err (ℕ × ℕ) :=
  match e.colls k with
  | none => .error .unknownCollection
  | some c => .ok c.liveTotal

noncomputable def idMapStats : Except Err IdMapStats :=
  match e.colls k with
  | none => .error .unknownCollection
  | some c => .ok c.idmap.stats

end Reads

end Engine

/-- An engine and the write transaction that holds its writer lock. -/
structure Sys where
  engine : Engine := newEngine
  writer : Option Txn := none
  /-- The sequence number of a commit that has not stamped its slots yet. -/
  committing : Option ℕ := none

inductive Event
  | create (d : CollectionDef)
  | begin
  | call (k : UInt64) (w : Write)
  | drawSeq
  | publish
  | abort
  | sealSegment (k : UInt64)
  | compact (k : UInt64)

inductive Blocked
  | writerLock | noTransaction
  deriving DecidableEq

namespace Sys

def step (s : Sys) : Event → Except Blocked Sys
  | .create d =>
    match s.engine.createCollection d with
    | .ok engine => .ok { s with engine }
    | .error _ => .ok s
  | .begin =>
    match s.writer with
    | some _ => .error .writerLock
    | none => .ok { engine := s.engine.begin.1, writer := some s.engine.begin.2 }
  | .call k w =>
    match s.writer, s.committing with
    | some t, none =>
      let (engine, t, _) := s.engine.call t k w
      .ok { s with engine, writer := some t }
    | _, _ => .error .noTransaction
  | .drawSeq =>
    match s.writer, s.committing with
    | some _, none =>
      .ok { s with engine := s.engine.drawSeq.1, committing := some s.engine.drawSeq.2 }
    | _, _ => .error .noTransaction
  | .publish =>
    match s.writer, s.committing with
    | some t, some seq => .ok { engine := s.engine.publish t seq }
    | _, _ => .error .noTransaction
  | .abort =>
    match s.writer, s.committing with
    | some t, none => .ok { engine := s.engine.abort t }
    | _, _ => .error .noTransaction
  | .sealSegment k => .ok { s with engine := s.engine.modifyColl k Collection.sealOpen }
  | .compact k =>
    match s.writer with
    | some _ => .error .writerLock
    | none => .ok { s with engine := s.engine.modifyColl k Collection.compact }

inductive Takes (s : Sys) : Event → Sys → Prop
  | created {d : CollectionDef} {e : Engine} :
      s.engine.createCollection d = .ok e → Takes s (.create d) { s with engine := e }
  | refused {d : CollectionDef} : Takes s (.create d) s
  | begin : s.writer = none →
      Takes s .begin { engine := s.engine.begin.1, writer := some s.engine.begin.2 }
  | call {t : Txn} {k : UInt64} {w : Write} : s.writer = some t → s.committing = none →
      Takes s (.call k w)
        { s with engine := (s.engine.call t k w).1, writer := some (s.engine.call t k w).2.1 }
  | drawSeq {t : Txn} : s.writer = some t → s.committing = none →
      Takes s .drawSeq
        { s with engine := s.engine.drawSeq.1, committing := some s.engine.drawSeq.2 }
  | publish {t : Txn} {seq : ℕ} : s.writer = some t → s.committing = some seq →
      Takes s .publish { engine := s.engine.publish t seq }
  | abort {t : Txn} : s.writer = some t → s.committing = none →
      Takes s .abort { engine := s.engine.abort t }
  | sealSegment {k : UInt64} :
      Takes s (.sealSegment k) { s with engine := s.engine.modifyColl k Collection.sealOpen }
  | compact {k : UInt64} : s.writer = none →
      Takes s (.compact k) { s with engine := s.engine.modifyColl k Collection.compact }

theorem takes_of_step {s s' : Sys} {ev : Event} (h : s.step ev = .ok s') : Takes s ev s' := by
  cases ev with
  | create d =>
    rw [step] at h
    rcases hd : s.engine.createCollection d with _ | e <;> rw [hd] at h <;> cases h
    · exact .refused
    · exact .created hd
  | begin =>
    rw [step] at h
    rcases ht : s.writer with _ | t <;> rw [ht] at h <;> cases h
    exact .begin ht
  | sealSegment k =>
    cases h
    exact .sealSegment
  | compact k =>
    rw [step] at h
    rcases ht : s.writer with _ | t <;> rw [ht] at h <;> cases h
    rw [← ht]
    exact .compact ht
  | call k w =>
    rw [step] at h
    rcases ht : s.writer with _ | t <;> rcases hq : s.committing with _ | seq <;>
      rw [ht, hq] at h <;> cases h
    rw [← hq]
    exact .call ht hq
  | drawSeq =>
    rw [step] at h
    rcases ht : s.writer with _ | t <;> rcases hq : s.committing with _ | seq <;>
      rw [ht, hq] at h <;> cases h
    rw [← ht]
    exact .drawSeq ht hq
  | publish | abort =>
    rw [step] at h
    rcases ht : s.writer with _ | t <;> rcases hq : s.committing with _ | seq <;>
      rw [ht, hq] at h <;> cases h
    constructor <;> assumption

/-- Compaction numbers the live points by 32-bit positions. -/
def Numbered (s : Sys) : Event → Prop
  | .compact k => ∀ c, s.engine.colls k = some c → c.liveRefs.length ≤ 2 ^ 32
  | _ => True

def Reachable (s : Sys) : Prop :=
  ∃ events, Along step Numbered {} events ∧ exec step {} events = .ok s

end Sys

end VecDb.Storage

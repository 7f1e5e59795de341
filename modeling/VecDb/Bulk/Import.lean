import VecDb.Base.Loop
import VecDb.Bulk.Source
import VecDb.Facade.Points

/-! # Imports

Rows are mapped to points and written in batches. A row that fails is recorded, and either ends
the import or is skipped; but the JSON decoder returns a syntax error again and again.
-/

namespace VecDb.Bulk

open Facade (Point)

inductive OnError
  | warnAndSkip
  | abort
  deriving DecidableEq

inductive RowErr
  | source (e : SourceErr)
  | mapping (message : Bytes)
  deriving DecidableEq

structure ImportError where
  row : Int64
  err : RowErr
  deriving DecidableEq

structure ImportStats where
  rowsRead : Int64 := 0
  rowsImported : Int64 := 0
  rowsErrored : Int64 := 0
  errors : List ImportError := []
  deriving DecidableEq

structure ImportOptions where
  onError : OnError := .warnAndSkip
  batchSize : ℤ := 0
  maxErrorsKept : ℤ := 0

namespace ImportOptions

def batchLimit (o : ImportOptions) : ℤ := if 0 < o.batchSize then o.batchSize else 4096

def errorLimit (o : ImportOptions) : ℤ := if 0 < o.maxErrorsKept then o.maxErrorsKept else 100

end ImportOptions

inductive RunErr
  | ctx (e : Bytes)
  | source (e : SourceErr)
  | aborted (row : Int64) (message : Bytes)
  | upsert (e : Bytes)
  deriving DecidableEq

/-- What an import meets from outside, by the round: its context, and the writes. -/
structure Env where
  ctxErr : ℕ → Option Bytes
  upsertBatch : ℕ → List Point → Option Bytes

def Env.quiet : Env := ⟨fun _ => none, fun _ _ => none⟩

structure Importer (ρ δ : Type) where
  rt : Runtime
  csv : CsvReader ρ
  dec : JsonDecoder δ
  mapRow : Row → Except Bytes Point
  opts : ImportOptions

structure State (ρ δ : Type) where
  src : RowSource ρ δ
  stats : ImportStats := {}
  batch : List Point := []
  round : ℕ := 0

variable {ρ δ : Type}

namespace Importer

def recordError (im : Importer ρ δ) (stats : ImportStats) (err : RowErr) : ImportStats :=
  if (stats.errors.length : ℤ) < im.opts.errorLimit then
    { stats with errors := stats.errors ++ [⟨stats.rowsRead - 1, err⟩] }
  else stats

def countError (im : Importer ρ δ) (stats : ImportStats) (err : RowErr) : ImportStats :=
  im.recordError { stats with rowsRead := stats.rowsRead + 1,
                              rowsErrored := stats.rowsErrored + 1 } err

def flush (env : Env) (st : State ρ δ) : Except RunErr (State ρ δ) :=
  if st.batch = [] then .ok st
  else
    match env.upsertBatch st.round st.batch with
    | some e => .error (.upsert e)
    | none =>
      .ok { st with stats.rowsImported := st.stats.rowsImported + Int64.ofNat st.batch.length,
                    batch := [] }

/-- A point joins the batch, which is written when it is full. -/
def addPoint (im : Importer ρ δ) (env : Env) (st : State ρ δ) (p : Point) :
    State ρ δ ⊕ (ImportStats × Option RunErr) :=
  let st := { st with stats.rowsRead := st.stats.rowsRead + 1, batch := st.batch ++ [p] }
  if im.opts.batchLimit ≤ st.batch.length then
    match flush env st with
    | .error e => .inr (st.stats, some e)
    | .ok st => .inl { st with round := st.round + 1 }
  else .inl { st with round := st.round + 1 }

def step (im : Importer ρ δ) (env : Env) (st : State ρ δ) :
    State ρ δ ⊕ (ImportStats × Option RunErr) :=
  match env.ctxErr st.round with
  | some e => .inr (st.stats, some (.ctx e))
  | none =>
    match st.src.next im.rt im.csv im.dec with
    | (.stop, src) =>
      match flush env { st with src } with
      | .error e => .inr (st.stats, some e)
      | .ok st => .inr (st.stats, none)
    | (.fail e, src) =>
      let stats := im.countError st.stats (.source e)
      if im.opts.onError = .abort then .inr (stats, some (.source e))
      else .inl { st with src, stats, round := st.round + 1 }
    | (.row row, src) =>
      match im.mapRow row with
      | .error message =>
        let stats := im.countError st.stats (.mapping message)
        if im.opts.onError = .abort then
          .inr (stats, some (.aborted (stats.rowsRead - 1) message))
        else .inl { st with src, stats, round := st.round + 1 }
      | .ok p => im.addPoint env { st with src } p

def run (im : Importer ρ δ) (env : Env) (src : RowSource ρ δ) (n : ℕ) :
    Option (ImportStats × Option RunErr) :=
  Loop.rounds (im.step env) n { src }

end Importer

namespace State

/-- Every row that was read is imported, failed or waits in the batch. -/
def Counted (st : State ρ δ) : Prop :=
  st.stats.rowsRead =
    st.stats.rowsImported + st.stats.rowsErrored + Int64.ofNat st.batch.length

end State

namespace Importer

variable {im : Importer ρ δ} {env : Env} {st st' : State ρ δ} {stats : ImportStats} {p : Point}

@[simp] theorem recordError_rowsRead (stats : ImportStats) (err : RowErr) :
    (im.recordError stats err).rowsRead = stats.rowsRead := by
  rw [recordError]
  split <;> rfl

@[simp] theorem recordError_rowsImported (stats : ImportStats) (err : RowErr) :
    (im.recordError stats err).rowsImported = stats.rowsImported := by
  rw [recordError]
  split <;> rfl

@[simp] theorem recordError_rowsErrored (stats : ImportStats) (err : RowErr) :
    (im.recordError stats err).rowsErrored = stats.rowsErrored := by
  rw [recordError]
  split <;> rfl

theorem counted_countError (h : st.Counted) (err : RowErr) (src : RowSource ρ δ) (n : ℕ) :
    State.Counted { st with src, stats := im.countError st.stats err, round := n } := by
  rw [State.Counted] at h
  simp only [State.Counted, countError, recordError_rowsRead, recordError_rowsImported,
    recordError_rowsErrored]
  rw [h]
  ac_rfl

theorem flush_eq_ok (h : flush env st = .ok st') :
    st'.batch = [] ∧ st'.src = st.src ∧ st'.stats.errors = st.stats.errors ∧
      (st.Counted → st'.Counted) := by
  rw [flush] at h
  split at h
  · rename_i hb
    cases h
    exact ⟨hb, rfl, rfl, id⟩
  · split at h
    · cases h
    · cases h
      refine ⟨rfl, rfl, rfl, fun hc => ?_⟩
      rw [State.Counted] at hc
      simp only [State.Counted, hc]
      change _ = _ + _ + 0
      rw [Int64.add_zero]
      ac_rfl

theorem flush_quiet : ∃ st', flush Env.quiet st = .ok st' := by
  rw [flush]
  split
  · exact ⟨_, rfl⟩
  · exact ⟨_, rfl⟩

theorem counted_addPoint (h : st.Counted) (p : Point) :
    State.Counted { st with stats.rowsRead := st.stats.rowsRead + 1, batch := st.batch ++ [p] } := by
  rw [State.Counted] at h
  simp only [State.Counted, h, List.length_append, List.length_singleton, Int64.ofNat_add]
  rw [Int64.add_assoc]
  rfl

theorem addPoint_inl (h : im.addPoint env st p = .inl st') :
    st'.src = st.src ∧ st'.stats.errors = st.stats.errors ∧ (st.Counted → st'.Counted) := by
  rw [addPoint] at h
  split at h
  · split at h
    · cases h
    · rename_i st₁ hf
      cases h
      obtain ⟨-, hsrc, herr, hc⟩ := flush_eq_ok hf
      exact ⟨hsrc, herr, fun h => hc (counted_addPoint h p)⟩
  · cases h
    exact ⟨rfl, rfl, fun h => counted_addPoint h p⟩

theorem step_inl (h : im.step env st = .inl st') : st'.src = (st.src.next im.rt im.csv im.dec).2 ∧
      (st.src.next im.rt im.csv im.dec).1 ≠ .stop ∧
      (∀ e, (st.src.next im.rt im.csv im.dec).1 = .fail e → im.opts.onError ≠ .abort) ∧
      (st.Counted → st'.Counted) := by
  rw [step] at h
  split at h
  · cases h
  · split at h
    · split at h <;> cases h
    · rename_i e src hn
      rw [hn]
      split at h
      · cases h
      · rename_i ha
        cases h
        exact ⟨rfl, by simp, fun _ _ => ha, fun hc => counted_countError hc _ _ _⟩
    · rename_i row src hn
      rw [hn]
      split at h
      · split at h
        · cases h
        · cases h
          exact ⟨rfl, by simp, by simp, fun hc => counted_countError hc _ _ _⟩
      · obtain ⟨hsrc, -, hc⟩ := addPoint_inl h
        exact ⟨hsrc, by simp, by simp, hc⟩

theorem addPoint_inr_none : im.addPoint env st p ≠ .inr (stats, none) := by
  rw [addPoint]
  split
  · split <;> simp
  · simp

theorem step_inr_none (hc : st.Counted) (h : im.step env st = .inr (stats, none)) :
    stats.rowsRead = stats.rowsImported + stats.rowsErrored := by
  rw [step] at h
  split at h
  · cases h
  · split at h
    · split at h
      · cases h
      · rename_i src hn st₁ hf
        cases h
        obtain ⟨hb, -, -, hcount⟩ := flush_eq_ok hf
        have h₁ : st₁.Counted := hcount hc
        rw [State.Counted, hb] at h₁
        exact h₁.trans (Int64.add_zero _)
    · split at h <;> cases h
    · split at h
      · split at h <;> cases h
      · exact absurd h addPoint_inr_none

theorem step_quiet (hs : im.opts.onError = .warnAndSkip)
    (hn : (st.src.next im.rt im.csv im.dec).1 ≠ .stop) :
    ∃ st', im.step Env.quiet st = .inl st' := by
  rw [step]
  rcases h : st.src.next im.rt im.csv im.dec with ⟨out, src⟩
  rw [h] at hn
  cases out with
  | stop => exact absurd rfl hn
  | fail e => simp [Env.quiet, hs]
  | row r =>
    cases hm : im.mapRow r with
    | error message => simp [Env.quiet, hs, hm]
    | ok p =>
      simp only [Env.quiet, hm, addPoint]
      split
      · obtain ⟨st', hf⟩ := @flush_quiet ρ δ
          { st with src, stats.rowsRead := st.stats.rowsRead + 1, batch := st.batch ++ [p] }
        rw [Env.quiet] at hf
        rw [hf]
        exact ⟨_, rfl⟩
      · exact ⟨_, rfl⟩

end Importer

end VecDb.Bulk

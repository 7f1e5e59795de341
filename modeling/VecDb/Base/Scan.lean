import Mathlib.Data.List.TakeDrop
import Mathlib.Data.List.TakeWhile

/-! # Scanners

A scanner goes over an input in steps; a step reads some elements at the front and may
give a token. A run is the same as a list of pieces, each of which a step reads.
-/

namespace VecDb.Scan

variable {α τ ε : Type}

/-- A step gets the offset and the input there; its result has the number of elements read. -/
abbrev Step (α τ ε : Type) := ℕ → List α → Except ε (Option τ × ℕ)

def run (step : Step α τ ε) : ℕ → ℕ → List α → Except ε (List τ)
  | _, _, [] => .ok []
  | k + 1, off, _ :: input => run step k (off + 1) input
  | 0, off, x :: input => do
    let (t, n) ← step off (x :: input)
    let ts ← run step (n - 1) (off + 1) input
    return t.toList ++ ts

variable {step : Step α τ ε} {off k n : ℕ} {input : List α} {t : Option τ}

theorem run_skip (k off : ℕ) (input : List α) :
    run step k off input = run step 0 (off + k) (input.drop k) := by
  induction input generalizing k off with
  | nil => simp [run]
  | cons x input ih =>
    cases k with
    | zero => rfl
    | succ k =>
      rw [run, ih, List.drop_succ_cons, Nat.add_right_comm]
      rfl

theorem run_step (hinput : input ≠ []) (hn : n ≠ 0) (h : step off input = .ok (t, n)) :
    run step 0 off input = (run step 0 (off + n) (input.drop n)).map (t.toList ++ ·) := by
  obtain ⟨n, rfl⟩ := Nat.exists_eq_succ_of_ne_zero hn
  rcases input with _ | ⟨x, input⟩
  · exact absurd rfl hinput
  · rw [run, h]
    change (do let ts ← run step n (off + 1) input; return t.toList ++ ts) = _
    rw [run_skip, List.drop_succ_cons, Nat.add_right_comm off 1 n]
    rcases run step 0 (off + n + 1) (input.drop n) with _ | ts <;> rfl

theorem run_error {e : ε} (hinput : input ≠ []) (h : step off input = .error e) :
    run step 0 off input = .error e := by
  rcases input with _ | ⟨x, input⟩
  · exact absurd rfl hinput
  · rw [run, h]
    rfl

def traced (step : Step α τ ε) : Step α (Option τ × List α) ε := fun off input =>
  (step off input).map fun x => (some (x.1, input.take x.2), x.2)

theorem run_traced (step : Step α τ ε) (k off : ℕ) (input : List α) :
    run step k off input = (run (traced step) k off input).map (·.filterMap Prod.fst) := by
  induction input generalizing k off with
  | nil =>
    cases k with
    | zero | succ k => rfl
  | cons x input ih =>
    cases k with
    | succ k => exact ih k (off + 1)
    | zero =>
      rw [run, run, traced]
      rcases step off (x :: input) with e | ⟨t, n⟩
      · rfl
      · change (do let ts ← run step (n - 1) (off + 1) input; return t.toList ++ ts) = _
        rw [ih]
        change _ = (do
          let ts ← run (traced step) (n - 1) (off + 1) input
          return [(t, (x :: input).take n)] ++ ts).map _
        rcases run (traced step) (n - 1) (off + 1) input with e | cuts
        · rfl
        · cases t <;> rfl

end VecDb.Scan

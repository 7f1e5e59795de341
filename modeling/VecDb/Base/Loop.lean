import Mathlib.Tactic.Common

/-! # Loops

A round of a loop gives the next state or the result. A loop ends when some number of rounds
gives a result.
-/

namespace VecDb.Loop

variable {S R : Type*} (step : S → S ⊕ R)

/-- The result of a loop, if it has one after so many rounds. -/
def rounds : ℕ → S → Option R
  | 0, _ => none
  | n + 1, s =>
    match step s with
    | .inl s' => rounds n s'
    | .inr r => some r

def Ends (s : S) : Prop := ∃ n r, rounds step n s = some r

variable {step} {s s' : S} {r : R} {I : S → Prop}

theorem rounds_inl (h : step s = .inl s') (n : ℕ) : rounds step (n + 1) s = rounds step n s' := by
  rw [rounds, h]

theorem rounds_inr (h : step s = .inr r) (n : ℕ) : rounds step (n + 1) s = some r := by
  rw [rounds, h]

theorem Ends.of_inl (h : step s = .inl s') (he : Ends step s') : Ends step s := by
  obtain ⟨n, r, hn⟩ := he
  exact ⟨n + 1, r, (rounds_inl h n).trans hn⟩

theorem Ends.of_inr (h : step s = .inr r) : Ends step s := ⟨1, r, rounds_inr h 0⟩

theorem Ends.congr {t : S} (h : step s = step t) (he : Ends step t) : Ends step s := by
  obtain ⟨n, r, hn⟩ := he
  cases n with
  | zero => cases hn
  | succ n => exact ⟨n + 1, r, by rw [rounds, h]; exact hn⟩

theorem Ends.of_measure (m : S → ℕ)
    (hstep : ∀ s s', I s → step s = .inl s' → I s' ∧ m s' < m s) (hs : I s) : Ends step s := by
  induction hm : m s using Nat.strongRecOn generalizing s with
  | ind k ih =>
    rcases h : step s with s' | r
    · obtain ⟨hI, hlt⟩ := hstep s s' hs h
      exact .of_inl h (ih _ (hm ▸ hlt) hI rfl)
    · exact .of_inr h

theorem not_ends (hstep : ∀ s, I s → ∃ s', step s = .inl s' ∧ I s') (hs : I s) : ¬ Ends step s := by
  rintro ⟨n, r, hn⟩
  induction n generalizing s with
  | zero => cases hn
  | succ n ih =>
    obtain ⟨s', h, hI⟩ := hstep s hs
    exact ih hI ((rounds_inl h n).symm.trans hn)

theorem exists_last (hstep : ∀ s s', I s → step s = .inl s' → I s') (hs : I s) {n : ℕ}
    (hn : rounds step n s = some r) : ∃ t, I t ∧ step t = .inr r := by
  induction n generalizing s with
  | zero => cases hn
  | succ n ih =>
    rcases h : step s with s' | r'
    · exact ih (hstep s s' hs h) ((rounds_inl h n).symm.trans hn)
    · cases (rounds_inr h n).symm.trans hn
      exact ⟨s, hs, h⟩

end VecDb.Loop

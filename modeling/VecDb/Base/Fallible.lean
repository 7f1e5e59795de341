import Mathlib.Data.List.Forall2

/-! # Computations that may fail

When a sequence of fallible steps, or one for each element of a list, succeeds.
-/

namespace VecDb.Fallible

open List

universe u v

variable {ε : Type v} {α β : Type u} {f : α → Except ε β} {l : List α} {l' : List β}
  {R : α → β → Prop} {x : Except ε α}

theorem bind_eq_ok {b : β} : (x >>= f) = .ok b ↔ ∃ a, x = .ok a ∧ f a = .ok b := by
  cases x with
  | error e => exact ⟨nofun, fun ⟨_, h, _⟩ => nomatch h⟩
  | ok a =>
    constructor
    · exact fun h => ⟨a, rfl, h⟩
    · rintro ⟨a', h, hf⟩
      cases h
      exact hf

theorem ok_eq_ok {a b : α} : (.ok a : Except ε α) = .ok b ↔ b = a :=
  ⟨fun h => (Except.ok.inj h).symm, fun h => congrArg _ h.symm⟩

theorem map_eq_ok {f : α → β} {b : β} : x.map f = .ok b ↔ ∃ a, x = .ok a ∧ f a = b := by
  cases x with
  | error e => exact ⟨nofun, fun ⟨_, h, _⟩ => nomatch h⟩
  | ok a =>
    constructor
    · exact fun h => ⟨a, rfl, Except.ok.inj h⟩
    · rintro ⟨a', h, rfl⟩
      cases h
      rfl

theorem mapM_eq_ok : l.mapM f = .ok l' ↔ List.Forall₂ (fun x y => f x = .ok y) l l' := by
  induction l generalizing l' with
  | nil =>
    rw [mapM_nil, forall₂_nil_left_iff]
    exact ⟨fun h => by cases h; rfl, fun h => by rw [h]; rfl⟩
  | cons x l ih =>
    rw [mapM_cons, bind_eq_ok, forall₂_cons_left_iff]
    constructor
    · rintro ⟨y, hy, h⟩
      obtain ⟨ys, hys, h⟩ := bind_eq_ok.mp h
      cases h
      exact ⟨y, ys, hy, ih.mp hys, rfl⟩
    · rintro ⟨y, ys, hy, hys, rfl⟩
      exact ⟨y, hy, bind_eq_ok.mpr ⟨ys, ih.mpr hys, rfl⟩⟩

theorem mapM_eq_error {e : ε} (h : l.mapM f = .error e) : ∃ x ∈ l, f x = .error e := by
  induction l with
  | nil => cases h
  | cons x l ih =>
    rw [mapM_cons] at h
    rcases hx : f x with e' | y <;> rw [hx] at h
    · cases h
      exact ⟨x, mem_cons_self, hx⟩
    · rcases hl : l.mapM f with e' | ys <;> rw [hl] at h <;> cases h
      obtain ⟨x', hx', he⟩ := ih hl
      exact ⟨x', mem_cons_of_mem _ hx', he⟩

theorem exists_forall₂ (h : ∀ x ∈ l, ∃ y, R x y) : ∃ l', List.Forall₂ R l l' := by
  induction l with
  | nil => exact ⟨[], .nil⟩
  | cons x l ih =>
    obtain ⟨y, hy⟩ := h x mem_cons_self
    obtain ⟨l', hl⟩ := ih fun z hz => h z (mem_cons_of_mem x hz)
    exact ⟨y :: l', .cons hy hl⟩

theorem forall₂_eq_map {g : α → β} : List.Forall₂ (fun x y => y = g x) l l' ↔ l' = l.map g := by
  induction l generalizing l' with
  | nil => simp
  | cons x l ih => simp [forall₂_cons_left_iff, ih]

theorem forall₂_comp {γ : Type*} {S : β → γ → Prop}
    {l' : List γ} : List.Forall₂ (fun x z => ∃ y, R x y ∧ S y z) l l' ↔
      ∃ m, List.Forall₂ R l m ∧ List.Forall₂ S m l' := by
  induction l generalizing l' with
  | nil => simp
  | cons x l ih =>
    simp only [forall₂_cons_left_iff, ih]
    constructor
    · rintro ⟨z, zs, ⟨y, hxy, hyz⟩, ⟨m, hm, hzs⟩, rfl⟩
      exact ⟨y :: m, ⟨y, m, hxy, hm, rfl⟩, .cons hyz hzs⟩
    · rintro ⟨_, ⟨y, m, hxy, hm, rfl⟩, h⟩
      obtain ⟨z, zs, hyz, hzs, rfl⟩ := forall₂_cons_left_iff.mp h
      exact ⟨z, zs, ⟨y, hxy, hyz⟩, ⟨m, hm, hzs⟩, rfl⟩

end VecDb.Fallible

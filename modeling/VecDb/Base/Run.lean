import Mathlib.Tactic.Common

/-! # Runs of partial step functions

A run takes a list of actions and stops at the first error. An invariant that steps under a
condition keep, and that lets them succeed, holds after the whole run. A monitor reads a trace and
may ask for a condition on its state and the next event at every place.
-/

namespace VecDb

open List

variable {S A E : Type*} (step : S → A → Except E S)

def exec (s : S) (as : List A) : Except E S := as.foldlM step s

/-- Every action of a run meets a condition in the state it is taken in. -/
def Along (P : S → A → Prop) : S → List A → Prop
  | _, [] => True
  | s, a :: as => P s a ∧ ∀ s', step s a = .ok s' → Along P s' as

def visited (s : S) : List A → List S
  | [] => [s]
  | a :: as =>
    s :: match step s a with
      | .ok s' => visited s' as
      | .error _ => []

variable {step} {P Q : S → A → Prop} {s s' : S} {a : A} {as bs : List A} {I : S → Prop}

@[simp] theorem exec_nil : exec step s [] = .ok s := rfl

theorem exec_cons (h : step s a = .ok s') : exec step s (a :: as) = exec step s' as := by
  rw [exec, foldlM_cons, h]; rfl

theorem exec_append (h : exec step s as = .ok s') : exec step s (as ++ bs) = exec step s' bs := by
  rw [exec] at h
  rw [exec, foldlM_append, h]; rfl

theorem along_cons (h : step s a = .ok s') :
    Along step P s (a :: as) ↔ P s a ∧ Along step P s' as := by
  refine and_congr_right fun _ => ⟨fun ha => ha s' h, fun ha t ht => ?_⟩
  cases h.symm.trans ht
  exact ha

theorem along_append (h : exec step s as = .ok s') :
    Along step P s (as ++ bs) ↔ Along step P s as ∧ Along step P s' bs := by
  induction as generalizing s with
  | nil =>
    cases h
    simp [Along]
  | cons a as ih =>
    rcases ht : step s a with e | t
    · rw [exec, foldlM_cons, ht] at h
      cases h
    · rw [exec_cons ht] at h
      rw [cons_append, along_cons ht, along_cons ht, ih h, and_assoc]

/-- The run rule: steps that meet the condition succeed and keep the invariant. -/
theorem Along.exec (hstep : ∀ s a, I s → P s a → ∃ s', step s a = .ok s' ∧ I s')
    (hs : I s) (hp : Along step P s as) : ∃ s', VecDb.exec step s as = .ok s' ∧ I s' := by
  induction as generalizing s with
  | nil => exact ⟨s, rfl, hs⟩
  | cons a as ih =>
    obtain ⟨t, ht, hi⟩ := hstep s a hs hp.1
    rw [exec_cons ht]
    exact ih hi (hp.2 t ht)

theorem Along.visited (hstep : ∀ s a s', I s → P s a → step s a = .ok s' → I s') (hs : I s)
    (hp : Along step P s as) : ∀ t ∈ visited step s as, I t := by
  induction as generalizing s with
  | nil =>
    intro t ht
    obtain rfl := mem_singleton.mp ht
    exact hs
  | cons a as ih =>
    intro t ht
    rw [VecDb.visited] at ht
    rcases mem_cons.mp ht with rfl | ht
    · exact hs
    · rcases hsa : step s a with e | s' <;> rw [hsa] at ht
      · cases ht
      · exact ih (hstep s a s' hs hp.1 hsa) (hp.2 s' hsa) t ht

theorem mem_visited (h : VecDb.exec step s as = .ok s') : s' ∈ visited step s as := by
  induction as generalizing s with
  | nil =>
    cases h
    exact mem_singleton_self _
  | cons a as ih =>
    rcases ht : step s a with e | t
    · rw [VecDb.exec, foldlM_cons, ht] at h; cases h
    · rw [exec_cons ht] at h
      rw [VecDb.visited, ht]
      exact mem_cons_of_mem _ (ih h)

theorem exec_invariant (hstep : ∀ s a s', I s → a ∈ as → step s a = .ok s' →
    I s') (hs : I s) (h : VecDb.exec step s as = .ok s') : I s' := by
  induction as generalizing s with
  | nil => cases h; exact hs
  | cons a as ih =>
    rcases ht : step s a with e | t
    · rw [VecDb.exec, foldlM_cons, ht] at h; cases h
    · rw [exec_cons ht] at h
      exact ih (fun s b s' hi hb => hstep s b s' hi (mem_cons_of_mem _ hb))
        (hstep s a t hs mem_cons_self ht) h

theorem Along.of_forall (h : ∀ a ∈ as, ∀ s, P s a) : Along step P s as := by
  induction as generalizing s with
  | nil => trivial
  | cons a as ih =>
    exact ⟨h a (by simp) s, fun t _ => ih fun b hb => h b (mem_cons_of_mem _ hb)⟩

theorem Along.and (hp : Along step P s as) (hq : Along step Q s as) :
    Along step (fun s a => P s a ∧ Q s a) s as := by
  induction as generalizing s with
  | nil => trivial
  | cons a as ih => exact ⟨⟨hp.1, hq.1⟩, fun t ht => ih (hp.2 t ht) (hq.2 t ht)⟩

section Evaluate

instance decidableExistsOk {α : Type*} {x : Except E α} {R : α → Prop} [DecidablePred R] :
    Decidable (∃ y, x = .ok y ∧ R y) :=
  match x with
  | .error _ => .isFalse fun ⟨_, h, _⟩ => nomatch h
  | .ok y => decidable_of_iff (R y) ⟨fun h => ⟨y, rfl, h⟩, fun ⟨_, h, hr⟩ => by cases h; exact hr⟩

instance decidableForallSome {α : Type*} {x : Option α} {R : α → Prop} [DecidablePred R] :
    Decidable (∀ y, x = some y → R y) :=
  match x with
  | none => .isTrue fun _ h => nomatch h
  | some y => decidable_of_iff (R y) ⟨fun h _ hy => by cases hy; exact h, fun h => h y rfl⟩

instance decidableAlong [∀ s a, Decidable (P s a)] : ∀ s as, Decidable (Along step P s as)
  | _, [] => .isTrue trivial
  | s, a :: as =>
    match h : step s a with
    | .error _ => decidable_of_iff (P s a) ⟨fun hp => ⟨hp, fun _ hs => nomatch h.symm.trans hs⟩,
        fun hp => hp.1⟩
    | .ok s' => @decidable_of_iff' _ (P s a ∧ Along step P s' as) (along_cons h)
        (@instDecidableAnd _ _ _ (decidableAlong s' as))

end Evaluate

variable {σ E : Type*} (next : σ → E → σ) (P : σ → E → Prop)

/-- Every event of a trace meets a condition in the state that the monitor has there. -/
def Watched : σ → List E → Prop
  | _, [] => True
  | st, e :: es => P st e ∧ Watched (next st e) es

variable {next P} {st : σ} {e : E} {es es' : List E}

theorem watched_singleton : Watched next P st [e] ↔ P st e := and_iff_left trivial

theorem watched_append : Watched next P st (es ++ es') ↔
      Watched next P st es ∧ Watched next P (es.foldl next st) es' := by
  induction es generalizing st with
  | nil => exact (and_iff_right trivial).symm
  | cons e es ih => rw [List.cons_append, Watched, Watched, ih, List.foldl_cons, and_assoc]

theorem Watched.mono {Q : σ → E → Prop} (h : ∀ st e, P st e → Q st e) :
    Watched next P st es → Watched next Q st es := by
  induction es generalizing st with
  | nil => exact fun _ => trivial
  | cons e es ih => exact fun hp => ⟨h st e hp.1, ih hp.2⟩

instance decidableWatched [∀ st e, Decidable (P st e)] : ∀ st es, Decidable (Watched next P st es)
  | _, [] => .isTrue trivial
  | st, e :: es => @instDecidableAnd (P st e) _ _ (decidableWatched (next st e) es)

end VecDb

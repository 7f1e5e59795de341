import Mathlib.Data.List.Basic

/-! # Least-recently-used caches

A bounded list of entries, the one used last in front. What holds of every entry that is
put in holds of every answer.
-/

namespace VecDb

open List

structure Lru (κ ν : Type*) where
  cap : ℕ
  entries : List (κ × ν) := []

namespace Lru

variable {κ ν : Type*} [DecidableEq κ] {c : Lru κ ν} {k : κ} {v : ν} {P : κ → ν → Prop}

def get (c : Lru κ ν) (k : κ) : Lru κ ν × Option ν :=
  match c.entries.find? fun e => e.1 = k with
  | none => (c, none)
  | some e => ({ c with entries := e :: c.entries.filter fun e => e.1 ≠ k }, some e.2)

def put (c : Lru κ ν) (k : κ) (v : ν) : Lru κ ν :=
  if c.entries.any fun e => e.1 = k then
    { c with entries := (k, v) :: c.entries.filter fun e => e.1 ≠ k }
  else
    let entries := (k, v) :: c.entries
    { c with entries := if c.cap < entries.length then entries.dropLast else entries }

def All (P : κ → ν → Prop) (c : Lru κ ν) : Prop := ∀ e ∈ c.entries, P e.1 e.2

theorem All.get (h : c.All P) (k : κ) : (c.get k).1.All P := by
  unfold Lru.get
  split
  · exact h
  · rename_i e he
    intro e' he'
    rcases mem_cons.mp he' with rfl | he'
    · exact h _ (mem_of_find?_eq_some he)
    · exact h _ (mem_of_mem_filter he')

theorem All.of_get (h : c.All P) (hv : (c.get k).2 = some v) : P k v := by
  unfold Lru.get at hv
  split at hv
  · cases hv
  · rename_i e he
    cases hv
    have hk := find?_some he
    rw [decide_eq_true_iff] at hk
    exact hk ▸ h e (mem_of_find?_eq_some he)

theorem All.put (h : c.All P) (hv : P k v) : (c.put k v).All P := by
  have hcons : ∀ e ∈ (k, v) :: c.entries, P e.1 e.2 := by
    intro e he
    rcases mem_cons.mp he with rfl | he
    · exact hv
    · exact h e he
  unfold Lru.put
  split
  · intro e he
    rcases mem_cons.mp he with rfl | he
    · exact hv
    · exact h e (mem_of_mem_filter he)
  · dsimp only
    split
    · exact fun e he => hcons e ((dropLast_sublist _).subset he)
    · exact hcons

end Lru

end VecDb

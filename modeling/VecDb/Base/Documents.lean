import VecDb.Base.Assoc
import VecDb.Base.Run

/-! # Histories of documents

Documents are added under a key, replaced and removed. An index whose contents follow the calls has
those of the survivors, as a new index has to which they are added.
-/

namespace VecDb.Documents

open List

inductive Op (κ α : Type*)
  | add (key : κ) (doc : α)
  | remove (key : κ)

variable {κ α S : Type*} [DecidableEq κ] {docs l : List (κ × α)} {key x : κ} {doc : α}

/-- What survives a call, each document as it was added last. -/
def survive (docs : List (κ × α)) : Op κ α → List (κ × α)
  | .add key doc => (docs.filter fun d => d.1 ≠ key) ++ [(key, doc)]
  | .remove key => docs.filter fun d => d.1 ≠ key

theorem lookup_survive_add :
    (survive docs (.add key doc)).lookup x = if x = key then some doc else docs.lookup x := by
  rw [survive, lookup_append, Assoc.lookup_filter_ne, Assoc.lookup_cons_ite]
  split <;> simp

theorem filter_eq_self (h : key ∉ docs.map Prod.fst) : (docs.filter fun d => d.1 ≠ key) = docs := by
  refine List.filter_eq_self.mpr fun d hd => decide_eq_true fun heq => h ?_
  exact heq ▸ mem_map_of_mem hd

theorem nodup_survive (h : (docs.map Prod.fst).Nodup) (op : Op κ α) :
    ((survive docs op).map Prod.fst).Nodup := by
  have hfilter : ∀ key, ((docs.filter fun d => d.1 ≠ key).map Prod.fst).Nodup := fun _ =>
    h.sublist (filter_sublist.map _)
  cases op with
  | add key doc =>
    rw [survive, map_append, nodup_append]
    refine ⟨hfilter key, by simp, ?_⟩
    simp
  | remove key => exact hfilter key

section Keeps

variable (act : S → Op κ α → S) (Fit : S → Op κ α → Prop) (New : S → Prop)
  (Holds : S → List (κ × α) → Prop)

def step (s : S) (op : Op κ α) : Except Empty S := .ok (act s op)

/-- What an index holds follows the calls that fit, and a new index takes every document. -/
structure Keeps : Prop where
  survive : ∀ {s docs op}, Holds s docs → Fit s op → Holds (act s op) (survive docs op)
  new : ∀ {s docs key} (doc), Holds s docs → New s → key ∉ docs.map Prod.fst →
    Fit s (.add key doc) ∧ New (act s (.add key doc))
  nodup : ∀ {s docs}, Holds s docs → (docs.map Prod.fst).Nodup
  perm : ∀ {s docs docs'}, Holds s docs → docs.Perm docs' → Holds s docs'

variable {act Fit New Holds} {s : S} {ops : List (Op κ α)}

theorem Keeps.run (hk : Keeps act Fit New Holds) (h : Holds s docs)
    (hf : Along (step act) Fit s ops) : Holds (ops.foldl act s) (ops.foldl Documents.survive docs) := by
  induction ops generalizing s docs with
  | nil => exact h
  | cons op ops ih => exact ih (hk.survive h hf.1) (hf.2 _ rfl)

theorem Keeps.adds (hk : Keeps act Fit New Holds) (h : Holds s docs) (hn : New s)
    (hl : ((docs ++ l).map Prod.fst).Nodup) :
    Holds (l.foldl (fun s d => act s (.add d.1 d.2)) s) (docs ++ l) := by
  induction l generalizing s docs with
  | nil => simpa using h
  | cons d l ih =>
    have hd : d.1 ∉ docs.map Prod.fst := by
      rw [map_append, nodup_append] at hl
      exact fun hmem => hl.2.2 _ hmem _ (by simp) rfl
    obtain ⟨hfit, hnew⟩ := hk.new d.2 h hn hd
    have hadd := hk.survive h hfit
    rw [Documents.survive, filter_eq_self hd] at hadd
    rw [append_cons]
    exact ih hadd hnew (by simpa using hl)

/-- After the calls of a history, an index holds what a new one with the survivors holds. -/
theorem Keeps.fresh (hk : Keeps act Fit New Holds) (h : Holds s []) (hn : New s)
    (hf : Along (step act) Fit s ops) (hdocs : docs.Perm (ops.foldl Documents.survive [])) :
    Holds (ops.foldl act s) docs ∧ Holds (docs.foldl (fun s d => act s (.add d.1 d.2)) s) docs := by
  have hrun := hk.perm (hk.run h hf) hdocs.symm
  exact ⟨hrun, hk.adds h hn (hk.nodup hrun)⟩

end Keeps

end VecDb.Documents

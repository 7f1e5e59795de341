import Mathlib.Algebra.Ring.Int.Defs
import Mathlib.Data.Finset.Basic
import Mathlib.Data.List.AList
import Mathlib.Data.Prod.Lex
import VecDb.Base.Documents
import VecDb.Base.Ranking

/-! # The sparse index

Each dimension has a list of the documents with a weight there, and a removed document is only
marked. Adding a document takes the mark away, and with it comes whatever the lists still have of
an earlier vector.
-/

namespace VecDb.Hybrid

open Documents List

section TopK

variable {R : Type*}

def rank (a : UInt32 × R) : Rᵒᵈ ×ₗ ℕ := toLex (OrderDual.toDual a.2, a.1.toNat)

theorem rank_injective : Function.Injective (rank (R := R)) := by
  rintro ⟨p, r⟩ ⟨q, t⟩ h
  simp only [rank, EmbeddingLike.apply_eq_iff_eq, Prod.mk.injEq, UInt32.toNat_inj] at h
  rw [h.1, h.2]

variable [LinearOrder R]

def better (a b : UInt32 × R) : Bool := if a.2 ≠ b.2 then b.2 < a.2 else a.1 < b.1

def topKByScore (scores : List (UInt32 × R)) (k : ℕ) : List (UInt32 × R) :=
  (scores.mergeSort fun a b => !better b a).take k

theorem better_iff {a b : UInt32 × R} : better a b = true ↔ rank a < rank b := by
  unfold better rank
  rw [Prod.Lex.toLex_lt_toLex]
  by_cases h : a.2 = b.2 <;> simp [h, UInt32.lt_iff_toNat_lt]

theorem not_better_iff (a b : UInt32 × R) : (!better b a) = true ↔ rank a ≤ rank b := by
  rw [Bool.not_eq_true', ← Bool.not_eq_true, better_iff, not_lt]

theorem topKByScore_of_perm {l l' : List (UInt32 × R)} (h : l.Perm l') (k : ℕ) :
    topKByScore l k = topKByScore l' k := by
  rw [topKByScore, topKByScore, Ranking.mergeSort_eq_of_perm not_better_iff rank_injective h]

end TopK

structure SparsePair (R : Type*) where
  index : UInt32
  value : R
  deriving DecidableEq

structure SparsePosting (R : Type*) where
  pos : UInt32
  weight : R

structure SparseIndex (R : Type*) where
  postings : AList fun _ : UInt32 => List (SparsePosting R) := ∅
  deleted : Finset UInt32 := ∅
  docCount : ℤ := 0

namespace SparseIndex

variable {R : Type*} {idx idx' : SparseIndex R} {pos p dim : UInt32}

def list (idx : SparseIndex R) (dim : UInt32) : List (SparsePosting R) :=
  (idx.postings.lookup dim).getD []

def posted (idx : SparseIndex R) (pos : UInt32) : Bool :=
  idx.postings.entries.any fun e => e.2.any fun sp => sp.pos = pos

theorem posted_eq_false : idx.posted pos = false ↔
    ∀ dim, ((idx.list dim).filter fun sp => sp.pos = pos) = [] := by
  simp only [posted, any_eq_false, filter_eq_nil_iff, Bool.not_eq_true, decide_eq_true_eq, list]
  constructor
  · intro h dim sp hsp
    rcases hl : idx.postings.lookup dim with _ | l <;> rw [hl] at hsp
    · cases hsp
    · exact h ⟨dim, l⟩ (AList.mem_lookup_iff.mp hl) sp hsp
  · intro h e he sp hsp
    have hl : idx.postings.lookup e.1 = some e.2 := AList.mem_lookup_iff.mpr he
    exact h e.1 sp (by rwa [hl])

def remove (idx : SparseIndex R) (pos : UInt32) : SparseIndex R :=
  if pos ∈ idx.deleted then idx
  else if idx.posted pos then
    { idx with deleted := insert pos idx.deleted, docCount := idx.docCount - 1 }
  else idx

theorem list_remove : (idx.remove pos).list dim = idx.list dim := by
  unfold remove
  split_ifs <;> rfl

theorem mem_deleted_remove :
    p ∈ (idx.remove pos).deleted ↔ p ∈ idx.deleted ∨ p = pos ∧ idx.posted pos = true := by
  unfold remove
  split_ifs with hdel hpost
  · refine ⟨.inl, ?_⟩
    rintro (h | ⟨rfl, -⟩)
    · exact h
    · exact hdel
  · simp [hpost, or_comm]
  · simp [hpost]

variable [LinearOrder R] [Zero R]

def post (pos : UInt32) (idx : SparseIndex R) (p : SparsePair R) : SparseIndex R :=
  if p.value = 0 then idx
  else { idx with postings := idx.postings.insert p.index (idx.list p.index ++ [⟨pos, p.value⟩]) }

def addDoc (idx : SparseIndex R) (pos : UInt32) (vec : List (SparsePair R)) : SparseIndex R :=
  let idx := idx.remove pos
  let idx := vec.foldl (post pos) { idx with deleted := idx.deleted.erase pos }
  { idx with docCount := idx.docCount + 1 }

def act (idx : SparseIndex R) : Op UInt32 (List (SparsePair R)) → SparseIndex R
  | .add pos vec => idx.addDoc pos vec
  | .remove pos => idx.remove pos

/-- A document is added where the lists have nothing of its position. -/
def Fresh (idx : SparseIndex R) : Op UInt32 (List (SparsePair R)) → Prop
  | .add pos _ => idx.posted pos = false
  | .remove _ => True

def weights (dim pos : UInt32) (doc : Option (List (SparsePair R))) : List (SparsePosting R) :=
  ((doc.getD []).filter fun p => p.index = dim ∧ p.value ≠ 0).map fun p => ⟨pos, p.value⟩

/-- The live postings are those of the documents. -/
structure Holds (idx : SparseIndex R) (docs : List (UInt32 × List (SparsePair R))) : Prop where
  keys : (docs.map Prod.fst).Nodup
  live : ∀ dim p, p ∉ idx.deleted →
    ((idx.list dim).filter fun sp => sp.pos = p) = weights dim p (docs.lookup p)
  dead : ∀ p ∈ idx.deleted, docs.lookup p = none

variable {docs docs' : List (UInt32 × List (SparsePair R))} {vec : List (SparsePair R)}

theorem filter_weights {doc : Option (List (SparsePair R))} :
    ((weights dim pos doc).filter fun sp => sp.pos = p) =
      if pos = p then weights dim pos doc else [] := by
  split <;> simp [weights, filter_map, Function.comp_def, *]

theorem foldl_post (vec : List (SparsePair R)) (dim : UInt32) :
    (vec.foldl (post pos) idx).list dim = idx.list dim ++ weights dim pos (some vec) ∧
      (vec.foldl (post pos) idx).deleted = idx.deleted := by
  induction vec generalizing idx with
  | nil => simp [weights]
  | cons p vec ih =>
    obtain ⟨hlist, hdel⟩ := @ih (post pos idx p)
    rw [foldl_cons, hlist, hdel, post]
    by_cases hv : p.value = 0
    · simp [hv, weights]
    · by_cases hd : p.index = dim
      · subst hd
        simp [hv, weights, list]
      · have hne : dim ≠ p.index := Ne.symm hd
        simp [hv, hd, weights, list, AList.lookup_insert_ne hne]

theorem list_addDoc :
    (idx.addDoc pos vec).list dim = idx.list dim ++ weights dim pos (some vec) := by
  have hlist : (idx.addDoc pos vec).list dim =
      (idx.remove pos).list dim ++ weights dim pos (some vec) := (foldl_post vec dim).1
  rw [hlist, list_remove]

theorem mem_deleted_addDoc : p ∈ (idx.addDoc pos vec).deleted ↔ p ≠ pos ∧ p ∈ idx.deleted := by
  have hdel : (idx.addDoc pos vec).deleted = (idx.remove pos).deleted.erase pos :=
    (foldl_post vec 0).2
  rw [hdel, Finset.mem_erase, mem_deleted_remove]
  exact and_congr_right fun hne => or_iff_left fun h => hne h.1

theorem Holds.perm (h : idx.Holds docs) (hp : docs.Perm docs') : idx.Holds docs' := by
  have hlookup := Assoc.lookup_of_perm h.keys hp
  constructor
  · exact (hp.map _).nodup_iff.mp h.keys
  · simpa only [hlookup] using h.live
  · simpa only [hlookup] using h.dead

theorem Holds.add (h : idx.Holds docs) (hp : idx.posted pos = false) (vec : List (SparsePair R)) :
    (idx.addDoc pos vec).Holds (survive docs (.add pos vec)) := by
  refine ⟨nodup_survive h.keys _, fun dim p hdel => ?_, fun p hdel => ?_⟩
  · rw [mem_deleted_addDoc] at hdel
    rw [list_addDoc, filter_append, filter_weights, lookup_survive_add]
    by_cases heq : p = pos
    · subst heq
      simp [posted_eq_false.mp hp dim]
    · simp [heq, Ne.symm heq, h.live dim p (by simpa [heq] using hdel)]
  · rw [mem_deleted_addDoc] at hdel
    rw [lookup_survive_add, if_neg hdel.1, h.dead p hdel.2]

theorem Holds.remove (h : idx.Holds docs) (pos : UInt32) :
    (idx.remove pos).Holds (survive docs (.remove pos)) := by
  refine ⟨nodup_survive h.keys _, fun dim p hp => ?_, fun p hp => ?_⟩
  · rw [mem_deleted_remove, not_or] at hp
    rw [list_remove, survive, Assoc.lookup_filter_ne]
    split
    · rename_i heq
      have hpost : idx.posted pos = false := by simpa [heq] using hp.2
      rw [heq, posted_eq_false.mp hpost]
      rfl
    · exact h.live dim p hp.1
  · rw [survive, Assoc.lookup_filter_ne]
    rcases mem_deleted_remove.mp hp with hp | ⟨rfl, -⟩
    · rw [h.dead p hp, ite_self]
    · exact if_pos rfl

theorem keeps : Keeps act Fresh (fun idx => idx.deleted = ∅) (Holds (R := R)) where
  survive {idx docs op} h hf := by
    cases op with
    | add pos vec => exact h.add hf vec
    | remove pos => exact h.remove pos
  new {idx docs pos} vec h hnew hpos := by
    have hnone : docs.lookup pos = none := by
      refine lookup_eq_none_iff.mpr fun d hd => bne_iff_ne.mpr ?_
      exact fun heq => hpos (heq ▸ mem_map_of_mem hd)
    have hpost : idx.posted pos = false := by
      refine posted_eq_false.mpr fun dim => ?_
      rw [h.live dim pos (by simp [hnew]), hnone]
      rfl
    exact ⟨hpost, Finset.eq_empty_of_forall_notMem fun p hp => by
      simp [act, mem_deleted_addDoc, hnew] at hp⟩
  nodup h := h.keys
  perm h hp := h.perm hp

theorem Holds.live_postings (h : idx.Holds docs) (g : UInt32 → Bool) (dim p : UInt32) :
    (((idx.list dim).filter fun dp => dp.pos ∉ idx.deleted ∧ g dp.pos).filter
      fun dp => dp.pos = p) = (weights dim p (docs.lookup p)).filter fun dp => g dp.pos := by
  rw [filter_comm]
  by_cases hp : p ∈ idx.deleted
  · rw [h.dead p hp, filter_eq_nil_iff.mpr]
    · rfl
    · intro dp hdp
      simp_all
  · rw [h.live dim p hp]
    refine filter_congr fun dp hdp => ?_
    obtain ⟨x, -, rfl⟩ := mem_map.mp hdp
    simp [hp]

variable [Add R] [Mul R]

def hits (idx : SparseIndex R) (query : List (SparsePair R)) (filter : UInt32 → Bool) :
    List (UInt32 × R) :=
  query.flatMap fun qp =>
    if qp.value = 0 then []
    else ((idx.list qp.index).filter fun dp => dp.pos ∉ idx.deleted ∧ filter dp.pos).map
      fun dp => (dp.pos, qp.value * dp.weight)

def search (idx : SparseIndex R) (query : List (SparsePair R)) (k : ℤ) (filter : UInt32 → Bool) :
    List (UInt32 × R) :=
  if k ≤ 0 then [] else topKByScore (Ranking.addAll (idx.hits query filter)) k.toNat

/-- Two indexes that hold the same documents answer every query alike. -/
theorem Holds.search_eq (h : idx.Holds docs) (h' : idx'.Holds docs) (query : List (SparsePair R))
    (k : ℤ) (filter : UInt32 → Bool) : idx.search query k filter = idx'.search query k filter := by
  rw [search, search]
  split
  · rfl
  refine topKByScore_of_perm (Ranking.addAll_perm fun p => ?_) _
  rw [hits, hits, filter_flatMap, filter_flatMap]
  refine flatMap_congr fun qp _ => ?_
  split
  · rfl
  · rw [filter_map, filter_map]
    exact congrArg _ ((h.live_postings filter qp.index p).trans
      (h'.live_postings filter qp.index p).symm)

/-- After a history that adds documents only where no posting of the position is left, a search
answers as a fresh index of the survivors. -/
theorem sparse_search_after_history (ops : List (Op UInt32 (List (SparsePair R))))
    (hf : Along (step act) Fresh {} ops) (docs : List (UInt32 × List (SparsePair R)))
    (hdocs : docs.Perm (ops.foldl survive [])) (query : List (SparsePair R)) (k : ℤ)
    (filter : UInt32 → Bool) :
    (ops.foldl act ({} : SparseIndex R)).search query k filter =
      (docs.foldl (fun idx d => addDoc idx d.1 d.2) {}).search query k filter := by
  have hempty : ({} : SparseIndex R).Holds [] := ⟨by simp, fun _ _ _ => rfl, fun _ _ => rfl⟩
  obtain ⟨hrun, hfresh⟩ := keeps.fresh hempty rfl hf hdocs
  exact hrun.search_eq hfresh query k filter

theorem sparse_search_two :
    ([.add 1 [⟨0, 2⟩], .add 2 [⟨0, 3⟩], .remove 1].foldl act ({} : SparseIndex ℤ)).search [⟨0, 5⟩] 9
        (fun _ => true) =
      (({} : SparseIndex ℤ).addDoc 2 [⟨0, 3⟩]).search [⟨0, 5⟩] 9 fun _ => true := by
  refine sparse_search_after_history [.add 1 [⟨0, 2⟩], .add 2 [⟨0, 3⟩], .remove 1] ⟨rfl, ?_⟩
    [(2, [⟨0, 3⟩])] (by decide) _ _ _
  rintro _ ⟨⟩
  exact ⟨show posted _ _ = _ by decide +kernel, fun _ _ => ⟨trivial, fun _ _ => trivial⟩⟩

theorem replaced_vector_counts :
    ([.add 1 [⟨0, 2⟩], .add 1 [⟨0, 2⟩]].foldl act ({} : SparseIndex ℤ)).search [⟨0, 1⟩] 1
        (fun _ => true) = [(1, 4)] ∧
      (({} : SparseIndex ℤ).addDoc 1 [⟨0, 2⟩]).search [⟨0, 1⟩] 1 (fun _ => true) = [(1, 2)] := by
  decide +kernel

end SparseIndex

end VecDb.Hybrid

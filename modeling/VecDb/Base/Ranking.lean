import Mathlib.Data.List.Perm.Basic
import Mathlib.Data.List.Sort
import VecDb.Base.Assoc

/-! # Ranking by a key

Sorting by an injective rank does not depend on the order of what is sorted. Contributions to keys
are added up in their order.
-/

namespace VecDb.Ranking

section Sorting

variable {α L : Type*} [LinearOrder L] {le : α → α → Bool} {rank : α → L} {l l' : List α}
  (hle : ∀ a b, le a b = true ↔ rank a ≤ rank b)

include hle

theorem pairwise_mergeSort (l : List α) : (l.mergeSort le).Pairwise fun a b => rank a ≤ rank b := by
  have h := @List.pairwise_mergeSort _ le (fun a b c => by simpa [hle] using le_trans)
    (fun a b => by simpa [hle] using le_total _ _) l
  simpa [hle] using h

theorem pairwise_lt_mergeSort (hl : l.Nodup) (hinj : ∀ a ∈ l, ∀ b ∈ l, rank a = rank b → a = b) :
    (l.mergeSort le).Pairwise fun a b => rank a < rank b := by
  have hperm := List.mergeSort_perm l le
  refine ((pairwise_mergeSort hle l).and (hperm.nodup_iff.mpr hl)).imp_of_mem fun ha hb hab => ?_
  refine lt_of_le_of_ne hab.1 fun heq => hab.2 ?_
  exact hinj _ (hperm.mem_iff.mp ha) _ (hperm.mem_iff.mp hb) heq

variable (hinj : Function.Injective rank)

include hinj

theorem mergeSort_eq_of_perm (h : l.Perm l') : l.mergeSort le = l'.mergeSort le := by
  have hperm : (l.mergeSort le).Perm (l'.mergeSort le) :=
    (List.mergeSort_perm l le).trans (h.trans (List.mergeSort_perm l' le).symm)
  refine hperm.eq_of_pairwise (fun a b _ _ hab hba => hinj (le_antisymm hab hba))
    (pairwise_mergeSort hle l) (pairwise_mergeSort hle l')

end Sorting

section AddAll

variable {κ R : Type*} [DecidableEq κ] [Add R] [Zero R] {hits hits' : List (κ × R)} {k : κ}

/-- Add up the contributions to each key. -/
def addAll (hits : List (κ × R)) : List (κ × R) :=
  hits.foldl (fun scores h => Assoc.upsert h.1 (fun v => v.getD 0 + h.2) scores) []

theorem nodup_addAll : ((addAll hits).map Prod.fst).Nodup := Assoc.nodup_keys_foldl (by simp)

theorem lookup_addAll : (addAll hits).lookup k =
    (hits.filter fun h => h.1 = k).foldl (fun v h => some (v.getD 0 + h.2)) none := by
  suffices ∀ m : List (κ × R),
      (hits.foldl (fun scores h => Assoc.upsert h.1 (fun v => v.getD 0 + h.2) scores) m).lookup k =
        (hits.filter fun h => h.1 = k).foldl (fun v h => some (v.getD 0 + h.2)) (m.lookup k) from
    this []
  induction hits with
  | nil => simp
  | cons h hits ih =>
    intro m
    rw [List.foldl_cons, ih, Assoc.lookup_upsert]
    by_cases hk : h.1 = k
    · simp [hk]
    · simp [hk, Ne.symm hk]

theorem addAll_perm (h : ∀ k, (hits.filter fun h => h.1 = k) = hits'.filter fun h => h.1 = k) :
    (addAll hits).Perm (addAll hits') := by
  refine (List.perm_ext_iff_of_nodup (List.Nodup.of_map _ nodup_addAll)
    (List.Nodup.of_map _ nodup_addAll)).mpr fun x => ?_
  rw [← Assoc.lookup_iff_mem nodup_addAll, ← Assoc.lookup_iff_mem nodup_addAll, lookup_addAll,
    lookup_addAll, h]

end AddAll

end VecDb.Ranking

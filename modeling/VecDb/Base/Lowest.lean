import Mathlib.Data.List.Perm.Subperm
import Mathlib.Data.Set.Basic

/-! # The lowest elements of a set

The `k` elements of lowest rank, in order, or all elements if there are no more. Such a list is
unique.
-/

namespace VecDb

open List

variable {α β : Type*} [LinearOrder β] {rank : α → β}

structure Lowest (rank : α → β) (s : Set α) (k : ℕ) (l : List α) : Prop where
  sorted : l.Pairwise fun x y => rank x < rank y
  mem : ∀ x ∈ l, x ∈ s
  length_le : l.length ≤ k
  rest : ∀ x ∈ s, x ∉ l → l.length = k ∧ ∀ y ∈ l, rank y < rank x

namespace Lowest

variable {s : Set α} {p : α → Prop} {k j : ℕ} {l m : List α}

theorem nodup (h : Lowest rank s k l) : l.Nodup :=
  h.sorted.imp fun hlt heq => (heq ▸ hlt).false

theorem eq_of_mem_iff (hl : l.Pairwise fun x y => rank x < rank y)
    (hm : m.Pairwise fun x y => rank x < rank y) (h : ∀ x, x ∈ l ↔ x ∈ m) : l = m := by
  have hnodup : ∀ {l : List α}, l.Pairwise (fun x y => rank x < rank y) → l.Nodup :=
    fun hl => hl.imp fun hlt heq => (heq ▸ hlt).false
  refine List.Perm.eq_of_pairwise (fun x y _ _ hxy hyx => ?_) hl hm
    ((perm_ext_iff_of_nodup (hnodup hl) (hnodup hm)).mpr h)
  exact absurd hxy hyx.not_gt

theorem subset_of_subset {t : Set α} (hl : Lowest rank s k l) (hm : Lowest rank t k m)
    (hst : t ⊆ s) (hlt : ∀ x ∈ l, x ∈ t) : ∀ x ∈ m, x ∈ l := by
  intro x hx
  by_contra hxl
  obtain ⟨hlen, hlow⟩ := hl.rest x (hst (hm.mem x hx)) hxl
  have hsub : l ⊆ m := by
    intro y hy
    by_contra hym
    exact absurd ((hm.rest y (hlt y hy) hym).2 x hx) (hlow y hy).not_gt
  have hperm := (subperm_of_subset hl.nodup hsub).perm_of_length_le (hlen ▸ hm.length_le)
  exact hxl (hperm.mem_iff.mpr hx)

theorem unique (hl : Lowest rank s k l) (hm : Lowest rank s k m) : l = m :=
  eq_of_mem_iff hl.sorted hm.sorted fun x =>
    ⟨hm.subset_of_subset hl subset_rfl hm.mem x, hl.subset_of_subset hm subset_rfl hl.mem x⟩

theorem self (hl : l.Pairwise fun x y => rank x < rank y) (hk : l.length ≤ k) :
    Lowest rank {x | x ∈ l} k l :=
  ⟨hl, fun _ h => h, hk, fun _ h hn => absurd h hn⟩

theorem take (h : Lowest rank s k l) (hj : j ≤ k) : Lowest rank s j (l.take j) := by
  refine ⟨h.sorted.sublist (take_sublist j l), fun x hx => h.mem x (mem_of_mem_take hx),
    length_take_le j l, fun x hx hn => ?_⟩
  rw [length_take]
  by_cases hxl : x ∈ l
  · -- what was cut off comes after what was not
    have hdrop : x ∈ l.drop j := by
      rw [← take_append_drop j l, mem_append] at hxl
      exact hxl.resolve_left hn
    have hsorted := h.sorted
    rw [← take_append_drop j l, pairwise_append] at hsorted
    have hpos := length_pos_of_mem hdrop
    rw [length_drop] at hpos
    exact ⟨by omega, fun y hy => hsorted.2.2 y hy x hdrop⟩
  · obtain ⟨hlen, hlow⟩ := h.rest x hx hxl
    exact ⟨by omega, fun y hy => hlow y (mem_of_mem_take hy)⟩

theorem mem_of_subset (hm : Lowest rank s k m) (hsub : ∀ x ∈ m, x ∈ l) (hk : l.length ≤ k) {x : α}
    (hx : x ∈ l) (hs : x ∈ s) : x ∈ m := by
  by_contra hxm
  obtain ⟨hlen, -⟩ := hm.rest x hs hxm
  have hcons : (x :: m).Subperm l := by
    refine subperm_of_subset (nodup_cons.mpr ⟨hxm, hm.nodup⟩) ?_
    exact cons_subset.mpr ⟨hx, hsub⟩
  have hle := hcons.length_le.trans hk
  rw [length_cons] at hle
  omega

theorem filter_eq_iff [DecidablePred p] (hl : Lowest rank s k l)
    (hm : Lowest rank {x ∈ s | p x} k m) :
    l.filter (fun x => decide (p x)) = m ↔ ∀ x ∈ m, x ∈ l := by
  constructor
  · rintro rfl x hx
    exact mem_of_mem_filter hx
  · intro hsub
    refine eq_of_mem_iff (hl.sorted.sublist filter_sublist) hm.sorted fun x => ?_
    rw [mem_filter, decide_eq_true_iff]
    constructor
    · exact fun hx => hm.mem_of_subset hsub hl.length_le hx.1 ⟨hl.mem x hx.1, hx.2⟩
    · exact fun hx => ⟨hsub x hx, (hm.mem x hx).2⟩

theorem eq_iff (hl : Lowest rank s k l) (hm : Lowest rank {x ∈ s | p x} k m) :
    l = m ↔ ∀ x ∈ l, p x := by
  constructor
  · rintro rfl x hx
    exact (hm.mem x hx).2
  · intro hp
    have hlt : ∀ x ∈ l, x ∈ {x ∈ s | p x} := fun x hx => ⟨hl.mem x hx, hp x hx⟩
    have hsub := hl.subset_of_subset hm (fun _ hx => hx.1) hlt
    refine eq_of_mem_iff hl.sorted hm.sorted fun x => ⟨fun hx => ?_, hsub x⟩
    exact hm.mem_of_subset hsub hl.length_le hx (hlt x hx)

end Lowest

end VecDb

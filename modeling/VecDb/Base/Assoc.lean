import Mathlib.Data.List.Nodup

/-! # Association lists

Maps as lists of pairs, in the order in which the keys first came.
-/

namespace VecDb.Assoc

open List

variable {κ ν : Type*} [DecidableEq κ]

def upsert (k : κ) (f : Option ν → ν) : List (κ × ν) → List (κ × ν)
  | [] => [(k, f none)]
  | (k', v) :: m => if k' = k then (k, f (some v)) :: m else (k', v) :: upsert k f m

variable {k x : κ} {f : Option ν → ν} {α : Type*}

theorem mem_keys_upsert {m : List (κ × ν)} :
    x ∈ (upsert k f m).map Prod.fst ↔ x = k ∨ x ∈ m.map Prod.fst := by
  induction m with
  | nil => simp [upsert]
  | cons e m ih =>
    rw [upsert]
    split
    · rename_i hk
      simp [hk]
    · rw [map_cons, mem_cons, ih, map_cons, mem_cons]
      exact or_left_comm

theorem nodup_keys_upsert {m : List (κ × ν)} (h : (m.map Prod.fst).Nodup) :
    ((upsert k f m).map Prod.fst).Nodup := by
  induction m with
  | nil => simp [upsert]
  | cons e m ih =>
    rw [map_cons, nodup_cons] at h
    rw [upsert]
    split
    · rename_i hk
      rw [map_cons, nodup_cons]
      exact ⟨hk ▸ h.1, h.2⟩
    · rename_i hk
      rw [map_cons, nodup_cons, mem_keys_upsert, not_or]
      exact ⟨⟨hk, h.1⟩, ih h.2⟩

theorem lookup_cons_ite (e : κ × ν) (m : List (κ × ν)) (x : κ) :
    (e :: m).lookup x = if x = e.1 then some e.2 else m.lookup x := by
  by_cases h : x = e.1
  · rw [if_pos h, lookup_cons, h, beq_self_eq_true]
  · rw [if_neg h, lookup_cons, beq_false_of_ne h]

theorem lookup_upsert (k x : κ) (f : Option ν → ν) (m : List (κ × ν)) :
    (upsert k f m).lookup x = if x = k then some (f (m.lookup k)) else m.lookup x := by
  induction m with
  | nil => rw [upsert, lookup_cons_ite]; rfl
  | cons e m ih =>
    by_cases hk : e.1 = k
    · by_cases h : x = k <;> simp [upsert, lookup_cons_ite, hk, h]
    · rw [upsert, if_neg hk, lookup_cons_ite, lookup_cons_ite, lookup_cons_ite, ih]
      by_cases h : x = k
      · simp [h, Ne.symm hk]
      · simp [h]

theorem lookup_filter_ne (k x : κ) (m : List (κ × ν)) :
    (m.filter fun e => e.1 ≠ k).lookup x = if x = k then none else m.lookup x := by
  induction m with
  | nil => simp
  | cons e m ih =>
    by_cases hk : e.1 = k
    · rw [filter_cons_of_neg (by simp [hk]), ih, lookup_cons_ite, hk]
      split <;> rfl
    · rw [filter_cons_of_pos (by simp [hk]), lookup_cons_ite, lookup_cons_ite, ih]
      by_cases h : x = k
      · simp [h, Ne.symm hk]
      · simp [h]

theorem mem_keys_foldl {key : α → κ} {f : α → Option ν → ν} {l : List α} {m : List (κ × ν)} :
    x ∈ (l.foldl (fun m a => upsert (key a) (f a) m) m).map Prod.fst ↔
      x ∈ l.map key ∨ x ∈ m.map Prod.fst := by
  induction l generalizing m with
  | nil => simp
  | cons a l ih =>
    rw [foldl_cons, ih, mem_keys_upsert, map_cons, mem_cons]
    exact or_left_comm.trans or_assoc.symm

theorem nodup_keys_foldl {key : α → κ} {f : α → Option ν → ν} {l : List α}
    {m : List (κ × ν)} (h : (m.map Prod.fst).Nodup) :
    ((l.foldl (fun m a => upsert (key a) (f a) m) m).map Prod.fst).Nodup := by
  induction l generalizing m with
  | nil => exact h
  | cons a l ih => exact ih (nodup_keys_upsert h)

theorem upsert_of_notMem {m : List (κ × ν)} (h : k ∉ m.map Prod.fst) :
    upsert k f m = m ++ [(k, f none)] := by
  induction m with
  | nil => rfl
  | cons e m ih =>
    rw [map_cons, mem_cons, not_or] at h
    rw [upsert, if_neg (Ne.symm h.1), ih h.2, cons_append]

theorem foldl_upsert_pairs {l m : List (κ × ν)} (h : ((m ++ l).map Prod.fst).Nodup) :
    l.foldl (fun m e => upsert e.1 (fun _ => e.2) m) m = m ++ l := by
  induction l generalizing m with
  | nil => simp
  | cons e l ih =>
    have hnew : e.1 ∉ m.map Prod.fst := by
      rw [map_append, nodup_append] at h
      exact fun hm => h.2.2 _ hm _ (by simp) rfl
    rw [foldl_cons, upsert_of_notMem hnew, ih (by simpa using h), append_assoc]
    rfl

theorem lookup_iff_mem {κ ν : Type*} [BEq κ] [LawfulBEq κ] {m : List (κ × ν)} {k : κ} {v : ν}
    (h : (m.map Prod.fst).Nodup) : m.lookup k = some v ↔ (k, v) ∈ m := by
  induction m with
  | nil => simp
  | cons e m ih =>
    obtain ⟨k', v'⟩ := e
    rw [map_cons, nodup_cons] at h
    rcases hk : k == k'
    case true =>
      obtain rfl := eq_of_beq hk
      have hnot : (k, v) ∉ m := fun hm => h.1 (mem_map.mpr ⟨_, hm, rfl⟩)
      simp [hnot, eq_comm]
    case false =>
      have hne : k ≠ k' := fun heq => by simp [heq] at hk
      rw [lookup_cons, hk, ih h.2]
      simp [hne]

theorem lookup_of_perm {κ ν : Type*} [BEq κ] [LawfulBEq κ] {m m' : List (κ × ν)}
    (hm : (m.map Prod.fst).Nodup) (h : m.Perm m') (k : κ) : m'.lookup k = m.lookup k := by
  refine Option.ext fun v => ?_
  rw [lookup_iff_mem hm, lookup_iff_mem ((h.map _).nodup_iff.mp hm), h.mem_iff]

theorem lookup_filterMap_self {κ ν : Type*} [BEq κ] [LawfulBEq κ] {f : κ → Option ν} {ks : List κ}
    {k : κ} (h : k ∈ ks) : (ks.filterMap fun k => (f k).map fun v => (k, v)).lookup k = f k := by
  induction ks with
  | nil => cases h
  | cons a ks ih =>
    rw [filterMap_cons]
    rcases hk : k == a
    case true =>
      obtain rfl := eq_of_beq hk
      rcases hf : f k with _ | v
      · -- there is no pair for the key at all
        rw [Option.map_none, lookup_eq_none_iff]
        intro e he
        obtain ⟨b, -, hb⟩ := mem_filterMap.mp he
        obtain ⟨v, hv, rfl⟩ := Option.map_eq_some_iff.mp hb
        refine bne_iff_ne.mpr fun heq => ?_
        dsimp only at heq
        rw [← heq, hf] at hv
        cases hv
      · rw [Option.map_some, lookup_cons_self]
    case false =>
      have hmem : k ∈ ks := (mem_cons.mp h).resolve_left fun heq => by simp [heq] at hk
      rcases f a with _ | v
      · exact ih hmem
      · rw [Option.map_some, lookup_cons, hk]
        exact ih hmem

theorem lookup_map_snd {κ ν μ : Type*} [BEq κ] (g : ν → μ) (m : List (κ × ν)) (k : κ) :
    (m.map fun e => (e.1, g e.2)).lookup k = (m.lookup k).map g := by
  induction m with
  | nil => rfl
  | cons e m ih =>
    rw [map_cons, lookup_cons, lookup_cons, ih]
    rcases k == e.1 <;> rfl

theorem filter_key_of_perm {α κ : Type*} [DecidableEq κ] {f : α → κ} {l l' : List α}
    (h : l.Perm l') (hl : (l.map f).Nodup) (k : κ) :
    (l.filter fun b => f b = k) = l'.filter fun b => f b = k := by
  have hlen : (l.filter fun b => f b = k).length ≤ 1 := by
    have hrep : (l.filter fun b => f b = k).map f = List.replicate _ k :=
      eq_replicate_iff.mpr ⟨length_map f, fun b hb => by
        obtain ⟨x, hx, rfl⟩ := mem_map.mp hb
        simpa using of_mem_filter hx⟩
    exact nodup_replicate.mp (hrep ▸ hl.sublist (filter_sublist.map f))
  have hperm := h.filter fun b => f b = k
  rcases hf : l.filter fun b => f b = k with _ | ⟨a, _ | ⟨b, t⟩⟩ <;> rw [hf] at hperm hlen
  · exact (nil_perm.mp hperm).symm
  · exact singleton_perm.mp hperm
  · simp at hlen

theorem find?_key {α κ : Type*} [DecidableEq κ] {f : α → κ} {l : List α} {a : α}
    (h : (l.map f).Nodup) (ha : a ∈ l) : (l.find? fun b => f b = f a) = some a := by
  rcases hf : l.find? fun b => f b = f a with _ | b
  · rw [find?_eq_none] at hf
    have := hf a ha
    simp at this
  · have hkey : f b = f a := by simpa using find?_some hf
    rw [inj_on_of_nodup_map h (mem_of_find?_eq_some hf) ha hkey]

end VecDb.Assoc

import Mathlib.Data.List.NodupEquivFin
import Mathlib.Data.Finset.Card
import VecDb.Index.Candidate

/-! # Searching one layer of a graph

The greedy descent and the bounded best-first search. If the neighbour lists never lead out of a
finite set of nodes that have distances, both end, and the best-first search finds every result it
can reach if it may keep as many as there are nodes.
-/

namespace VecDb.Index

open List Heap

variable {D : Type*}

section Search

variable [LinearOrder D] (next : UInt32 → List UInt32) (dist : UInt32 → Option D) (admissible : UInt32 → Bool)
  (ef : ℕ)

def closer (cur : Candidate D) (nb : UInt32) : Option (Candidate D) := do
  let d ← dist nb
  if d < cur.distance then return ⟨nb, d⟩
  return cur

def greedyDescend : ℕ → Candidate D → Option (Candidate D)
  | 0, _ => none
  | fuel + 1, cur => do
    let found ← (next cur.position).foldlM (closer dist) cur
    if found.distance < cur.distance then greedyDescend fuel found else return cur

structure Walk (D : Type*) where
  visited : List UInt32
  cands : List (Candidate D)
  results : List (Candidate D)

variable [Inhabited D]

def visit (s : Walk D) (nb : UInt32) : Option (Walk D) :=
  if nb ∈ s.visited then some s
  else do
    let d ← dist nb
    let s := { s with visited := nb :: s.visited }
    if s.results.length < ef ∨ d < (Heap.get s.results 0).distance then
      let s := { s with cands := Heap.push minLess s.cands ⟨nb, d⟩ }
      if admissible nb then
        let results := Heap.push maxLess s.results ⟨nb, d⟩
        return { s with results := if ef < results.length then (pop maxLess results).2 else results }
      return s
    return s

def walk : ℕ → Walk D → Option (List (Candidate D))
  | 0, _ => none
  | fuel + 1, s =>
    if s.cands.isEmpty then some s.results
    else
      let c := (pop minLess s.cands).1
      if ef ≤ s.results.length ∧ (Heap.get s.results 0).distance < c.distance then some s.results
      else do
        let s ← (next c.position).foldlM (visit dist admissible ef)
          { s with cands := (pop minLess s.cands).2 }
        walk fuel s

def searchFrom (fuel : ℕ) (ep : UInt32) : Option (List (Candidate D)) := do
  let d0 ← dist ep
  let start : Walk D := ⟨[ep], Heap.push minLess [] ⟨ep, d0⟩,
    if admissible ep then Heap.push maxLess [] ⟨ep, d0⟩ else []⟩
  return sortCandidates (← walk next dist admissible ef fuel start)

end Search

section Spec

/-- The lists lead from nodes to nodes, and every node has a distance. -/
structure Within (next : UInt32 → List UInt32) (dist : UInt32 → Option D) (keys : List UInt32)
    (P : UInt32 → Prop) : Prop where
  next : ∀ p, P p → ∀ q ∈ next p, P q
  dist : ∀ p, P p → ∃ d, dist p = some d
  key : ∀ p, P p → p ∈ keys

variable {next : UInt32 → List UInt32} {dist : UInt32 → Option D} {admissible : UInt32 → Bool}
  {ef : ℕ} {keys : List UInt32} {P : UInt32 → Prop}

theorem Within.reach (hw : Within next dist keys P) {p q : UInt32}
    (h : Relation.ReflTransGen (fun a b => b ∈ next a) p q) (hp : P p) : P q := by
  induction h with
  | refl => exact hp
  | tail _ hstep ih => exact hw.next _ ih _ hstep

def Placed (dist : UInt32 → Option D) (P : UInt32 → Prop) (c : Candidate D) : Prop :=
  P c.position ∧ dist c.position = some c.distance

variable {s s' : Walk D} {nb : UInt32} {all : Prop} {p : UInt32}

/-- What holds of a best-first search between two visits. -/
structure Walk.Sound (dist : UInt32 → Option D) (admissible : UInt32 → Bool) (P : UInt32 → Prop)
    (all : Prop) (s : Walk D) : Prop where
  visited : s.visited.Nodup
  node : ∀ p ∈ s.visited, P p
  cands : ∀ c ∈ s.cands, c.position ∈ s.visited
  results : ∀ c ∈ s.results, c.position ∈ s.visited ∧ admissible c.position = true ∧
    dist c.position = some c.distance
  distinct : (s.results.map (·.position)).Nodup
  kept : all → ∀ p ∈ s.visited, admissible p = true → p ∈ s.results.map (·.position)

/-- A search goes on: what it visits it will expand, unless it has to make room. -/
structure Walk.Grows (all : Prop) (s s' : Walk D) : Prop where
  visited : ∀ p ∈ s.visited, p ∈ s'.visited
  cands : ∀ c ∈ s.cands, c ∈ s'.cands
  fresh : all → ∀ p ∈ s'.visited, p ∈ s.visited ∨ p ∈ s'.cands.map (·.position)
  size : s'.cands.length + s.visited.length ≤ s.cands.length + s'.visited.length

theorem Walk.Grows.trans {s'' : Walk D} (h : s.Grows all s') (h' : s'.Grows all s'') :
    s.Grows all s'' := by
  refine ⟨fun p hp => h'.visited p (h.visited p hp), fun c hc => h'.cands c (h.cands c hc),
    fun hall p hp => ?_, ?_⟩
  · rcases h'.fresh hall p hp with hp | hp
    · rcases h.fresh hall p hp with hp | hp
      · exact .inl hp
      · obtain ⟨c, hc, rfl⟩ := mem_map.mp hp
        exact .inr (mem_map_of_mem (h'.cands c hc))
    · exact .inr hp
  · have := h.size
    have := h'.size
    omega

theorem Walk.Sound.covers (hw : Within next dist keys P)
    (h : s.Sound dist admissible P all) (hlen : keys.length ≤ s.results.length)
    (hp : P p) : p ∈ s.results.map (·.position) := by
  have hsub : s.results.map (·.position) ⊆ keys := by
    intro q hq
    obtain ⟨c, hc, rfl⟩ := mem_map.mp hq
    exact hw.key _ (h.node _ (h.results c hc).1)
  have hperm := (subperm_of_subset h.distinct hsub).perm_of_length_le (by simpa using hlen)
  exact hperm.mem_iff.mpr (hw.key p hp)

theorem Walk.Sound.mem_visited (h : s.Sound dist admissible P all)
    (hp : p ∈ s.results.map (·.position)) : p ∈ s.visited := by
  obtain ⟨c, hc, rfl⟩ := mem_map.mp hp
  exact (h.results c hc).1

theorem Walk.Sound.add {d : D} {cands results : List (Candidate D)}
    (h : s.Sound dist admissible P all) (hp : P nb) (hd : dist nb = some d)
    (hnew : nb ∉ s.visited) (hcands : ∀ c ∈ cands, c = ⟨nb, d⟩ ∨ c ∈ s.cands)
    (hsub : results.Subperm ((if admissible nb then [⟨nb, d⟩] else []) ++ s.results))
    (hall : all → ∀ c ∈ (if admissible nb then [⟨nb, d⟩] else []) ++ s.results, c ∈ results) :
    Walk.Sound dist admissible P all ⟨nb :: s.visited, cands, results⟩ := by
  have hnb : nb ∉ s.results.map (·.position) := fun hmem => hnew (h.mem_visited hmem)
  refine ⟨nodup_cons.mpr ⟨hnew, h.visited⟩, forall_mem_cons.mpr ⟨hp, h.node⟩, ?_, ?_, ?_, ?_⟩
  · intro c hc
    rcases hcands c hc with rfl | hc
    · exact mem_cons_self
    · exact mem_cons_of_mem _ (h.cands c hc)
  · intro c hc
    rcases mem_append.mp (hsub.subset hc) with hc | hc
    · split at hc
      · rename_i hadm
        obtain rfl := mem_singleton.mp hc
        exact ⟨mem_cons_self, hadm, hd⟩
      · cases hc
    · have := h.results c hc
      exact ⟨mem_cons_of_mem _ this.1, this.2⟩
  · obtain ⟨l, hperm, hl⟩ := hsub
    refine (hperm.map _).nodup_iff.mp (.sublist (hl.map _) ?_)
    split <;> simp [h.distinct] at hnb ⊢
    exact hnb
  · intro ha p hp hadm
    rcases mem_cons.mp hp with rfl | hp
    · exact mem_map.mpr ⟨_, hall ha ⟨p, d⟩ (by simp [hadm]), rfl⟩
    · obtain ⟨c, hc, rfl⟩ := mem_map.mp (h.kept ha p hp hadm)
      exact mem_map_of_mem (hall ha c (mem_append_right _ hc))

variable [LinearOrder D] {ns : List UInt32} (hw : Within next dist keys P)
include hw

theorem foldlM_closer (hns : ∀ q ∈ ns, P q) {cur : Candidate D} (hc : Placed dist P cur) :
    ∃ c, ns.foldlM (closer dist) cur = some c ∧ Placed dist P c ∧ c.distance ≤ cur.distance := by
  induction ns generalizing cur with
  | nil => exact ⟨cur, rfl, hc, le_rfl⟩
  | cons q ns ih =>
    rw [forall_mem_cons] at hns
    obtain ⟨d, hd⟩ := hw.dist q hns.1
    by_cases hlt : d < cur.distance
    · obtain ⟨c, hfold, hp, hle⟩ := @ih hns.2 ⟨q, d⟩ ⟨hns.1, hd⟩
      exact ⟨c, by simp [closer, hd, hlt, hfold], hp, hle.trans hlt.le⟩
    · obtain ⟨c, hfold, hp, hle⟩ := ih hns.2 hc
      exact ⟨c, by simp [closer, hd, hlt, hfold], hp, hle⟩

theorem greedyDescend_spec {cur : Candidate D}
    (hc : Placed dist P cur) : ∃ c, greedyDescend next dist (keys.length + 1) cur = some c ∧
      Placed dist P c := by
  let near : D → Finset UInt32 := fun b => keys.toFinset.filter fun p => (dist p).any (· < b)
  have hmem : ∀ (c : Candidate D) b, Placed dist P c → (c.position ∈ near b ↔ c.distance < b) := by
    intro c b hc
    simp [near, hc.2, hw.key _ hc.1]
  -- every move leaves one node fewer that is closer than the current one
  have key : ∀ fuel (cur : Candidate D), Placed dist P cur → (near cur.distance).card < fuel →
      ∃ c, greedyDescend next dist fuel cur = some c ∧ Placed dist P c := by
    intro fuel
    induction fuel with
    | zero => intro _ _ h; cases h
    | succ fuel ih =>
      intro cur hc hcard
      obtain ⟨c, hfold, hp, -⟩ := foldlM_closer hw (hw.next _ hc.1) hc
      by_cases hlt : c.distance < cur.distance
      · have hsub : near c.distance ⊂ near cur.distance := by
          refine Finset.ssubset_iff_of_subset (Finset.monotone_filter_right _ fun p _ h => ?_)
            |>.mpr ⟨c.position, (hmem c _ hp).mpr hlt, mt (hmem c _ hp).mp (lt_irrefl _)⟩
          revert h
          cases dist p <;> simp
          exact fun h => h.trans hlt
        have hlt' := Finset.card_lt_card hsub
        obtain ⟨r, hr, hpr⟩ := ih c hp (by omega)
        exact ⟨r, by simp [greedyDescend, hfold, hlt, hr], hpr⟩
      · exact ⟨cur, by simp [greedyDescend, hfold, hlt], hc⟩
  refine key _ cur hc (Nat.lt_succ_of_le ((Finset.card_filter_le _ _).trans ?_))
  exact toFinset_card_le keys

variable [Inhabited D] {ep : UInt32}

theorem visit_spec (h : s.Sound dist admissible P (keys.length ≤ ef)) (hp : P nb) :
    ∃ s', visit dist admissible ef s nb = some s' ∧
      s'.Sound dist admissible P (keys.length ≤ ef) ∧ s.Grows (keys.length ≤ ef) s' ∧
      nb ∈ s'.visited := by
  by_cases hseen : nb ∈ s.visited
  · exact ⟨s, by simp [visit, hseen], h, ⟨fun _ h => h, fun _ h => h, fun _ _ h => .inl h, le_rfl⟩,
      hseen⟩
  obtain ⟨d, hd⟩ := hw.dist nb hp
  have hroom : keys.length ≤ ef → s.results.length < ef := by
    intro hall
    by_contra hfull
    exact hseen (h.mem_visited (h.covers hw (by omega) hp))
  have hc := @push_perm _ _ minLess s.cands ⟨nb, d⟩
  have hr := @push_perm _ _ maxLess s.results ⟨nb, d⟩
  have hgrows : ∀ results, s.Grows (keys.length ≤ ef)
      ⟨nb :: s.visited, push minLess s.cands ⟨nb, d⟩, results⟩ := by
    intro results
    refine ⟨fun p hp => mem_cons_of_mem _ hp, fun c hm => hc.mem_iff.mpr (.tail _ hm),
      fun _ p hm => ?_, by simp [hc.length_eq]; omega⟩
    rcases mem_cons.mp hm with rfl | hm
    · exact .inr (mem_map.mpr ⟨⟨p, d⟩, hc.mem_iff.mpr mem_cons_self, rfl⟩)
    · exact .inl hm
  have hcands : ∀ c ∈ push minLess s.cands ⟨nb, d⟩, c = ⟨nb, d⟩ ∨ c ∈ s.cands :=
    fun c hm => mem_cons.mp (hc.mem_iff.mp hm)
  by_cases hin : s.results.length < ef ∨ d < (get s.results 0).distance
  · by_cases hadm : admissible nb = true
    · refine ⟨_, by simp [visit, hseen, hd, hin, hadm]; rfl, h.add hp hd hseen hcands ?_ ?_,
        hgrows _, mem_cons_self⟩
      · split
        · have hpop := @pop_perm _ _ _ (push maxLess s.results ⟨nb, d⟩) ranks_maxLess
            (by intro hnil; simp [hnil] at hr)
          exact (sublist_cons_self _ _).subperm.trans (hpop.trans hr).subperm
        · exact hr.subperm
      · intro hall c hm
        rw [if_neg (by rw [hr.length_eq, length_cons]; omega)]
        rw [if_pos hadm] at hm
        exact hr.mem_iff.mpr hm
    · exact ⟨_, by simp [visit, hseen, hd, hin, hadm]; rfl,
        h.add hp hd hseen hcands (by simp [hadm, List.Subperm.refl]) (by simp [hadm]), hgrows _, mem_cons_self⟩
  · have hnot : ¬ keys.length ≤ ef := fun hall => hin (.inl (hroom hall))
    refine ⟨_, by simp [visit, hseen, hd, hin], h.add hp hd hseen (fun _ hm => .inr hm)
      (sublist_append_right _ _).subperm fun hall => absurd hall hnot,
      ⟨fun p hp => mem_cons_of_mem _ hp, fun _ hm => hm, fun hall => absurd hall hnot, ?_⟩,
      mem_cons_self⟩
    simp

theorem foldlM_visit (hns : ∀ q ∈ ns, P q) (h : s.Sound dist admissible P (keys.length ≤ ef)) :
    ∃ s', ns.foldlM (visit dist admissible ef) s = some s' ∧
      s'.Sound dist admissible P (keys.length ≤ ef) ∧ s.Grows (keys.length ≤ ef) s' ∧
      ∀ q ∈ ns, q ∈ s'.visited := by
  induction ns generalizing s with
  | nil => exact ⟨s, rfl, h, ⟨fun _ h => h, fun _ h => h, fun _ _ h => .inl h, le_rfl⟩, by simp⟩
  | cons q ns ih =>
    rw [forall_mem_cons] at hns
    obtain ⟨s₁, hs₁, h₁, hg₁, hq⟩ := visit_spec hw h hns.1
    obtain ⟨s₂, hs₂, h₂, hg₂, hall⟩ := ih hns.2 h₁
    refine ⟨s₂, by simp [hs₁, hs₂], h₂, hg₁.trans hg₂, ?_⟩
    exact forall_mem_cons.mpr ⟨hg₂.visited q hq, hall⟩

/-- A visited node is waiting, or its neighbours are visited as well. -/
def Walk.Expanded (next : UInt32 → List UInt32) (s : Walk D) : Prop :=
  ∀ p ∈ s.visited, p ∈ s.cands.map (·.position) ∨ ∀ q ∈ next p, q ∈ s.visited

theorem walk_spec (h : s.Sound dist admissible P (keys.length ≤ ef)) (hep : ep ∈ s.visited)
    (hex : keys.length ≤ ef → s.Expanded next) {fuel : ℕ}
    (hf : s.cands.length + keys.length < fuel + s.visited.length) :
    ∃ out, walk next dist admissible ef fuel s = some out ∧ (out.map (·.position)).Nodup ∧
      (∀ c ∈ out, admissible c.position = true ∧ Placed dist P c) ∧
      (keys.length ≤ ef → ∀ p, Relation.ReflTransGen (fun a b => b ∈ next a) ep p →
        admissible p = true → p ∈ out.map (·.position)) := by
  induction fuel generalizing s with
  | zero =>
    have hle := (subperm_of_subset h.visited fun p hp => hw.key p (h.node p hp)).length_le
    omega
  | succ fuel ih =>
    have hfound : ∀ c ∈ s.results, admissible c.position = true ∧ Placed dist P c := fun c hc =>
      ⟨(h.results c hc).2.1, h.node _ (h.results c hc).1, (h.results c hc).2.2⟩
    rw [walk]
    split
    · -- nothing is waiting, so the visited nodes are closed under the lists
      rename_i hnil
      rw [List.isEmpty_iff] at hnil
      have hvis : keys.length ≤ ef → ∀ p, Relation.ReflTransGen (fun a b => b ∈ next a) ep p →
          p ∈ s.visited := by
        intro hall p hp
        induction hp with
        | refl => exact hep
        | tail _ hstep hvis => exact (hex hall _ hvis).elim (by simp [hnil]) fun hm => hm _ hstep
      exact ⟨s.results, rfl, h.distinct, hfound, fun hall p hp => h.kept hall p (hvis hall p hp)⟩
    · rename_i hne
      rw [List.isEmpty_iff] at hne
      have hpop := pop_perm ranks_minLess hne
      dsimp only
      split
      · -- the results are as many as the nodes
        rename_i hstop
        refine ⟨s.results, rfl, h.distinct, hfound, fun hall p hp _ => ?_⟩
        exact h.covers hw (hall.trans hstop.1) (hw.reach hp (h.node ep hep))
      · have hc : (pop minLess s.cands).1 ∈ s.cands := hpop.mem_iff.mp mem_cons_self
        have hP := h.node _ (h.cands _ hc)
        have hrest : ∀ c ∈ (pop minLess s.cands).2, c ∈ s.cands := fun c hm =>
          hpop.mem_iff.mp (mem_cons_of_mem _ hm)
        have h₁ : Walk.Sound dist admissible P (keys.length ≤ ef)
            { s with cands := (pop minLess s.cands).2 } :=
          { h with cands := fun c hm => h.cands c (hrest c hm) }
        obtain ⟨s₂, hfold, h₂, hg, hnext⟩ := foldlM_visit hw (hw.next _ hP) h₁
        have hlen := hpop.length_eq
        have hsize := hg.size
        simp only [length_cons] at hlen hsize
        rw [hfold]
        refine ih h₂ (hg.visited ep hep) (fun hall p hp => ?_) (by omega)
        rcases hg.fresh hall p hp with hp | hp
        · rcases hex hall p hp with hm | hm
          · obtain ⟨c, hc, rfl⟩ := mem_map.mp hm
            rcases mem_cons.mp (hpop.mem_iff.mpr hc) with rfl | hc
            · exact .inr hnext
            · exact .inl (mem_map_of_mem (hg.cands c hc))
          · exact .inr fun q hq => hg.visited q (hm q hq)
        · exact .inl hp

theorem searchFrom_spec (hep : P ep) :
    ∃ out, searchFrom next dist admissible ef (keys.length + 1) ep = some out ∧
      out.Pairwise (fun a b => a.rank < b.rank) ∧ (out.map (·.position)).Nodup ∧
      (∀ c ∈ out, admissible c.position = true ∧ Placed dist P c) ∧
      (keys.length ≤ ef → ∀ p, Relation.ReflTransGen (fun a b => b ∈ next a) ep p →
        admissible p = true → p ∈ out.map (·.position)) := by
  obtain ⟨d, hd⟩ := hw.dist ep hep
  have hc := @push_perm _ _ minLess [] (Candidate.mk ep d)
  have hr := @push_perm _ _ maxLess [] (Candidate.mk ep d)
  rw [perm_singleton] at hc hr
  obtain ⟨out, hwalk, hnodup, hfound, hall⟩ := @walk_spec _ next dist admissible ef keys P
    ⟨[ep], [⟨ep, d⟩], if admissible ep then [⟨ep, d⟩] else []⟩ _ hw _ ep
    (by
      refine ⟨by simp, by simpa using hep, by simp, ?_, ?_, ?_⟩ <;> split <;> simp_all)
    (by simp) (fun _ p hp => .inl (by simpa using hp)) (keys.length + 1) (by simp; omega)
  have hperm := @sortCandidates_perm _ _ out
  refine ⟨sortCandidates out, by simp [searchFrom, hd, hc, hr, hwalk],
    sorted_sortCandidates hnodup, (hperm.map _).nodup_iff.mpr hnodup,
    fun c hm => hfound c (hperm.mem_iff.mp hm), fun hle p hp hadm => ?_⟩
  exact (hperm.map _).mem_iff.mpr (hall hle p hp hadm)

end Spec

end VecDb.Index

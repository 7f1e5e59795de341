import VecDb.Index.Graph

/-! # Histories of an HNSW index

Whatever was built, inserted and deleted, a search returns live results in order. One that may
keep as many results as there are nodes returns the nearest of all it can reach.
-/

namespace VecDb.Index.HNSW

open List

variable {D : Type*} {h h' : HNSW D} {tidy valid : Prop}

def Event.positions : Event D → List UInt32
  | .build positions _ _ => positions.map (·.1)
  | .insert pos _ _ => [pos]
  | .delete _ => []

/-- The call inserts no position that is there already. -/
def Event.Fresh (h : HNSW D) : Event D → Prop
  | .build positions _ _ => (positions.map (·.1)).Nodup
  | .insert pos _ _ => pos ∉ h.nodes
  | .delete _ => True

theorem graph_new {cfg : HNSWConfig D} (hnew : new cfg = .ok h) : Graph valid tidy h := by
  unfold new at hnew
  split at hnew
  · cases hnew
  · dsimp only at hnew
    split at hnew
    · cases hnew
    · cases hnew
      exact ⟨by simp, by simp, .inl rfl, by simp [live], by simp⟩

variable [LinearOrder D] [Inhabited D]

theorem Graph.insertAll (vectorAt : UInt32 → Vector) {ps : List (UInt32 × ℕ)}
    (hg : Graph valid tidy h) (hv : valid → invalidPos ∉ ps.map (·.1))
    (ht : tidy → (ps.map (·.1)).Nodup ∧ ∀ p ∈ ps.map (·.1), p ∉ h.nodes) :
    ∃ r, insertAll vectorAt h ps = some r ∧ Graph valid tidy r.1 := by
  induction ps generalizing h with
  | nil => exact ⟨(h, none), rfl, hg⟩
  | cons p ps ih =>
    rw [HNSW.insertAll]
    split
    · exact ⟨_, rfl, hg⟩
    · simp only [map_cons, mem_cons, not_or, nodup_cons, forall_eq_or_imp] at hv ht
      obtain ⟨h', hins, hg', -, hmem⟩ := hg.insertLocked (v := vectorAt p.1)
        (fun hval => Ne.symm (hv hval).1) (fun htid => (ht htid).2.1) p.2
      obtain ⟨r, hr, hgr⟩ := ih hg' (fun hval => (hv hval).2) fun htid => by
        refine ⟨(ht htid).1.2, fun q hq hm => ?_⟩
        rcases (hmem q).mp hm with rfl | hm
        · exact (ht htid).1.1 hq
        · exact (ht htid).2.2 q hq hm
      exact ⟨r, by rw [hins]; exact hr, hgr⟩

theorem Graph.apply (hg : Graph valid tidy h) (e : Event D)
    (hv : valid → invalidPos ∉ e.positions) (ht : tidy → e.Fresh h) :
    ∃ h', h.apply e = some h' ∧ Graph valid tidy h' := by
  cases e with
  | build positions vectorAt params =>
    have hempty : Graph valid tidy { h.applyBuildParams params with
        nodes := ∅, vecs := ∅, entrypoint := invalidPos, maxLayer := -1 } :=
      ⟨by simp, by simp, .inl rfl, by simp [live], by simp⟩
    obtain ⟨r, hr, hgr⟩ := hempty.insertAll vectorAt hv fun htid =>
      ⟨ht htid, by simp⟩
    exact ⟨r.1, by rw [HNSW.apply, build, hr]; rfl, hgr⟩
  | insert pos v level =>
    rw [HNSW.apply, HNSW.insert]
    split
    · exact ⟨h, rfl, hg⟩
    · obtain ⟨h', hins, hg', -⟩ := hg.insertLocked (v := v)
        (fun hval => Ne.symm (mem_singleton.not.mp (hv hval))) ht level
      exact ⟨h', by rw [hins]; rfl, hg'⟩
  | delete pos => exact ⟨_, rfl, hg.delete pos⟩

def RunFresh : HNSW D → List (Event D) → Prop
  | _, [] => True
  | h, e :: es => e.Fresh h ∧ ∀ h', h.apply e = some h' → RunFresh h' es

theorem Graph.run {events : List (Event D)} (hg : Graph valid tidy h)
    (hv : valid → ∀ e ∈ events, invalidPos ∉ e.positions) (ht : tidy → h.RunFresh events) :
    ∃ h', h.run events = some h' ∧ Graph valid tidy h' := by
  induction events generalizing h with
  | nil => exact ⟨h, rfl, hg⟩
  | cons e es ih =>
    obtain ⟨h₁, happ, hg₁⟩ := hg.apply e (fun hval => hv hval e mem_cons_self)
      fun htid => (ht htid).1
    obtain ⟨h₂, hrun, hg₂⟩ := ih hg₁ (fun hval e' he' => hv hval e' (mem_cons_of_mem e he'))
      fun htid => (ht htid).2 h₁ happ
    exact ⟨h₂, by rw [HNSW.run, foldlM_cons, happ]; exact hrun, hg₂⟩

theorem Graph.search {query : Vector} (k : ℕ) (filter : Option (UInt32 → Bool)) (efSearch : ℤ)
    (hg : Graph valid tidy h) (hq : query.length = h.dim) (hentry : h.entrypoint ≠ invalidPos) :
    ∃ ep, ∃ cs : List (Candidate D), h.descend query 1 = some ep ∧
      h.search query k filter efSearch = some (.ok (cs.take k)) ∧
      cs.Pairwise (fun a b => a.rank < b.rank) ∧ (cs.map (·.position)).Nodup ∧
      (∀ c ∈ cs, h.admissible filter c.position = true ∧
        h.navDist query c.position = some c.distance ∧
        Relation.ReflTransGen (fun a b => b ∈ h.neighborsAt 0 a) ep.position c.position) ∧
      (h.nodes.keys.length ≤ effectiveEf efSearch k → ∀ p,
        Relation.ReflTransGen (fun a b => b ∈ h.neighborsAt 0 a) ep.position p →
        h.admissible filter p = true → p ∈ cs.map (·.position)) := by
  have hw : ∀ l, Within (h.neighborsAt l) (h.navDist query) h.nodes.keys (· ∈ h.nodes) := by
    intro l
    refine ⟨fun p _ q hq => ?_, fun p hp => ?_, fun p hp => hp⟩
    · obtain ⟨n, hn, -, hq⟩ := mem_neighborsAt hq
      exact (hg.lists p n l hn).node q hq
    · obtain ⟨v, hv⟩ := Option.isSome_iff_exists.mp (AList.lookup_isSome.mpr (hg.stored p hp))
      exact ⟨h.dist query v, by rw [navDist, hv]; rfl⟩
  obtain ⟨ep, hep, hmem⟩ := @descend_spec _ h _ (fun _ p => p ∈ h.nodes) query 1 0
    (fun _ _ _ _ hp => hp) hw (hg.entry.resolve_left hentry) (by omega) (by omega)
  have hreach : Within (h.neighborsAt 0) (h.navDist query) h.nodes.keys fun p => p ∈ h.nodes ∧
      Relation.ReflTransGen (fun a b => b ∈ h.neighborsAt 0 a) ep.position p :=
    ⟨fun p hp q hq => ⟨(hw 0).next p hp.1 q hq, hp.2.tail hq⟩, fun p hp => (hw 0).dist p hp.1,
      fun p hp => hp.1⟩
  obtain ⟨cs, hcs, hsorted, hnodup, hfound, hall⟩ := @searchFrom_spec _ _ _
    (h.admissible filter) (effectiveEf efSearch k) _ _ _ hreach _ ep.position ⟨hmem, .refl⟩
  refine ⟨ep, cs, hep, ?_, hsorted, hnodup, fun c hc => ?_, hall⟩
  · simp [HNSW.search, hq, hentry, hep, searchLayer, hcs]
  · obtain ⟨hadm, ⟨-, hr⟩, hd⟩ := hfound c hc
    exact ⟨hadm, hd, hr⟩

/-- An index over one-dimensional vectors, told apart by their bits. -/
def lineIndex : HNSW ℕ :=
  { m := 16, m0 := 32, efConstruction := 200, dim := 1, naiveSelect := false,
    dist := fun a b => (a.zipWith (fun x y => (x.bits ^^^ y.bits).toNat) b).sum }

/-- The candidates of an exhaustive search: live, let through by the filter, and reachable in the
lowest layer from where the descent ends. -/
def Reachable (h : HNSW D) (query : Vector) (filter : Option (UInt32 → Bool)) :
    Set (Candidate D) :=
  {c | h.live c.position = true ∧ filter.all (· c.position) = true ∧
    h.navDist query c.position = some c.distance ∧ ∃ ep, h.descend query 1 = some ep ∧
      Relation.ReflTransGen (fun a b => b ∈ h.neighborsAt 0 a) ep.position c.position}

/-- If as many results may be kept as there are nodes, a search returns the nearest of all it can
reach; and if there is a live node it starts from somewhere. -/
theorem exhaustive_search {cfg : HNSWConfig D} {h₀ : HNSW D} (hnew : new cfg = .ok h₀)
    (events : List (Event D)) (hvalid : ∀ e ∈ events, invalidPos ∉ e.positions) :
    ∃ h, h₀.run events = some h ∧
      ∀ (query : Vector) (k : ℕ) (filter : Option (UInt32 → Bool)) (efSearch : ℤ),
        query.length = h.dim → 1 ≤ k → h.nodes.keys.length ≤ effectiveEf efSearch k →
        (∃ out, h.search query k filter efSearch = some (.ok out) ∧
          Lowest Candidate.rank (h.Reachable query filter) k out) ∧
        ((∃ p, h.live p = true) → (h.descend query 1).isSome) := by
  have hg₀ : Graph True False h₀ := graph_new hnew
  obtain ⟨h, hrun, hg⟩ := hg₀.run (fun _ => hvalid) False.elim
  refine ⟨h, hrun, fun query k filter efSearch hq _ hef => ?_⟩
  by_cases hentry : h.entrypoint = invalidPos
  · have hnone := (hg.rooted trivial).2 hentry
    refine ⟨⟨[], by simp [HNSW.search, hq, hentry], by simp, by simp, by simp, ?_⟩, ?_⟩
    · intro c hc
      rw [Reachable, Set.mem_ofPred_eq, hnone] at hc
      cases hc.1
    · rintro ⟨p, hp⟩
      rw [hnone] at hp
      cases hp
  · obtain ⟨ep, cs, hep, hs, hsorted, -, hfound, hall⟩ := hg.search k filter efSearch hq hentry
    refine ⟨⟨cs.take k, hs, ?_⟩, fun _ => by rw [hep]; rfl⟩
    have hset : {c | c ∈ cs} = h.Reachable query filter := by
      ext c
      constructor
      · intro hc
        obtain ⟨hadm, hd, hr⟩ := hfound c hc
        rw [admissible, Bool.and_eq_true] at hadm
        exact ⟨hadm.1, hadm.2, hd, ep, hep, hr⟩
      · rintro ⟨hlive, hfilter, hd, ep', hep', hr⟩
        cases hep.symm.trans hep'
        obtain ⟨c', hc', hpos⟩ := mem_map.mp (hall hef c.position hr (by
          rw [admissible, hlive, hfilter]; rfl))
        have hdist := (hfound c' hc').2.1
        rw [hpos, hd, Option.some_inj] at hdist
        have : c' = c := by
          cases c; cases c'
          simp_all
        exact this ▸ hc'
    have hlow := Lowest.self hsorted (le_max_left cs.length k)
    rw [hset] at hlow
    exact hlow.take (le_max_right _ _)

theorem exhaustive_search_two : ∃ h, lineIndex.run [.insert 1 [⟨0⟩] 0, .insert 2 [⟨5⟩] 1] = some h ∧
    ∃ out, h.search (List.replicate h.dim ⟨0⟩) 2 none (h.nodes.keys.length + 1) = some (.ok out) ∧
      Lowest Candidate.rank (h.Reachable (List.replicate h.dim ⟨0⟩) none) 2 out := by
  obtain ⟨h, hrun, hsearch⟩ := exhaustive_search
    (show new ⟨1, 0, 0, 0, false, lineIndex.dist⟩ = .ok lineIndex from rfl)
    [.insert 1 [⟨0⟩] 0, .insert 2 [⟨5⟩] 1] (by decide)
  refine ⟨h, hrun, (hsearch _ 2 none (h.nodes.keys.length + 1) (by simp) (by decide) ?_).1⟩
  rw [effectiveEf, orDefault, if_pos (by omega)]
  omega

/-- Lists in order, and an entry point that is live and of the top layer if any node is live. -/
structure WellFormed (h : HNSW D) : Prop where
  lists : ∀ p n l, h.nodes.lookup p = some n → h.TidyList p l (n.neighbors l)
  entry : (∃ p, h.live p = true) → ∃ n, h.nodes.lookup h.entrypoint = some n ∧
    n.deleted = false ∧ h.maxLayer = n.maxLevel

/-- The graph stays well formed if no position is inserted twice and none is reserved. -/
theorem wellFormed_of_fresh {cfg : HNSWConfig D} {h₀ : HNSW D} (hnew : new cfg = .ok h₀)
    (events : List (Event D)) (hvalid : ∀ e ∈ events, invalidPos ∉ e.positions)
    (hfresh : h₀.RunFresh events) : ∃ h, h₀.run events = some h ∧ h.WellFormed := by
  have hg₀ : Graph True True h₀ := graph_new hnew
  obtain ⟨h, hrun, hg⟩ := hg₀.run (fun _ => hvalid) fun _ => hfresh
  refine ⟨h, hrun, fun p n l hn => (hg.lists p n l hn).tidy trivial, ?_⟩
  rintro ⟨p, hp⟩
  refine hg.top trivial fun heq => ?_
  rw [(hg.rooted trivial).2 heq p] at hp
  cases hp

theorem wellFormed_two : ∃ h, lineIndex.run [.insert 1 [⟨0⟩] 0, .delete 1] = some h ∧ h.WellFormed :=
  wellFormed_of_fresh (show new ⟨1, 0, 0, 0, false, lineIndex.dist⟩ = .ok lineIndex from rfl) _
    (by decide) ⟨by simp [Event.Fresh, lineIndex], fun _ _ => ⟨trivial, fun _ _ => trivial⟩⟩

/-- Inserted again, the entry point finds itself as its neighbour. -/
theorem reinserted_entry_lists_itself :
    ∃ h, lineIndex.run [.insert 1 [⟨0⟩] 0, .insert 1 [⟨0⟩] 0] = some h ∧ ¬ h.WellFormed := by
  have hrun : (lineIndex.run [.insert 1 [⟨0⟩] 0, .insert 1 [⟨0⟩] 0]).map (·.neighborsAt 0 1) =
      some [1] := by decide +kernel
  obtain ⟨h, hh, hn⟩ := Option.map_eq_some_iff.mp hrun
  refine ⟨h, hh, fun hwf => ?_⟩
  obtain ⟨n, hn, -, hmem⟩ := mem_neighborsAt (hn ▸ mem_singleton_self 1)
  exact (hwf.lists 1 n 0 hn).self hmem

end VecDb.Index.HNSW

import VecDb.Query.Planner

/-! # Cached plans

A cached plan serves a query as well as a new one if the query it was made for does not differ in
what the key leaves out, and the pins of the query are for the path it is planned on.
-/

namespace VecDb.Query

open Storage List Collection

/-- The query pins only what the plans of its path have. -/
def PinsFit (coll : Collection) (pf : Platform) (q : BoundQuery) : Prop :=
  if coll.useFlat pf q then q.efSearch ≤ 0 ∧ q.nProbe ≤ 0 ∧ q.rerankR ≤ 0
  else
    match coll.indexKind with
    | .ivf => q.efSearch ≤ 0
    | .hnsw | .diskANN => q.nProbe ≤ 0
    | .flat => q.efSearch ≤ 0 ∧ q.nProbe ≤ 0

/-- The plan of the first query may be used for the second. -/
structure Shares (coll : Collection) (p q : BoundQuery) : Prop where
  selectivity : q.predicate.isSome = true → p.selectivity = q.selectivity
  recallTarget : p.recallTarget = q.recallTarget
  efSearch : p.efSearch = q.efSearch
  nProbe : p.nProbe = q.nProbe
  rerankR : 0 < q.rerankR ∨ p.rerankR ≤ 0
  allowFlat : coll.index.isNone = true → q.allowFlat = true

section Build

variable {coll : Collection} {pf : Platform} {p q : BoundQuery} {plan : PhysicalPlan}

theorem selectivity_congr (hpred : p.predicate.isSome = q.predicate.isSome)
    (h : q.predicate.isSome = true → p.selectivity = q.selectivity) :
    selectivity p = selectivity q := by
  unfold selectivity
  rcases hp : p.predicate with _ | _ <;> rcases hq : q.predicate with _ | _ <;>
    simp_all

theorem useFlat_congr (hpred : p.predicate.isSome = q.predicate.isSome)
    (h : q.predicate.isSome = true → p.selectivity = q.selectivity) :
    coll.useFlat pf p = coll.useFlat pf q := by
  unfold useFlat
  rw [hpred, selectivity_congr hpred h]

theorem selectEf_congr (hk : p.k = q.k) (hef : p.efSearch = q.efSearch) (rate : Float64) :
    selectEf pf p rate = selectEf pf q rate := by
  unfold selectEf
  rw [hk, hef]

theorem selectNProbe_congr (hnp : p.nProbe = q.nProbe) (rate : Float64) :
    coll.selectNProbe pf p rate = coll.selectNProbe pf q rate := by
  unfold selectNProbe
  rw [hnp]

theorem selectEf_pinned (h : 0 < q.efSearch) (rate : Float64) : selectEf pf q rate = q.efSearch :=
  if_pos h

theorem selectNProbe_pinned (h : 0 < q.nProbe) (rate : Float64) :
    coll.selectNProbe pf q rate = q.nProbe :=
  if_pos h

theorem build_specialize (hkey : planKeyOf pf coll.collID p = planKeyOf pf coll.collID q)
    (hs : Shares coll p q) (hfit : PinsFit coll pf q) (hplan : coll.build pf p = .ok plan) :
    coll.build pf q = .ok (specialize plan q) := by
  simp only [planKeyOf, PlanKey.mk.injEq] at hkey
  obtain ⟨-, hk, hmetric, hpred, -, -, -, -⟩ := hkey
  have hsel := selectivity_congr hpred hs.selectivity
  have hflat := @useFlat_congr coll pf p q hpred hs.selectivity
  unfold build at hplan ⊢
  rw [hsel, hflat, hpred, hk, hmetric, hs.recallTarget] at hplan
  unfold PinsFit at hfit
  have hindex : (coll.index.isNone && !q.allowFlat) = false := by
    rcases hn : coll.index.isNone with _ | _
    · rfl
    · rw [hs.allowFlat hn]
      rfl
  rw [hindex, if_neg Bool.false_ne_true]
  split at hplan
  · cases hplan
  · split at hplan
    · rename_i hu
      rw [if_pos hu] at hfit ⊢
      cases hplan
      obtain ⟨hef, hnp, hrr⟩ := hfit
      simp [specialize, Int.not_lt.mpr hef, Int.not_lt.mpr hnp, Int.not_lt.mpr hrr]
    · rename_i hu
      rw [if_neg hu] at hfit ⊢
      cases hplan
      have hrr := hs.rerankR
      rcases hkind : coll.indexKind with _ | _ | _ | _ <;>
        simp only [hkind, selectEf_congr hk hs.efSearch, selectNProbe_congr hs.nProbe] at hfit ⊢
      · by_cases hr : 0 < q.rerankR <;> by_cases hr' : 0 < p.rerankR <;>
          simp [specialize, hr, hr', Int.not_lt.mpr hfit.1, Int.not_lt.mpr hfit.2]
        omega
      · by_cases hr : 0 < q.rerankR <;> by_cases hr' : 0 < p.rerankR <;>
          by_cases hef : 0 < q.efSearch <;>
          by_cases hpost : filterStrategy q.predicate.isSome
            (selectivity q) = .filterPost <;>
          first
            | omega
            | simp [specialize, hr, hr', hef, hpost, Int.not_lt.mpr hfit, selectEf_pinned]
      · by_cases hr : 0 < q.rerankR <;> by_cases hr' : 0 < p.rerankR <;>
          by_cases hnp : 0 < q.nProbe <;>
          first
            | omega
            | simp [specialize, hr, hr', hnp, Int.not_lt.mpr hfit, selectNProbe_pinned]
      · by_cases hr : 0 < q.rerankR <;> by_cases hr' : 0 < p.rerankR <;>
          by_cases hef : 0 < q.efSearch <;>
          first
            | omega
            | simp [specialize, hr, hr', hef, Int.not_lt.mpr hfit, selectEf_pinned]

end Build

namespace Planner

variable {pl : Planner} {past qs : List BoundQuery} {q : BoundQuery}

/-- Every cached plan was made for an earlier query. -/
def Made (pl : Planner) (past : List BoundQuery) : Prop :=
  ∀ cache ∈ pl.cache, cache.All fun key plan => ∃ p ∈ past,
    planKeyOf pl.platform pl.coll.collID p = key ∧ pl.coll.build pl.platform p = .ok plan

/-- The cached plan that a query finds may be used for it. -/
def Served (pl : Planner) (past : List BoundQuery) (q : BoundQuery) : Prop :=
  PinsFit pl.coll pl.platform q ∧ ∀ p ∈ past,
    planKeyOf pl.platform pl.coll.collID p = planKeyOf pl.platform pl.coll.collID q →
      Shares pl.coll p q

theorem plan_coll (pl : Planner) (q : BoundQuery) :
    (pl.plan q).1.coll = pl.coll ∧ (pl.plan q).1.platform = pl.platform := by
  unfold plan
  split
  · exact ⟨rfl, rfl⟩
  split
  · exact ⟨rfl, rfl⟩
  split
  · exact ⟨rfl, rfl⟩
  dsimp only
  split
  · exact ⟨rfl, rfl⟩
  split
  · exact ⟨rfl, rfl⟩
  split <;> exact ⟨rfl, rfl⟩

theorem Made.step (h : pl.Made past) (hs : pl.Served past q) :
    (pl.plan q).2 = pl.fresh q ∧ (pl.plan q).1.Made (past ++ [q]) := by
  have hgrow : ∀ {cache : Lru PlanKey PhysicalPlan}, (cache.All fun key plan => ∃ p ∈ past,
      planKeyOf pl.platform pl.coll.collID p = key ∧ pl.coll.build pl.platform p = .ok plan) →
      cache.All fun key plan => ∃ p ∈ past ++ [q],
        planKeyOf pl.platform pl.coll.collID p = key ∧
          pl.coll.build pl.platform p = .ok plan := by
    intro cache hall e he
    obtain ⟨p, hp, hbuild⟩ := hall e he
    exact ⟨p, mem_append_left _ hp, hbuild⟩
  have hmade : pl.Made (past ++ [q]) := fun cache hc => hgrow (h cache hc)
  unfold fresh Planner.plan
  split
  · exact ⟨rfl, hmade⟩
  split
  · exact ⟨rfl, hmade⟩
  split
  · exact ⟨rfl, hmade⟩
  rcases hcache : pl.cache with _ | cache
  · exact ⟨rfl, hmade⟩
  have hall := h cache hcache
  have hall' := hgrow (hall.get (planKeyOf pl.platform pl.coll.collID q))
  rcases hget : cache.get (planKeyOf pl.platform pl.coll.collID q) with ⟨cache', _ | cached⟩ <;>
    rw [hget] at hall' <;> dsimp only <;> rw [hget]
  · rcases hbuild : pl.coll.build pl.platform q with e | plan
    · exact ⟨rfl, fun c hc => by cases hc; exact hall'⟩
    · refine ⟨rfl, fun c hc => ?_⟩
      cases hc
      exact hall'.put ⟨q, mem_append_right _ (mem_singleton_self q), rfl, hbuild⟩
  · obtain ⟨p, hp, hkey, hbuild⟩ := hall.of_get (congrArg Prod.snd hget)
    refine ⟨(build_specialize hkey (hs.2 p hp hkey) hs.1 hbuild).symm, fun c hc => ?_⟩
    cases hc
    exact hall'

theorem fresh_congr {pl' : Planner} (hcoll : pl'.coll = pl.coll)
    (hplatform : pl'.platform = pl.platform) (q : BoundQuery) : pl'.fresh q = pl.fresh q := by
  unfold fresh
  rw [hcoll, hplatform]

theorem Made.planAll (h : pl.Made past) (hfit : ∀ q ∈ qs, PinsFit pl.coll pl.platform q)
    (hshare : (past ++ qs).Pairwise fun p q =>
      planKeyOf pl.platform pl.coll.collID p = planKeyOf pl.platform pl.coll.collID q →
        Shares pl.coll p q) : pl.planAll qs = qs.map pl.fresh := by
  induction qs generalizing pl past with
  | nil => rfl
  | cons q qs ih =>
    obtain ⟨hcoll, hplatform⟩ := pl.plan_coll q
    have hserved : pl.Served past q := by
      refine ⟨hfit q mem_cons_self, fun p hp => ?_⟩
      exact (pairwise_append.mp hshare).2.2 p hp q mem_cons_self
    obtain ⟨hplan, hmade⟩ := h.step hserved
    rw [Planner.planAll, hplan, map_cons, ih hmade]
    · refine congrArg _ (map_congr_left fun q' _ => ?_)
      exact fresh_congr hcoll hplatform q'
    · rw [hcoll, hplatform]
      exact fun q' hq => hfit q' (mem_cons_of_mem q hq)
    · rwa [hcoll, hplatform, append_assoc, singleton_append]

/-- Plans are as good as new if queries with one key do not differ in what the key leaves out, and
pin only what their paths have. -/
theorem planAll_eq_fresh {coll : Collection} {platform : Platform} {cacheCap : ℤ}
    (hfit : ∀ q ∈ qs, PinsFit coll platform q) (hshare : qs.Pairwise fun p q =>
      planKeyOf platform coll.collID p = planKeyOf platform coll.collID q → Shares coll p q) :
    (new coll platform cacheCap).planAll qs = qs.map (new coll platform cacheCap).fresh := by
  refine @Made.planAll _ [] _ (fun cache hc => ?_) hfit hshare
  unfold new at hc
  split at hc
  · cases hc
  · cases hc
    exact fun e he => nomatch he

def unindexed : Collection := { engine := newEngine, collID := 1, dims := 1 }

def fallback : BoundQuery := { vector := [0], k := 1, allowFlat := true }

theorem planAll_fallback_twice : unindexed.index.isNone = true ∧ ∀ platform,
    (new unindexed platform 8).planAll [fallback, fallback] =
      [fallback, fallback].map (new unindexed platform 8).fresh := by
  refine ⟨rfl, fun platform => planAll_eq_fresh ?_ ?_⟩
  · intro q hq
    obtain rfl : q = fallback := by simpa using hq
    exact (if_pos rfl).mpr ⟨le_rfl, le_rfl, le_rfl⟩
  · refine pairwise_pair.mpr fun _ => ⟨fun _ => rfl, rfl, rfl, rfl, .inr le_rfl, fun _ => rfl⟩

/-- The second query does not allow a scan, but is given the plan of the first one. -/
theorem plan_keeps_fallback : unindexed.index.isNone = true ∧ ∀ platform, ∃ p₁ p₂,
    (new unindexed platform 8).planAll [fallback, { fallback with allowFlat := false }] =
      [.ok p₁, .ok p₂] ∧
    (new unindexed platform 8).fresh { fallback with allowFlat := false } = .error .noIndex := by
  refine ⟨rfl, fun platform => ?_⟩
  simp [planAll, plan, fresh, new, unindexed, fallback, Lru.get, Lru.put, Collection.build,
    Collection.useFlat, planKeyOf]

end Planner

end VecDb.Query

import VecDb.Query.Pipeline
import VecDb.Query.Planner
import VecDb.Storage.Contents

/-! # The rows of an answer

A row of an answer is read from the table of the collection: it has the id of a point that
is there, and under the names that were asked for the cells that are not null.
-/

namespace VecDb.Query

open Storage (visibleIn)

structure PhysicalPlan.For (plan : PhysicalPlan) (q : BoundQuery) : Prop where
  k : plan.k = q.k
  project : plan.project = q.project
  predicate : plan.predicate = q.predicate
  filter : plan.filter = .filterNone ↔ q.predicate = none
  widen : plan.allowWiden = true → plan.maxEfSearch = plan.efSearch * widenCapFactor

variable {plan : PhysicalPlan}

variable {coll : Collection} {pf : Platform} {q : BoundQuery}

theorem Collection.build_for (h : coll.build pf q = .ok plan) : plan.For q := by
  have hstrategy : filterStrategy q.predicate.isSome (selectivity q) = .filterNone ↔
      q.predicate = none := by
    rcases q.predicate with _ | pred
    · exact iff_of_true rfl rfl
    · refine iff_of_false ?_ nofun
      unfold filterStrategy
      split
      · contradiction
      · split
        · exact nofun
        · split <;> exact nofun
  have hflat : (if q.predicate.isSome then FilterStrategy.filterPre else .filterNone) = .filterNone ↔
      q.predicate = none := by
    rcases q.predicate with _ | pred
    · exact iff_of_true rfl rfl
    · exact iff_of_false nofun nofun
  unfold Collection.build at h
  split at h
  · cases h
  split at h
  · cases h
    exact ⟨rfl, rfl, rfl, hflat, nofun⟩
  · cases h
    have hwiden : ∀ p : PhysicalPlan, p.For q → (if p.filter = .filterPost ∧ p.path = .hnsw then
        { p with allowWiden := true, maxEfSearch := p.efSearch * widenCapFactor } else p).For q := by
      intro p hp
      split
      · exact ⟨hp.k, hp.project, hp.predicate, hp.filter, fun _ => rfl⟩
      · exact hp
    refine hwiden _ ?_
    rcases coll.indexKind with _ | _ | _ | _
    all_goals
      split
      · exact ⟨rfl, rfl, rfl, hstrategy, nofun⟩
      · exact ⟨rfl, rfl, rfl, hstrategy, nofun⟩

theorem Planner.plan_for (h : ((Planner.new coll pf 0).plan q).2 = .ok plan) :
    1 ≤ q.k ∧ q.vector.length = coll.dims ∧ plan.For q := by
  obtain ⟨hk, hdims, hbuild⟩ := plan_eq_ok h
  exact ⟨hk, hdims, Collection.build_for hbuild⟩

section Rows

variable {ec : ExecContext} {c : Storage.Collection} {names : List String} {x : Candidate} {row : Row}

theorem RowOf.entry (h : RowOf ec names x row) (hw : c.WF) (ho : c.Owned)
    (hc : ec.coll.engine.colls ec.coll.collID = some c)
    (hvis : ∀ ver, visibleIn (some ec.snapshot) ver = true) :
    ∃ e, c.entry row.pointID = some e ∧ ∀ name ∈ names, row.metadata.lookup name =
      (ec.coll.colID name).bind fun col =>
        if (e.cells col).isNull then none else some (e.cells col) := by
  obtain ⟨r, id, hmeta, hid, rfl⟩ := h
  rw [Storage.Engine.lookupPos, hc] at hid
  obtain ⟨di, slot, s, hl, hp, rfl⟩ := (Storage.Collection.lookupPos_eq_ok hw).mp hid
  obtain ⟨e, he, hfetch⟩ := ho.fetch_eq hw hl hp (ec.coll.colIDs names) hvis
  refine ⟨e, he, fun name hname => ?_⟩
  have hmem : ∀ col, ec.coll.colID name = some col → col ∈ ec.coll.colIDs names :=
    fun col hcol => List.mem_filterMap.mpr ⟨name, hname, hcol⟩
  rw [WithMeta] at hmeta
  split at hmeta
  · -- no name is that of a column, so no cell is read
    rename_i hnone
    have hcol : ec.coll.colID name = none := by
      rcases hcol : ec.coll.colID name with _ | col
      · rfl
      · have := hmem col hcol
        rw [hnone] at this
        cases this
    rw [hmeta, hcol]
    rfl
  · obtain ⟨record, hrec, rfl⟩ := hmeta
    rw [Storage.Engine.fetch, hc] at hrec
    cases hfetch.symm.trans hrec
    dsimp only [assemble]
    have hself := @Assoc.lookup_filterMap_self _ _ _ _ (fun name => (ec.coll.colID name).bind
      fun col => (e.project (ec.coll.colIDs names)).lookup col) _ _ hname
    simp only [Option.map_bind, Function.comp_def] at hself
    rw [hself]
    rcases hcol : ec.coll.colID name with _ | col
    · rfl
    · rw [Option.bind_some, Option.bind_some, Storage.Entry.lookup_project]
      rcases hnull : (e.cells col).isNull <;> simp [hmem col hcol]

end Rows

end VecDb.Query

import VecDb.Query.Pipeline
import VecDb.Storage.Filter

/-! # Rows satisfy the predicate

A filter after the search hands its result on in a selection vector. Reranking does not look at
it, and it numbers the rows of a batch in 16 bits. All other plans with a filter are safe.
-/

namespace VecDb.Query

open Mvcc Storage Fallible List Collection PhysicalPlan

def Satisfies (c : Storage.Collection) (pred : Predicate) (id : PointID) : Prop :=
  ∃ di slot s, c.Live di slot s ∧ s.backward slot = id ∧
    pred.eval (c.metadata.cell s.seqNum slot) = true

/-- The slot can be read with the columns that are asked for. -/
def Readable (b : Collection) (names : List String) (c : Storage.Collection) (di slot : ℕ)
    (s : Segment) : Prop :=
  c.Live di slot s ∧
    (b.colIDs names = [] ∨ visibleIn (some b.engine.snapshot) (s.version slot) = true)

/-- The plan may lose what its filter selected. -/
def Unfiltered (plan : PhysicalPlan) (bm : PositionBitmap) : Prop :=
  plan.path ≠ .flat ∧ plan.filter = .filterPost ∧
    if plan.rerank then 0 < plan.k else 2 ^ 16 < plan.k ∧ ∃ p, bm.contains p = true

variable {ec : ExecContext} {c : Storage.Collection} {plan : PhysicalPlan} {pred : Predicate}
  {vector : Vec} {ef : ℤ} {cs ds : List Candidate} {bm : PositionBitmap} {bs : List Batch}

theorem satisfies_of_contains (hc : c.WF) (hg : c.InGrid) {snap : Option Snapshot} {p : UInt32}
    {id : PointID} (hp : (c.metadataFilter pred snap).contains p = true)
    (hid : c.lookupPos p = .ok id) : Satisfies c pred id := by
  obtain ⟨di, slot, s, hl, -, he, hpos⟩ := hc.matches_of_contains hg hp
  obtain ⟨di', slot', s', hl', hpos', rfl⟩ := (lookupPos_eq_ok hc).mp hid
  obtain ⟨rfl, rfl⟩ := hl.number_inj hc hl' (hpos.symm.trans hpos')
  cases hl.seg.symm.trans hl'.seg
  exact ⟨di, slot, s, hl, rfl, he⟩

theorem filterBitmap_eq (hc : ec.coll.engine.colls ec.coll.collID = some c)
    (hpred : plan.predicate = some pred) (hfilter : plan.filter ≠ .filterNone) :
    filterBitmap ec plan = .ok (some (c.metadataFilter pred (some ec.snapshot))) := by
  unfold filterBitmap Engine.metadataFilter
  rw [hc, hpred]
  rcases hf : plan.filter with _ | _ | _ | _
  · exact absurd hf hfilter
  all_goals rfl

theorem picks_contains (hfilter : plan.filter ≠ .filterNone) (hu : ¬ Unfiltered plan bm)
    (hsrc : buildSource ec plan (some bm) vector ef = .ok (.ok (emit none cs)))
    (hds : Picks ec plan vector bm cs ds) : ∀ x ∈ ds, bm.contains x.position = true := by
  intro x hx
  by_cases hgiven : plan.path = .flat ∨ plan.filter = .filterPre ∨ plan.filter = .filterIn
  · obtain ⟨y, hy, hyx⟩ := hds.subset hx
    rw [← hyx]
    exact buildSource_contains hsrc hgiven y hy
  · rw [not_or, not_or] at hgiven
    have hpost : plan.filter = .filterPost := by
      rcases hf : plan.filter with _ | _ | _ | _ <;> simp_all
    have hlen := buildSource_length hsrc hgiven.1
    have hu := fun h => hu ⟨hgiven.1, hpost, h⟩
    unfold Picks at hds
    unfold maxK at hlen
    rcases hrerank : plan.rerank with _ | _ <;> simp only [hrerank, if_true, Bool.false_eq_true,
      if_false] at hu hds hlen
    · subst hds
      have hx := mem_of_mem_topK hx
      rw [if_pos hpost] at hx
      by_cases hk : 2 ^ 16 < plan.k
      · -- nothing is selected
        obtain ⟨i, hi, -⟩ := mem_map.mp hx
        exact (hu ⟨hk, _, (mem_filter.mp hi).2⟩).elim
      · rw [selected_eq_filter bm (by omega)] at hx
        exact (mem_filter.mp hx).2
    · obtain ⟨es, -, -, rfl⟩ := hds
      rw [ranked, Int.toNat_of_nonpos (Int.not_lt.mp hu), take_zero] at hx
      cases hx

section Leak

def Index.fixed (cs : List Candidate) : Index where
  search _ k f _ := .ok (if f.isSome then [] else cs.take k.toNat)
  length_le h := by
    cases h
    split
    · exact Nat.zero_le _
    · exact List.length_take_le _ _
  within h x hx := by
    cases h
    cases hx

theorem buildSource_fixed {bitmap : Option PositionBitmap} (hpath : plan.path ≠ .flat)
    (hpost : plan.filter = .filterPost) (hix : ec.coll.index = some (Index.fixed cs))
    (hlen : cs.length ≤ plan.maxK.toNat) :
    buildSource ec plan bitmap vector ef = .ok (.ok (emit none cs)) := by
  unfold buildSource
  split
  · exact absurd ‹_› hpath
  · rw [hix]
    refine indexScanOp_eq_ok.mpr ⟨cs, ?_, rfl⟩
    have hnone : plan.indexFilter bitmap = none := by
      rw [indexFilter, hpost]
      exact if_neg (by decide)
    rw [hnone]
    exact congrArg _ (take_of_length_le hlen)

theorem rowOf_live (hw : c.WF) (hc : ec.coll.engine.colls ec.coll.collID = some c)
    (hsnap : ec.snapshot = ec.coll.engine.snapshot) {di slot : ℕ} {s : Segment}
    (hr : Readable ec.coll plan.project c di slot s) {x : Candidate}
    (hx : x.position.toNat = di * c.capacity.toNat + slot) :
    ∃ row, RowOf ec plan.project x row ∧ row.pointID = s.backward slot := by
  have hid : ec.coll.engine.lookupPos ec.coll.collID x.position = .ok (s.backward slot) := by
    rw [Engine.lookupPos, hc]
    exact (lookupPos_eq_ok hw).mpr ⟨di, slot, s, hr.1, hx, rfl⟩
  have hmeta : ∃ r, WithMeta ec (ec.coll.colIDs plan.project) x r := by
    unfold WithMeta
    by_cases hcols : ec.coll.colIDs plan.project = []
    · exact ⟨_, (if_pos hcols).mpr rfl⟩
    · have hfetch := hr.1.fetch hw hx (some (ec.coll.colIDs plan.project))
        (hr.2.resolve_left hcols)
      simp only [if_neg hcols, Engine.fetch, hc, hsnap]
      exact ⟨_, _, hfetch, rfl⟩
  obtain ⟨r, hmeta⟩ := hmeta
  exact ⟨_, ⟨r, _, hmeta, hid, rfl⟩, rfl⟩

theorem RowOf.readable (hw : c.WF) (hc : ec.coll.engine.colls ec.coll.collID = some c)
    (hsnap : ec.snapshot = ec.coll.engine.snapshot) {x : Candidate} {row : Row}
    (h : RowOf ec plan.project x row) :
    ∃ di slot s, Readable ec.coll plan.project c di slot s ∧ s.backward slot = row.pointID := by
  obtain ⟨r, id, hmeta, hid, rfl⟩ := h
  rw [Engine.lookupPos, hc] at hid
  obtain ⟨di, slot, s, hl, hp, hback⟩ := (lookupPos_eq_ok hw).mp hid
  refine ⟨di, slot, s, ⟨hl, ?_⟩, hback⟩
  by_cases hcols : ec.coll.colIDs plan.project = []
  · exact .inl hcols
  · rw [WithMeta, if_neg hcols] at hmeta
    obtain ⟨record, hfetch, -⟩ := hmeta
    rw [Engine.fetch, hc, hsnap] at hfetch
    exact .inr (hl.visible_of_fetch hw hp hfetch)

theorem projectOp_length {o : Opened} (h : projectOp ec o = .ok bs) : bs.length ≤ 1 := by
  obtain ⟨bs', -, h⟩ := bind_eq_ok.mp h
  rcases bs' with _ | ⟨b, bs'⟩
  · cases h
    exact Nat.zero_le _
  · obtain ⟨rows, -, h⟩ := bind_eq_ok.mp h
    cases h
    exact Nat.le_refl _

theorem buildTree_length (h : buildTree ec plan vector ef = .ok (.ok bs)) : bs.length ≤ 1 := by
  obtain ⟨bitmap, -, h⟩ := bind_eq_ok.mp h
  obtain ⟨src, -, h⟩ := bind_eq_ok.mp h
  exact projectOp_length (Except.ok.inj h)

theorem selected_replicate {v m : Candidate} (hv : bm.contains v.position = false)
    (hm : bm.contains m.position = true) :
    selected bm (List.replicate (2 ^ 16) v ++ [m]) = [v] := by
  unfold selected
  rw [length_append, length_replicate, length_singleton, range_succ, filter_append, map_append]
  have hget : ∀ i < 2 ^ 16, (List.replicate (2 ^ 16) v ++ [m]).getD i default = v := by
    intro i hi
    rw [getD_append _ _ _ _ (by rwa [length_replicate]), getD_replicate _ hi]
  have hnone : (List.range (2 ^ 16)).filter (fun i => bm.contains
      ((List.replicate (2 ^ 16) v ++ [m]).getD i default).position) = [] := by
    refine filter_eq_nil_iff.mpr fun i hi => ?_
    rw [hget i (mem_range.mp hi), hv]
    exact Bool.false_ne_true
  have hlast : (List.replicate (2 ^ 16) v ++ [m]).getD (2 ^ 16) default = m := by
    rw [getD_append_right _ _ _ _ (by rw [length_replicate]), length_replicate,
      Nat.sub_self]
    rfl
  rw [hnone, filter_singleton, hlast, hm, cond_true, map_singleton, Nat.mod_self,
    hget 0 (by decide)]
  rfl

def cancelledAfterOne : Ctx := fun i => if i = 0 then none else some .canceled

theorem Executor.execute_row {e : Executor} {row : Row}
    (hbm : filterBitmap e.context plan = .ok (some bm)) (hlen : vector.length = e.coll.dims)
    (hsrc : buildSource e.context plan (some bm) vector plan.efSearch = .ok (.ok (emit none cs)))
    {x : Candidate} (hpick : Picks e.context plan vector bm cs [x])
    (hrow : RowOf e.context plan.project x row) : e.execute 1 cancelledAfterOne plan vector =
      some (.ok ⟨[row], true, "context canceled"⟩) := by
  obtain ⟨bs, hbs, hrows⟩ := (buildTree_rows hbm fun _ => rfl).mpr ⟨cs, [x], hsrc, hpick, .cons hrow .nil⟩
  have hone := buildTree_length hbs
  rcases bs with _ | ⟨b, _ | ⟨b', bs⟩⟩
  · cases hrows
  · rw [flatMap_singleton] at hrows
    have hcoll : e.context.coll = e.coll := rfl
    rw [execute, if_neg (not_not.mpr hlen), runPlan, hbs, ok_bind]
    simp [drive, pull, cancelledAfterOne, hcoll] at hrows ⊢
    rw [hrows]
    simp [CtxErr.text]
  · simp at hone

end Leak

namespace Executor

def withIndex (e : Executor) (ix : Option Index) : Executor :=
  { e with coll := { e.coll with index := ix } }

variable {e : Executor}

theorem execute_picks (hc : e.coll.engine.colls e.coll.collID = some c)
    (hpred : plan.predicate = some pred) (hfilter : plan.filter ≠ .filterNone) {fuel : ℕ}
    {ctx : Ctx} {rs : ResultSet} (h : e.execute fuel ctx plan vector = some (.ok rs)) :
    ∀ row ∈ rs.rows, ∃ cs ds ef x,
      buildSource e.context plan (some (c.metadataFilter pred (some e.coll.engine.snapshot)))
        vector ef = .ok (.ok (emit none cs)) ∧
      Picks e.context plan vector (c.metadataFilter pred (some e.coll.engine.snapshot)) cs ds ∧
      x ∈ ds ∧ RowOf e.context plan.project x row := by
  intro row hrow
  obtain ⟨ef, bs, hbs, hrow⟩ := mem_execute h hrow
  have hbm : filterBitmap e.context plan = _ := filterBitmap_eq hc hpred hfilter
  obtain ⟨cs, ds, hsrc, hds, hrows⟩ := (buildTree_rows hbm fun _ => rfl).mp ⟨bs, hbs, rfl⟩
  obtain ⟨i, hi, rfl⟩ := mem_iff_getElem.mp hrow
  have hi' : i < ds.length := hrows.length_eq ▸ hi
  exact ⟨cs, ds, ef, ds[i], hsrc, hds, getElem_mem hi', hrows.get hi' hi⟩

theorem execute_satisfies (hw : c.WF) (hc : e.coll.engine.colls e.coll.collID = some c)
    (hg : c.InGrid) (hpred : plan.predicate = some pred) (hfilter : plan.filter ≠ .filterNone)
    (hu : ¬ Unfiltered plan (c.metadataFilter pred (some e.coll.engine.snapshot))) {fuel : ℕ}
    {ctx : Ctx} {rs : ResultSet} (h : e.execute fuel ctx plan vector = some (.ok rs)) :
    ∀ row ∈ rs.rows, Satisfies c pred row.pointID := by
  intro row hrow
  obtain ⟨cs, ds, ef, x, hsrc, hds, hx, r, id, -, hid, rfl⟩ :=
    execute_picks hc hpred hfilter h row hrow
  rw [Engine.lookupPos, show e.context.coll.engine.colls e.context.coll.collID = some c from hc]
    at hid
  exact satisfies_of_contains hw hg (picks_contains hfilter hu hsrc hds x hx) hid

theorem execute_returns (hw : c.WF) (hc : e.coll.engine.colls e.coll.collID = some c)
    (hg : c.InGrid) (hdims : UInt32.ofNat e.coll.dims = c.dims)
    (hpred : plan.predicate = some pred) (hfilter : plan.filter ≠ .filterNone)
    (hu : Unfiltered plan (c.metadataFilter pred (some e.coll.engine.snapshot))) {di slot : ℕ}
    {s : Segment} (hr : Readable e.coll plan.project c di slot s)
    (hout : ¬ Satisfies c pred (s.backward slot)) :
    ∃ ix ctx vector rs, (e.withIndex ix).execute 1 ctx plan vector = some (.ok rs) ∧
      ∃ row ∈ rs.rows, row.pointID = s.backward slot := by
  have hpos := c.colPos_toNat (hg di slot s hr.1)
  have hid : c.lookupPos (c.colPos di slot) = .ok (s.backward slot) :=
    (lookupPos_eq_ok hw).mpr ⟨di, slot, s, hr.1, hpos, rfl⟩
  have hnot : (c.metadataFilter pred (some e.coll.engine.snapshot)).contains (c.colPos di slot) =
      false := Bool.eq_false_iff.mpr fun h => hout (satisfies_of_contains hw hg h hid)
  obtain ⟨hpath, hpost, hu⟩ := hu
  -- it is enough that the point is picked from some answer of the index
  suffices h : ∃ cs x, cs.length ≤ plan.maxK.toNat ∧ x.position = c.colPos di slot ∧
      Picks (e.withIndex (some (.fixed cs))).context plan (List.replicate e.coll.dims 0)
        (c.metadataFilter pred (some e.coll.engine.snapshot)) cs [x] by
    obtain ⟨cs, x, hlen, hx, hpick⟩ := h
    obtain ⟨row, hrow, hrowid⟩ :=
      @rowOf_live (e.withIndex (some (.fixed cs))).context c plan hw hc rfl di slot s hr x
        (hx ▸ hpos)
    refine ⟨_, _, _, _, execute_row ?_ length_replicate ?_ hpick hrow, row,
      mem_singleton_self row, hrowid⟩
    · exact filterBitmap_eq hc hpred hfilter
    · exact buildSource_fixed hpath hpost rfl hlen
  unfold Picks maxK
  rcases hrerank : plan.rerank with _ | _ <;> simp only [hrerank, if_true, Bool.false_eq_true,
    if_false] at hu ⊢
  · obtain ⟨hk, p, hp⟩ := hu
    refine ⟨List.replicate (2 ^ 16) ⟨c.colPos di slot, ⟨0⟩⟩ ++ [⟨p, ⟨0⟩⟩],
      ⟨c.colPos di slot, ⟨0⟩⟩, ?_, rfl, ?_⟩
    · rw [length_append, length_replicate, length_singleton]
      omega
    · rw [if_pos hpost, selected_replicate hnot hp, topK_singleton]
  · have hfetch : e.coll.engine.fetchVector e.coll.collID (c.colPos di slot) e.coll.dims =
        .ok (c.codec.decode (s.data slot)) := by
      rw [Engine.fetchVector, hc]
      exact hr.1.fetchVector hw hpos hdims
    refine ⟨[⟨c.colPos di slot, ⟨0⟩⟩], ⟨c.colPos di slot, rankKernel e.kernels plan.metric
      (List.replicate e.coll.dims 0) (c.codec.decode (s.data slot))⟩, ?_, rfl, [_],
      .cons ⟨_, hfetch, rfl⟩ .nil, fun _ => hu.le, ?_⟩
    · rw [length_singleton]
      split <;> omega
    · rw [ranked, mergeSort_singleton, take_of_length_le (by simp; omega)]
      rfl

/-- A plan with a filter strategy returns points that satisfy the predicate only, just if it does
not lose what the filter selected or all points satisfy the predicate. -/
theorem execute_filtered_iff {s : Sys} (hs : s.Reachable) (he : e.coll.engine = s.engine)
    (hc : s.engine.colls e.coll.collID = some c) (hg : c.InGrid)
    (hdims : UInt32.ofNat e.coll.dims = c.dims) (hpred : plan.predicate = some pred)
    (hfilter : plan.filter ≠ .filterNone) :
    (∀ ix fuel ctx vector rs, (e.withIndex ix).execute fuel ctx plan vector = some (.ok rs) →
      ∀ row ∈ rs.rows, Satisfies c pred row.pointID) ↔
    (Unfiltered plan (c.metadataFilter pred (some s.engine.snapshot)) →
      ∀ di slot seg, Readable e.coll plan.project c di slot seg →
        Satisfies c pred (seg.backward slot)) := by
  have hw := hs.inv.wf hc
  rw [← he] at hc ⊢
  constructor
  · intro h hu di slot seg hr
    by_contra hout
    obtain ⟨ix, ctx, vector, rs, hrun, row, hrow, hid⟩ :=
      execute_returns hw hc hg hdims hpred hfilter hu hr hout
    exact hout (hid ▸ h ix 1 ctx vector rs hrun row hrow)
  · intro h ix fuel ctx vector rs hrun row hrow
    by_cases hu : Unfiltered plan (c.metadataFilter pred (some e.coll.engine.snapshot))
    · obtain ⟨_, _, _, x, -, -, -, hx⟩ :=
        @execute_picks c plan pred vector (e.withIndex ix) hc hpred hfilter fuel ctx rs hrun row hrow
      obtain ⟨di, slot, seg, hr, hid⟩ :=
        @RowOf.readable (e.withIndex ix).context c plan hw hc rfl x row hx
      exact hid ▸ h hu di slot seg hr
    · exact @execute_satisfies c plan pred vector (e.withIndex ix) hw hc hg hpred hfilter hu fuel
        ctx rs hrun row hrow

def onePointExecutor : Executor where
  coll :=
    { engine := (Sys.after Sys.onePoint).engine, collID := 1, dims := 1
      index := some (.fixed [⟨0, ⟨0⟩⟩]), indexKind := .hnsw }
  workers := 1
  kernels := ⟨fun _ _ => ⟨0⟩, fun _ _ => ⟨0⟩, fun _ _ => ⟨0⟩⟩

def spreadExecutor : Executor where
  coll :=
    { engine := (Sys.after Sys.spread).engine, collID := 1, dims := 1
      index := some (.fixed [⟨0, ⟨0⟩⟩, ⟨2, ⟨0⟩⟩]), indexKind := .hnsw }
  workers := 1
  kernels := ⟨fun _ _ => ⟨0⟩, fun _ _ => ⟨0⟩, fun _ _ => ⟨0⟩⟩

theorem execute_filtered_spread :
    let plan : PhysicalPlan :=
      { path := .hnsw, filter := .filterPost, k := 2, predicate := some (.compare 1 .gt (.int 3)) }
    spreadExecutor.execute 1 (fun _ => none) plan [0] =
        some (.ok ⟨[⟨7, ⟨0⟩, []⟩], false, ""⟩) ∧
      ∃ c, (Sys.after Sys.spread).engine.colls 1 = some c ∧
        ∀ ix fuel ctx vector rs, (spreadExecutor.withIndex ix).execute fuel ctx plan vector =
          some (.ok rs) → ∀ row ∈ rs.rows, Satisfies c (.compare 1 .gt (.int 3)) row.pointID := by
  refine ⟨by decide +kernel, _, rfl, ?_⟩
  have hs : (Sys.after Sys.spread).Reachable := Sys.reachable_after (by decide)
  refine (@execute_filtered_iff _ _ _ spreadExecutor _ hs rfl rfl
    (Sys.spread_filterable.inGrid) rfl rfl (by decide)).mpr ?_
  exact fun h => absurd h.2.2.1 (by decide)

/-- Point 5 has 3 in its column, and the plan asks for points with 4. -/
theorem execute_rerank_ignores_filter :
    onePointExecutor.coll.engine = (Sys.after Sys.onePoint).engine ∧
    (Sys.after Sys.onePoint).Reachable ∧
    ((Sys.after Sys.onePoint).engine.fetch 1 0 none none).map
      (fun r => (r.id, r.metadata)) = .ok (5, [(1, .int 3)]) ∧
    Predicate.eval (fun _ => .int 3) (.compare 1 .eq (.int 4)) = false ∧
    onePointExecutor.execute 1 (fun _ => none)
      { path := .hnsw, filter := .filterPost, k := 1, rerank := true, rerankR := 1
        predicate := some (.compare 1 .eq (.int 4)) } [0] =
      some (.ok ⟨[⟨5, ⟨0⟩, []⟩], false, ""⟩) := by
  refine ⟨rfl, Sys.reachable_after (by decide), by decide, by decide, ?_⟩
  decide +kernel

end Executor

end VecDb.Query

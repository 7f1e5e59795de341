import VecDb.Query.Executor

/-! # What the operators do to candidates

The pipeline of a plan is read off the candidates of its source: which of them the heap
or the reranking leaves, and the row that each of these becomes.
-/

namespace VecDb.Query

open Mvcc Storage Fallible List Candidate

def emit (sel : Option (List UInt16)) (cs : List Candidate) : List Batch :=
  if cs = [] then [] else [{ rows := cs.map fun c => { cand := c }, sel }]

theorem writeCandidates_eq (cs : List Candidate) : writeCandidates cs = emit none cs := rfl

/-- The candidates left by a selection vector that numbers rows in 16 bits. -/
def selected (bm : PositionBitmap) (cs : List Candidate) : List Candidate :=
  ((List.range cs.length).filter fun i => bm.contains (cs.getD i default).position).map
    fun i => cs.getD (i % 2 ^ 16) default

variable {ec : ExecContext} {cs : List Candidate} {bm : PositionBitmap} {k : ℤ} {out : List Batch}
  {bs : List Batch} {x : Candidate} {sel : Option (List UInt16)} {rows : List BatchRow}
  {cols : List ColID} {α β : Type}

theorem getD_map_cand (cs : List Candidate) (i : ℕ) :
    ((cs.map fun c => ({ cand := c } : BatchRow)).getD i default).cand = cs.getD i default := by
  rw [getD_eq_getElem?_getD, getD_eq_getElem?_getD, getElem?_map]
  rcases cs[i]? with _ | c <;> rfl

theorem postFilterOp_emit (bm : PositionBitmap) (cs : List Candidate) :
    postFilterOp (some bm) (.ok (emit none cs)) = .ok (emit (some
      (((List.range cs.length).filter fun i =>
        bm.contains (cs.getD i default).position).map UInt16.ofNat)) cs) := by
  unfold emit
  split
  · rfl
  · simp [postFilterOp, Batch.indices, getD_map_cand, bind, Except.bind, pure, Except.pure,
      -getD_eq_getElem?_getD]

theorem flatMap_live_emit_none (cs : List Candidate) : (emit none cs).flatMap Batch.live = cs := by
  unfold emit
  split
  · simp_all
  · simp [Batch.live, Function.comp_def]

theorem topKOp_emit (k : ℤ) (cs : List Candidate) :
    topKOp k (.ok (emit none cs)) = .ok (emit none (topK k cs)) := by
  rw [topKOp]
  exact congrArg (fun l => Except.ok (writeCandidates (topK k l))) (flatMap_live_emit_none cs)

theorem topKOp_postFilterOp (k : ℤ) (bm : PositionBitmap) (cs : List Candidate) :
    topKOp k (postFilterOp (some bm) (.ok (emit none cs))) =
      .ok (emit none (topK k (selected bm cs))) := by
  rw [postFilterOp_emit, topKOp]
  refine congrArg (fun l => Except.ok (writeCandidates (topK k l))) ?_
  unfold emit selected
  split
  · simp_all
  · simp [Batch.live, getD_map_cand, Function.comp_def, -getD_eq_getElem?_getD]

theorem storageRead_eq_ok {α : Type} {x : Except Err α} {a : α} :
    storageRead x = .ok a ↔ x = .ok a := by
  cases x <;> simp [storageRead]

theorem read_eq_ok {x : Except Err α} {f : α → β} {b : β} :
    (do let a ← storageRead x; return f a) = .ok b ↔ ∃ a, x = .ok a ∧ b = f a := by
  rw [bind_eq_ok]
  refine exists_congr fun a => and_congr storageRead_eq_ok ?_
  exact ok_eq_ok

theorem ok_bind (a : α) (f : α → Except QueryErr β) :
    ((.ok a : Except QueryErr α) >>= f) = f a := rfl

def Rescored (ec : ExecContext) (query : Vec) (metric : Metric) (x y : Candidate) : Prop :=
  ∃ v, ec.coll.engine.fetchVector ec.coll.collID x.position ec.coll.dims = .ok v ∧
    y = ⟨x.position, rankKernel ec.kernels metric query v⟩

theorem mapM_single {f : BatchRow → Except QueryErr BatchRow} :
    ([⟨rows, sel⟩].mapM fun b : Batch => do
      let rows ← b.rows.mapM f
      return { b with rows }) = .ok bs ↔
      ∃ rows', List.Forall₂ (fun r r' => f r = .ok r') rows rows' ∧ bs = [⟨rows', sel⟩] := by
  rw [mapM_eq_ok, forall₂_cons_left_iff]
  simp only [forall₂_nil_left_iff, bind_eq_ok, mapM_eq_ok]
  constructor
  · rintro ⟨b, l, ⟨rows', hrows, hb⟩, rfl, rfl⟩
    cases hb
    exact ⟨rows', hrows, rfl⟩
  · rintro ⟨rows', hrows, rfl⟩
    exact ⟨_, _, ⟨rows', hrows, rfl⟩, rfl, rfl⟩

def WithVec (ec : ExecContext) (x : Candidate) (r : BatchRow) : Prop :=
  ∃ v, ec.coll.engine.fetchVector ec.coll.collID x.position ec.coll.dims = .ok v ∧
    r = { cand := x, vec := v }

theorem gatherVecOp_emit (hcs : cs ≠ []) : gatherVecOp ec (.ok (emit sel cs)) = .ok bs ↔
      ∃ rows, List.Forall₂ (WithVec ec) cs rows ∧ bs = [⟨rows, sel⟩] := by
  rw [emit, if_neg hcs, gatherVecOp, ok_bind, mapM_single]
  simp only [forall₂_map_left_iff, read_eq_ok]
  rfl

def ranked (k : ℤ) (cs : List Candidate) : List Candidate :=
  (cs.mergeSort fun x y => !Candidate.less x y).take k.toNat

theorem rerankOp_single (query : Vec) (metric : Metric) :
    rerankOp ec query metric k (.ok [⟨rows, sel⟩]) = .ok out ↔ 0 ≤ k ∧ out = emit none
      (ranked k (rows.map fun r =>
        ⟨r.cand.position, rankKernel ec.kernels metric query r.vec⟩)) := by
  unfold rerankOp ranked
  rw [ok_bind]
  dsimp only
  rcases Int.lt_or_le k 0 with hk | hk
  · rw [if_pos (by omega), if_pos hk]
    exact ⟨nofun, fun h => absurd h.1 (Int.not_le.mpr hk)⟩
  · rw [if_neg (Int.not_lt.mpr hk), and_iff_right hk]
    split
    · exact ok_eq_ok
    · rw [take_of_length_le (by omega)]
      exact ok_eq_ok

theorem rerankOp_emit (query : Vec) (metric : Metric) (sel : Option (List UInt16)) :
    rerankOp ec query metric k (gatherVecOp ec (.ok (emit sel cs))) = .ok out ↔
      ∃ ds, List.Forall₂ (Rescored ec query metric) cs ds ∧ (cs ≠ [] → 0 ≤ k) ∧
        out = emit none (ranked k ds) := by
  by_cases hcs : cs = []
  · subst hcs
    simp only [forall₂_nil_left_iff, exists_eq_left, ne_eq, not_true_eq_false, false_imp_iff,
      true_and, ranked, mergeSort_nil, take_nil]
    exact ok_eq_ok
  · have hres : Rescored ec query metric = fun x y => ∃ r, WithVec ec x r ∧
        y = ⟨r.cand.position, rankKernel ec.kernels metric query r.vec⟩ := by
      funext x y
      simp [Rescored, WithVec]
    simp only [hres, forall₂_comp, forall₂_eq_map, ne_eq, hcs, not_false_eq_true, true_imp_iff]
    constructor
    · intro h
      obtain ⟨bs, hbs, -⟩ := bind_eq_ok.mp h
      rw [hbs] at h
      obtain ⟨rows, hrows, rfl⟩ := (gatherVecOp_emit hcs).mp hbs
      exact ⟨_, ⟨rows, hrows, rfl⟩, (rerankOp_single query metric).mp h⟩
    · rintro ⟨_, ⟨rows, hrows, rfl⟩, hk⟩
      rw [(gatherVecOp_emit hcs).mpr ⟨rows, hrows, rfl⟩]
      exact (rerankOp_single query metric).mpr hk

def WithMeta (ec : ExecContext) (cols : List ColID) (x : Candidate) (r : BatchRow) : Prop :=
  if cols = [] then r = { cand := x }
  else ∃ record, ec.coll.engine.fetch ec.coll.collID x.position (some cols) (some ec.snapshot) =
    .ok record ∧ r = { cand := x, metadata := some record.metadata }

theorem gatherMetaOp_emit (hcs : cs ≠ []) : gatherMetaOp ec cols (.ok (emit none cs)) = .ok bs ↔
      ∃ rows, List.Forall₂ (WithMeta ec cols) cs rows ∧ bs = [⟨rows, none⟩] := by
  rw [emit, if_neg hcs, gatherMetaOp, ok_bind]
  by_cases hcols : cols = []
  · have hmeta : WithMeta ec cols = fun x r => r = { cand := x } := by
      funext x r
      rw [WithMeta, if_pos hcols]
    rw [if_pos hcols, hmeta]
    simp only [forall₂_eq_map, exists_eq_left]
    exact ok_eq_ok
  · have hmeta : WithMeta ec cols = fun x r => ∃ record,
        ec.coll.engine.fetch ec.coll.collID x.position (some cols) (some ec.snapshot) =
          .ok record ∧ r = { cand := x, metadata := some record.metadata } := by
      funext x r
      rw [WithMeta, if_neg hcols]
    rw [if_neg hcols, mapM_single, hmeta]
    simp only [forall₂_map_left_iff, read_eq_ok]

def RowOf (ec : ExecContext) (names : List String) (x : Candidate) (row : Row) : Prop :=
  ∃ r id, WithMeta ec (ec.coll.colIDs names) x r ∧
    ec.coll.engine.lookupPos ec.coll.collID x.position = .ok id ∧
    row = assemble ec.coll names { r with pointID := id }

theorem WithMeta.cand {r : BatchRow} (h : WithMeta ec cols x r) : r.cand = x := by
  unfold WithMeta at h
  split at h
  · rw [h]
  · obtain ⟨_, -, rfl⟩ := h
    rfl

theorem projectOp_single : projectOp ec (.ok [⟨rows, none⟩]) = .ok bs ↔ ∃ rows',
      List.Forall₂ (fun r r' => ∃ id, ec.coll.engine.lookupPos ec.coll.collID r.cand.position =
        .ok id ∧ r' = { r with pointID := id }) rows rows' ∧ bs = [⟨rows', none⟩] := by
  rw [projectOp, ok_bind, bind_eq_ok]
  simp only [mapM_eq_ok, read_eq_ok]
  refine exists_congr fun rows' => and_congr_right fun _ => ?_
  exact ok_eq_ok

theorem projectOp_emit {names : List String} {rows : List Row} :
    (∃ bs, projectOp ec (gatherMetaOp ec (ec.coll.colIDs names) (.ok (emit none cs))) = .ok bs ∧
      bs.flatMap (appendRows ec.coll names) = rows) ↔ List.Forall₂ (RowOf ec names) cs rows := by
  by_cases hcs : cs = []
  · subst hcs
    have hend : projectOp ec (gatherMetaOp ec (ec.coll.colIDs names) (.ok (emit none []))) =
        .ok [] := by
      unfold gatherMetaOp
      rw [ok_bind]
      split <;> rfl
    simp only [hend, Except.ok.injEq, exists_eq_left', forall₂_nil_left_iff]
    exact eq_comm
  · have hrow : RowOf ec names = fun x row => ∃ r', (∃ r, WithMeta ec (ec.coll.colIDs names) x r ∧
        ∃ id, ec.coll.engine.lookupPos ec.coll.collID r.cand.position = .ok id ∧
          r' = { r with pointID := id }) ∧ row = assemble ec.coll names r' := by
      funext x row
      refine propext ⟨?_, ?_⟩
      · rintro ⟨r, id, hr, hid, rfl⟩
        exact ⟨_, ⟨r, hr, id, by rwa [hr.cand], rfl⟩, rfl⟩
      · rintro ⟨_, ⟨r, hr, id, hid, rfl⟩, rfl⟩
        exact ⟨r, id, hr, by rwa [hr.cand] at hid, rfl⟩
    simp only [hrow, forall₂_comp, forall₂_eq_map]
    constructor
    · rintro ⟨bs, hbs, rfl⟩
      obtain ⟨bs', hbs', -⟩ := bind_eq_ok.mp hbs
      rw [hbs'] at hbs
      obtain ⟨rows, hrows, rfl⟩ := (gatherMetaOp_emit hcs).mp hbs'
      obtain ⟨rows', hrows', rfl⟩ := projectOp_single.mp hbs
      exact ⟨rows', ⟨rows, hrows, hrows'⟩, flatMap_singleton _ _⟩
    · rintro ⟨rows', ⟨rows, hrows, hrows'⟩, rfl⟩
      rw [(gatherMetaOp_emit hcs).mpr ⟨rows, hrows, rfl⟩]
      exact ⟨_, projectOp_single.mpr ⟨rows', hrows', rfl⟩, flatMap_singleton _ _⟩

variable {plan : PhysicalPlan} {vector : Vec} {ef : ℤ} {bitmap : Option PositionBitmap}
  {src : Opened} {params : SearchParams} {metric : Metric} {child : Opened} {ix : Index}

theorem indexScanOp_eq_ok {query : Vec} {filter : Option BitmapFilter} :
    indexScanOp ix query k filter params = .ok src ↔
      ∃ cs, ix.search query k filter params = .ok cs ∧ src = .ok (emit none cs) := by
  unfold indexScanOp
  rcases ix.search query k filter params with e | cs
  · exact ⟨nofun, nofun⟩
  · simp [writeCandidates_eq, eq_comm]

theorem buildSource_emit (h : buildSource ec plan bitmap vector ef = .ok src) :
    ∃ cs, src = .ok (emit none cs) := by
  unfold buildSource at h
  split at h
  · obtain ⟨scanned, -, h⟩ := bind_eq_ok.mp h
    exact ⟨_, (Except.ok.inj h).symm⟩
  · split at h
    · cases h
    · obtain ⟨cs, -, hcs⟩ := indexScanOp_eq_ok.mp h
      exact ⟨cs, hcs⟩

/-- The candidates of the source that become rows. -/
def Picks (ec : ExecContext) (plan : PhysicalPlan) (vector : Vec) (bm : PositionBitmap)
    (cs ds : List Candidate) : Prop :=
  if plan.rerank then
    ∃ es, List.Forall₂ (Rescored ec vector plan.metric) cs es ∧ (cs ≠ [] → 0 ≤ plan.k) ∧
      ds = ranked plan.k es
  else ds = topK plan.k (if plan.filter = .filterPost then selected bm cs else cs)

theorem picks_iff (hpost : plan.filter = .filterPost → bitmap = some bm) :
    (let op := if plan.filter = .filterPost then postFilterOp bitmap (.ok (emit none cs))
      else .ok (emit none cs)
    (if plan.rerank then rerankOp ec vector plan.metric plan.k (gatherVecOp ec op)
      else topKOp plan.k op) = .ok out) ↔
      ∃ ds, Picks ec plan vector bm cs ds ∧ out = emit none ds := by
  have hop : (if plan.filter = .filterPost then postFilterOp bitmap (.ok (emit none cs))
      else .ok (emit none cs)) = (if plan.filter = .filterPost then
        postFilterOp (some bm) (.ok (emit none cs)) else .ok (emit none cs)) :=
    if_ctx_congr Iff.rfl (fun h => by rw [hpost h]) fun _ => rfl
  rw [hop]
  unfold Picks
  rcases plan.rerank with _ | _
  · simp only [Bool.false_eq_true, if_false, exists_eq_left]
    split
    · rw [topKOp_postFilterOp]
      exact ok_eq_ok
    · rw [topKOp_emit]
      exact ok_eq_ok
  · have hsel : ∃ sel, (if plan.filter = .filterPost then
        postFilterOp (some bm) (.ok (emit none cs)) else .ok (emit none cs)) =
          .ok (emit sel cs) := by
      split
      · exact ⟨_, postFilterOp_emit bm cs⟩
      · exact ⟨none, rfl⟩
    obtain ⟨sel, hsel⟩ := hsel
    simp only [if_true, hsel, rerankOp_emit]
    constructor
    · rintro ⟨es, hes, hk, rfl⟩
      exact ⟨_, ⟨es, hes, hk, rfl⟩, rfl⟩
    · rintro ⟨_, ⟨es, hes, hk, rfl⟩, rfl⟩
      exact ⟨es, hes, hk, rfl⟩

theorem buildTree_rows (hbm : filterBitmap ec plan = .ok bitmap)
    (hpost : plan.filter = .filterPost → bitmap = some bm) {rows : List Row} :
    (∃ bs, buildTree ec plan vector ef = .ok (.ok bs) ∧
      bs.flatMap (appendRows ec.coll plan.project) = rows) ↔
      ∃ cs ds, buildSource ec plan bitmap vector ef = .ok (.ok (emit none cs)) ∧
        Picks ec plan vector bm cs ds ∧ List.Forall₂ (RowOf ec plan.project) ds rows := by
  unfold buildTree
  rw [hbm, ok_bind]
  constructor
  · rintro ⟨bs, h, hrows⟩
    obtain ⟨src, hsrc, h⟩ := bind_eq_ok.mp h
    obtain ⟨cs, rfl⟩ := buildSource_emit hsrc
    have h := Except.ok.inj h
    obtain ⟨out, hout, -⟩ := bind_eq_ok.mp h
    obtain ⟨out', hout', -⟩ := bind_eq_ok.mp hout
    obtain ⟨ds, hds, rfl⟩ := (picks_iff hpost).mp hout'
    refine ⟨cs, ds, hsrc, hds, projectOp_emit.mp ⟨bs, ?_, hrows⟩⟩
    rw [← h, hout']
  · rintro ⟨cs, ds, hsrc, hds, hrows⟩
    obtain ⟨bs, hbs, hrows⟩ := projectOp_emit.mpr hrows
    refine ⟨bs, ?_, hrows⟩
    rw [hsrc, ok_bind]
    have := (picks_iff hpost).mpr ⟨ds, hds, rfl⟩
    dsimp only at this ⊢
    rw [this, hbs]
    rfl

theorem topKOp_eq_ok (h : topKOp k child = .ok out) : ∃ ds, out = emit none ds := by
  obtain ⟨bs, -, h⟩ := bind_eq_ok.mp h
  exact ⟨_, (Except.ok.inj h).symm⟩

theorem rerankOp_eq_ok
    (h : rerankOp ec vector metric k child = .ok out) : ∃ ds, out = emit none ds := by
  obtain ⟨bs, -, h⟩ := bind_eq_ok.mp h
  rcases bs with _ | ⟨b, bs⟩
  · exact ⟨[], (Except.ok.inj h).symm⟩
  · dsimp only at h
    split at h
    · split at h
      · cases h
      · exact ⟨_, (Except.ok.inj h).symm⟩
    · exact ⟨_, (Except.ok.inj h).symm⟩

theorem buildTree_rowOf (h : buildTree ec plan vector ef = .ok (.ok bs)) :
    ∀ row ∈ bs.flatMap (appendRows ec.coll plan.project), ∃ x, RowOf ec plan.project x row := by
  obtain ⟨bitmap, -, h⟩ := bind_eq_ok.mp h
  obtain ⟨src, -, h⟩ := bind_eq_ok.mp h
  have h := Except.ok.inj h
  obtain ⟨out, hout, -⟩ := bind_eq_ok.mp h
  obtain ⟨out', hout', -⟩ := bind_eq_ok.mp hout
  have hemit : ∃ ds, out' = emit none ds := by
    split at hout'
    · exact rerankOp_eq_ok hout'
    · exact topKOp_eq_ok hout'
  obtain ⟨ds, rfl⟩ := hemit
  rw [hout'] at h
  have hrows := projectOp_emit.mp ⟨bs, h, rfl⟩
  intro row hrow
  obtain ⟨i, hi, rfl⟩ := mem_iff_getElem.mp hrow
  have hi' : i < ds.length := hrows.length_eq ▸ hi
  exact ⟨ds[i], hrows.get hi' hi⟩

section Run

variable {coll : Collection} {names : List String} {ctx : Ctx} {row : Row} {root : Opened}
  {rs : ResultSet}

variable {fuel i : ℕ}

theorem mem_pull (bs : List Batch) (i : ℕ) (h : row ∈ (pull coll names ctx i bs).rows) :
    row ∈ bs.flatMap (appendRows coll names) := by
  induction bs generalizing i with
  | nil => cases h
  | cons b bs ih =>
    rw [pull] at h
    split at h
    · cases h
    · rw [flatMap_cons]
      rcases mem_append.mp h with h | h
      · exact mem_append_left _ h
      · exact mem_append_right _ (ih _ h)

theorem pull_uncancelled (bs : List Batch) (i : ℕ) :
    (pull coll names (fun _ => none) i bs).rows = bs.flatMap (appendRows coll names) ∧
      (pull coll names (fun _ => none) i bs).cancelled = none := by
  induction bs generalizing i with
  | nil => exact ⟨rfl, rfl⟩
  | cons b bs ih =>
    rw [pull, flatMap_cons, ← (ih (i + 1)).1]
    exact ⟨rfl, (ih (i + 1)).2⟩

theorem mem_drive {d : Driven} (h : drive coll names ctx i root = .ok d)
    (hrow : row ∈ d.rows) : ∃ bs, root = .ok bs ∧ row ∈ bs.flatMap (appendRows coll names) := by
  unfold drive at h
  split at h
  · cases h
    cases hrow
  · cases h
  · cases h
    exact ⟨_, rfl, mem_pull _ _ hrow⟩

theorem runPlan_rows (h : runPlan ec plan vector ctx fuel ef i = some (.ok rs)) :
    ∃ ef i d, (buildTree ec plan vector ef >>= drive ec.coll plan.project ctx i) = .ok d ∧
      rs.rows = d.rows := by
  induction fuel generalizing ef i with
  | zero => cases h
  | succ fuel ih =>
    rw [runPlan] at h
    split at h
    · cases h
    · rename_i d hd
      split at h
      · exact ih h
      · cases h
        exact ⟨ef, i, d, hd, rfl⟩

theorem Executor.mem_execute {e : Executor}
    (h : e.execute fuel ctx plan vector = some (.ok rs)) (hrow : row ∈ rs.rows) :
    ∃ ef bs, buildTree e.context plan vector ef = .ok (.ok bs) ∧
      row ∈ bs.flatMap (appendRows e.coll plan.project) := by
  unfold execute at h
  split at h
  · cases h
  · obtain ⟨ef, i, d, hd, hrows⟩ := runPlan_rows h
    obtain ⟨root, hroot, hd⟩ := bind_eq_ok.mp hd
    obtain ⟨bs, rfl, hrow⟩ := mem_drive hd (hrows ▸ hrow)
    exact ⟨ef, bs, hroot, hrow⟩

end Run

section Source

theorem emit_inj {cs ds : List Candidate} (h : emit none cs = emit none ds) : cs = ds := by
  rw [← flatMap_live_emit_none cs, h, flatMap_live_emit_none]

theorem mem_of_mem_flatTopK {workers : ℕ} (h : x ∈ flatTopK workers k cs) : x ∈ cs := by
  have hmem := mem_of_mem_topK h
  simp only [mem_flatMap, mem_map, morsels] at hmem
  obtain ⟨_, ⟨_, ⟨w, -, rfl⟩, rfl⟩, hx⟩ := hmem
  exact mem_of_mem_drop (mem_of_mem_take (TopKHeap.mem_data hx))

theorem flatScanOp_contains (h : flatScanOp ec vector k metric (some bm) = .ok src) :
    ∃ cs, src = .ok (emit none cs) ∧ ∀ x ∈ cs, bm.contains x.position = true := by
  obtain ⟨scanned, -, h⟩ := bind_eq_ok.mp h
  refine ⟨_, (Except.ok.inj h).symm, fun x hx => ?_⟩
  obtain ⟨y, hy, rfl⟩ := mem_map.mp (mem_of_mem_flatTopK hx)
  simpa using (mem_filter.mp hy).2

theorem indexScanOp_contains (h : indexScanOp ix vector k (some ⟨some bm⟩) params = .ok src) :
    ∃ cs, src = .ok (emit none cs) ∧ ∀ x ∈ cs, bm.contains x.position = true := by
  obtain ⟨cs, hcs, rfl⟩ := indexScanOp_eq_ok.mp h
  exact ⟨cs, rfl, ix.within hcs⟩

theorem buildSource_contains
    (h : buildSource ec plan (some bm) vector ef = .ok (.ok (emit none cs)))
    (hfilter : plan.path = .flat ∨ plan.filter = .filterPre ∨ plan.filter = .filterIn) :
    ∀ x ∈ cs, bm.contains x.position = true := by
  unfold buildSource at h
  split at h
  · obtain ⟨cs', heq, hcs⟩ := flatScanOp_contains h
    rwa [emit_inj (Except.ok.inj heq)]
  · rename_i hflat
    split at h
    · cases h
    · rw [PhysicalPlan.indexFilter, if_pos (hfilter.resolve_left hflat)] at h
      obtain ⟨cs', heq, hcs⟩ := indexScanOp_contains h
      rwa [emit_inj (Except.ok.inj heq)]

theorem buildSource_length (h : buildSource ec plan bitmap vector ef = .ok (.ok (emit none cs)))
    (hpath : plan.path ≠ .flat) : cs.length ≤ plan.maxK.toNat := by
  unfold buildSource at h
  split at h
  · exact absurd ‹_› hpath
  · split at h
    · cases h
    · obtain ⟨cs', hcs, heq⟩ := indexScanOp_eq_ok.mp h
      obtain rfl := emit_inj (Except.ok.inj heq)
      exact Index.length_le _ hcs

theorem mem_of_mem_selected (h : x ∈ selected bm cs) : x ∈ cs := by
  obtain ⟨i, hi, rfl⟩ := mem_map.mp h
  have hlt := mem_range.mp (mem_of_mem_filter hi)
  have hmod := Nat.mod_le i (2 ^ 16)
  rw [getD_eq_getElem _ _ (by omega)]
  exact getElem_mem _

theorem selected_eq_filter (bm : PositionBitmap) (hlow : ∀ i, 2 ^ 16 ≤ i → i < cs.length →
    bm.contains (cs.getD i default).position = false) :
    selected bm cs = cs.filter fun x => bm.contains x.position := by
  have hget : (List.range cs.length).map (fun i => cs.getD i default) = cs := by
    refine ext_getElem (by simp) fun i hi hi' => ?_
    rw [getElem_map, getElem_range, getD_eq_getElem _ _ hi']
  conv_rhs => rw [← hget, filter_map]
  refine map_congr_left fun i hi => ?_
  obtain ⟨hlt, hmem⟩ := mem_filter.mp hi
  rw [Nat.mod_eq_of_lt (by_contra fun hge => ?_)]
  rw [hlow i (not_lt.mp hge) (mem_range.mp hlt)] at hmem
  cases hmem

section PostFilter

/-- The first candidates by distance and position; NaNs come last, in any order. -/
structure Nearest (k : ℕ) (cs ds : List Candidate) : Prop where
  sorted : ds.Pairwise fun x y => x.rank ≤ y.rank
  length : ds.length = min k cs.length
  lowest : ∃ rest, (ds ++ rest).Perm cs ∧ ∀ x ∈ ds, ∀ y ∈ rest, x.rank ≤ y.rank

theorem nearest_topK (hk : 1 ≤ k) (cs : List Candidate) : Nearest k.toNat cs (topK k cs) := by
  have hkeeps := TopKHeap.keeps_foldl k cs
  obtain ⟨hperm, hsorted⟩ := Heap.drain_spec ranks hkeeps.ordered
  obtain ⟨rest, hrest, hlow⟩ := hkeeps.lowest
  have hle {x y : Candidate} (h : less x y = false) : x.rank ≤ y.rank := by
    rwa [← Bool.not_eq_true, less_iff_rank, not_lt] at h
  refine ⟨hsorted.imp hle, ?_, rest, ?_, fun x hx y hy => hle (hlow x (hperm.mem_iff.mp hx) y hy)⟩
  · rw [length_topK, max_eq_left hk]
  · exact ((hperm.append_right rest).trans hrest).trans (reverse_perm cs)

theorem Nearest.mem {k : ℕ} {ds : List Candidate} (h : Nearest k cs ds) (hk : cs.length ≤ k)
    {x : Candidate} (hx : x ∈ cs) : x ∈ ds := by
  obtain ⟨rest, hperm, -⟩ := h.lowest
  have hlen := hperm.length_eq
  rw [length_append, h.length, min_eq_right hk] at hlen
  rw [← append_nil ds, ← eq_nil_of_length_eq_zero (show rest.length = 0 by omega)]
  exact hperm.mem_iff.mpr hx

theorem post_filter_nearest_iff (hn : cs.Nodup) :
    (∀ k : ℤ, 1 ≤ k → ∃ ds, topKOp k (postFilterOp (some bm) (.ok (emit none cs))) =
      .ok (emit none ds) ∧ Nearest k.toNat (cs.filter fun x => bm.contains x.position) ds) ↔
    ∀ i, 2 ^ 16 ≤ i → i < cs.length → bm.contains (cs.getD i default).position = false := by
  constructor
  · intro h i hge hlt
    by_contra hc
    rw [Bool.not_eq_false, getD_eq_getElem _ _ hlt] at hc
    obtain ⟨ds, hds, hnear⟩ := h (max cs.length 1) (le_max_right ..)
    rw [topKOp_postFilterOp] at hds
    have hds := congrArg (flatMap Batch.live) (Except.ok.inj hds)
    rw [flatMap_live_emit_none, flatMap_live_emit_none] at hds
    have hlen := length_filter_le (fun x : Candidate => bm.contains x.position) cs
    have hmem := hnear.mem (by omega) (mem_filter.mpr ⟨getElem_mem hlt, hc⟩)
    rw [← hds] at hmem
    -- only the first rows have a number in 16 bits
    obtain ⟨j, hj, heq⟩ := mem_map.mp (mem_of_mem_topK hmem)
    have hmod := Nat.mod_lt j (show 2 ^ 16 > 0 by decide)
    rw [getD_eq_getElem _ _ (by omega)] at heq
    have := (hn.getElem_inj_iff).mp heq
    omega
  · intro h k hk
    exact ⟨_, topKOp_postFilterOp k bm cs, selected_eq_filter bm h ▸ nearest_topK hk _⟩

/-- A batch of one row more than a selection vector can number. -/
def wideBatch : List Candidate := (List.range (2 ^ 16 + 1)).map fun i => ⟨UInt32.ofNat i, ⟨0⟩⟩

/-- Only the last row passes the filter, and the first one is returned. -/
theorem post_filter_wraps :
    topKOp 1 (postFilterOp (some ⟨65537, [65536]⟩) (.ok (emit none wideBatch))) =
      .ok (emit none [⟨0, ⟨0⟩⟩]) ∧ PositionBitmap.contains ⟨65537, [65536]⟩ 0 = false := by
  have hlen : wideBatch.length = 2 ^ 16 + 1 := by
    rw [wideBatch, length_map, length_range]
  have hget (i : ℕ) (hi : i < 2 ^ 16 + 1) :
      wideBatch.getD i default = ⟨UInt32.ofNat i, ⟨0⟩⟩ := by
    rw [getD_eq_getElem _ _ (by omega)]
    simp only [wideBatch, getElem_map, getElem_range]
  have hsel : selected ⟨65537, [65536]⟩ wideBatch = [⟨0, ⟨0⟩⟩] := by
    rw [selected, hlen, range_succ, filter_append, filter_eq_nil_iff.mpr fun i hi => ?_]
    · rw [filter_singleton, hget _ (by omega)]
      change [wideBatch.getD (2 ^ 16 % 2 ^ 16) default] = _
      rw [Nat.mod_self, hget 0 (by omega)]
      rfl
    · have hi := mem_range.mp hi
      rw [hget i (by omega), PositionBitmap.contains]
      split
      · exact Bool.false_ne_true
      · intro h
        have heq := congrArg UInt32.toNat (mem_singleton.mp (of_decide_eq_true h))
        rw [UInt32.toNat_ofNat_of_lt' (by simp only [UInt32.size]; omega)] at heq
        simp at heq
        omega
  rw [topKOp_postFilterOp, hsel, topK_singleton]
  exact ⟨rfl, rfl⟩

theorem post_filter_nearest_three :
    let cs : List Candidate := [⟨4, ⟨2⟩⟩, ⟨0, ⟨1⟩⟩, ⟨2, ⟨0⟩⟩]
    topKOp 1 (postFilterOp (some ⟨5, [0, 4]⟩) (.ok (emit none cs))) = .ok (emit none [⟨0, ⟨1⟩⟩]) ∧
      ∀ k : ℤ, 1 ≤ k → ∃ ds,
        topKOp k (postFilterOp (some ⟨5, [0, 4]⟩) (.ok (emit none cs))) = .ok (emit none ds) ∧
        Nearest k.toNat (cs.filter fun x => PositionBitmap.contains ⟨5, [0, 4]⟩ x.position) ds := by
  refine ⟨?_, (post_filter_nearest_iff (by decide)).mpr fun i hge hlt => ?_⟩
  · rw [topKOp_postFilterOp, show topK 1 (selected _ _) = [⟨0, ⟨1⟩⟩] by decide +kernel]
  · exact absurd (hge.trans_lt hlt) (by decide)

end PostFilter

theorem mem_of_mem_ranked (h : x ∈ ranked k cs) : x ∈ cs :=
  (mergeSort_perm cs _).mem_iff.mp (mem_of_mem_take h)

theorem Picks.subset {ds : List Candidate} (h : Picks ec plan vector bm cs ds)
    (hx : x ∈ ds) : ∃ y ∈ cs, y.position = x.position := by
  unfold Picks at h
  split at h
  · obtain ⟨es, hes, -, rfl⟩ := h
    obtain ⟨i, hi, rfl⟩ := mem_iff_getElem.mp (mem_of_mem_ranked hx)
    have hi' : i < cs.length := hes.length_eq ▸ hi
    obtain ⟨v, -, heq⟩ := hes.get hi' hi
    refine ⟨cs[i], getElem_mem hi', ?_⟩
    exact (congrArg position heq).symm
  · subst h
    have hmem := mem_of_mem_topK hx
    split at hmem
    · exact ⟨x, mem_of_mem_selected hmem, rfl⟩
    · exact ⟨x, hmem, rfl⟩

end Source

end VecDb.Query

import VecDb.Query.Nearest

/-! # Exact plans

With an exact index, filtering in the index gives the nearest points that satisfy the predicate.
Filtering after the search gives those of them that are among the nearest of all: widening the
beam does not ask the index for more candidates.
-/

namespace VecDb.Query

open Mvcc Storage Fallible List PhysicalPlan Candidate

variable {c : Storage.Collection} {ec : ExecContext} {plan : PhysicalPlan} {vector : Vec} {ef : ℤ}
  {bm : PositionBitmap} {cs ds : List Candidate} {x y : Candidate} {metric : Metric}
  {snap : Option Snapshot} {dist : Vec → Float32}

theorem eq_of_position (hw : c.WF) (hg : c.InGrid) (hx : x ∈ candidates c snap dist)
    (hy : y ∈ candidates c snap dist) (h : x.position = y.position) : x = y := by
  obtain ⟨di, slot, s, hl, -, rfl⟩ := hx
  obtain ⟨di', slot', s', hl', -, rfl⟩ := hy
  dsimp only at h
  have hpos := c.colPos_toNat (hg _ _ _ hl)
  rw [h, c.colPos_toNat (hg _ _ _ hl')] at hpos
  obtain ⟨rfl, rfl⟩ := hl.number_inj hw hl' hpos.symm
  cases hl.seg.symm.trans hl'.seg
  rfl

theorem separate_of_subset (hw : c.WF) (hg : c.InGrid)
    (hnum : ∀ x ∈ candidates c snap dist, x.distance.isNaN = false) (hnodup : cs.Nodup)
    (hsub : ∀ x ∈ cs, x ∈ candidates c snap dist) : Separate cs := by
  refine ⟨hnodup.map_on fun x hx y hy h => ?_, fun x hx => hnum x (hsub x hx)⟩
  exact eq_of_position hw hg (hsub x hx) (hsub y hy) h

theorem rescored_self (hw : c.WF) (hg : c.InGrid)
    (hc : ec.coll.engine.colls ec.coll.collID = some c)
    (hdims : UInt32.ofNat ec.coll.dims = c.dims) (hx : x ∈ ec.points c metric vector) :
    Rescored ec vector metric x x := by
  obtain ⟨di, slot, s, hl, -, rfl⟩ := hx
  refine ⟨_, ?_, rfl⟩
  rw [Engine.fetchVector, hc]
  exact hl.fetchVector hw (c.colPos_toNat (hg _ _ _ hl)) hdims

theorem ranked_eq_take {k : ℤ} (hs : Separate cs) (h : cs.Pairwise fun x y => x.rank < y.rank) :
    ranked k cs = cs.take k.toNat :=
  (lowest_ranked k hs).unique
    ((Lowest.self h (Nat.le_max_left _ k.toNat)).take (Nat.le_max_right _ k.toNat))

theorem topK_eq_self {k : ℤ} (hk : 1 ≤ k) (hs : Separate cs)
    (h : cs.Pairwise fun x y => x.rank < y.rank) (hlen : cs.length ≤ k.toNat) : topK k cs = cs :=
  (lowest_topK hk hs).unique (Lowest.self h hlen)

theorem PhysicalPlan.k_le_maxK (hk : 1 ≤ plan.k) : plan.k ≤ plan.maxK := by
  unfold maxK
  split
  · split <;> omega
  · exact le_rfl

theorem PhysicalPlan.machineK_eq (hk : 1 ≤ plan.k) (hroom : plan.k ≤ 2 ^ 45) :
    plan.machineK = plan.maxK := by
  rw [machineK, maxK, Int.bmod_eq_of_le (by omega) (by omega)]

theorem length_le_scan (hw : c.WF) (hnodup : cs.Nodup)
    (hsub : ∀ x ∈ cs, x ∈ candidates c snap dist) : cs.length ≤ (c.scanVectors snap).length := by
  have hle := (subperm_of_subset hnodup fun x hx =>
    (@mem_scanned _ _ _ (fun _ => true) _ hw).mpr ⟨hsub x hx, rfl⟩).length_le
  refine hle.trans ?_
  rw [scanned, length_map]
  exact length_filter_le _ _

def PhysicalPlan.pick (plan : PhysicalPlan) (bm : PositionBitmap) (cs : List Candidate) :
    List Candidate :=
  if plan.rerank then cs.take plan.k.toNat
  else if plan.filter = .filterPost then cs.filter fun x => bm.contains x.position else cs

theorem mem_of_mem_pick (hx : x ∈ plan.pick bm cs) : x ∈ cs := by
  unfold pick at hx
  split at hx
  · exact mem_of_mem_take hx
  · split at hx
    · exact mem_of_mem_filter hx
    · exact hx

theorem picks_pick (hw : c.WF) (hg : c.InGrid) (hc : ec.coll.engine.colls ec.coll.collID = some c)
    (hdims : UInt32.ofNat ec.coll.dims = c.dims)
    (hnum : ∀ x ∈ ec.points c plan.metric vector, x.distance.isNaN = false) (hk : 1 ≤ plan.k)
    (hsel : plan.filter = .filterPost → plan.rerank = false → plan.k ≤ 2 ^ 16 ∨
      (c.scanVectors (some ec.snapshot)).length ≤ 2 ^ 16) {p : Candidate → Prop}
    (h : Lowest rank {x ∈ ec.points c plan.metric vector | p x} plan.maxK.toNat cs) :
    Picks ec plan vector bm cs (plan.pick bm cs) := by
  have hsub : ∀ x ∈ cs, x ∈ ec.points c plan.metric vector := fun x hx => (h.mem x hx).1
  have hsep := separate_of_subset hw hg hnum h.nodup hsub
  unfold Picks pick
  rcases hrerank : plan.rerank with _ | _ <;> simp only [if_true, Bool.false_eq_true, if_false]
  · have hlen : cs.length ≤ plan.k.toNat := by
      have := h.length_le
      rwa [maxK, hrerank, if_neg Bool.false_ne_true] at this
    by_cases hpost : plan.filter = .filterPost
    · have hlen' : cs.length ≤ 2 ^ 16 := by
        have := length_le_scan hw h.nodup hsub
        have := hsel hpost hrerank
        omega
      rw [if_pos hpost, if_pos hpost, selected_eq_filter bm fun i _ _ => by omega]
      refine (topK_eq_self hk ⟨?_, ?_⟩ ?_ ?_).symm
      · exact hsep.nodup.sublist (filter_sublist.map _)
      · exact fun x hx => hsep.number x (mem_of_mem_filter hx)
      · exact h.sorted.sublist filter_sublist
      · exact (length_filter_le _ _).trans hlen
    · rw [if_neg hpost, if_neg hpost, topK_eq_self hk hsep h.sorted hlen]
  · refine ⟨cs, forall₂_same.mpr fun x hx => ?_, fun _ => by omega, ?_⟩
    · exact rescored_self hw hg hc hdims (hsub x hx)
    · exact (ranked_eq_take hsep h.sorted).symm

section Rows

variable {names : List String} {row row' : Row}

theorem WithMeta.unique {cols : List ColID} {r r' : BatchRow} (h : WithMeta ec cols x r)
    (h' : WithMeta ec cols x r') : r = r' := by
  unfold WithMeta at h h'
  split at h
  · rw [if_pos ‹_›] at h'
    rw [h, h']
  · rw [if_neg ‹_›] at h'
    obtain ⟨record, hr, rfl⟩ := h
    obtain ⟨record', hr', rfl⟩ := h'
    cases hr.symm.trans hr'
    rfl

theorem RowOf.unique (h : RowOf ec names x row) (h' : RowOf ec names x row') : row = row' := by
  obtain ⟨r, id, hr, hid, rfl⟩ := h
  obtain ⟨r', id', hr', hid', rfl⟩ := h'
  cases hid.symm.trans hid'
  rw [hr.unique hr']

theorem RowOf.candidate_eq (hw : c.WF) (hg : c.InGrid) (ho : c.Owned)
    (hc : ec.coll.engine.colls ec.coll.collID = some c) (hx : x ∈ candidates c snap dist)
    (hy : y ∈ candidates c snap dist) (h : RowOf ec names x row) (h' : RowOf ec names y row) :
    x = y := by
  obtain ⟨r, id, -, hid, rfl⟩ := h
  obtain ⟨r', id', -, hid', heq⟩ := h'
  obtain rfl : id = id' := congrArg Row.pointID heq
  rw [Engine.lookupPos, hc] at hid hid'
  obtain ⟨di, slot, s, hl, hp, hback⟩ := (Collection.lookupPos_eq_ok hw).mp hid
  obtain ⟨di', slot', s', hl', hp', hback'⟩ := (Collection.lookupPos_eq_ok hw).mp hid'
  obtain ⟨rfl, rfl⟩ := ho.unique hw hl hl' (hback.trans hback'.symm)
  exact eq_of_position hw hg hx hy (UInt32.toNat_inj.mp (hp.trans hp'.symm))

theorem rows_eq_iff {rows rows' : List Row} (h : List.Forall₂ (RowOf ec names) cs rows)
    (h' : List.Forall₂ (RowOf ec names) ds rows') : (cs = ds → rows = rows') ∧
      (c.WF → c.InGrid → c.Owned → ec.coll.engine.colls ec.coll.collID = some c →
        (∀ x ∈ cs, x ∈ candidates c snap dist) → (∀ x ∈ ds, x ∈ candidates c snap dist) →
        rows = rows' → cs = ds) := by
  constructor
  · rintro rfl
    exact right_unique_forall₂' (fun _ _ _ hx hx' => hx.unique hx') h h'
  · rintro hw hg ho hc hcs hds rfl
    refine left_unique_forall₂' (fun x y row hx hy => ?_)
      ((forall₂_and_left cs rows).mpr ⟨hcs, h⟩) ((forall₂_and_left ds rows).mpr ⟨hds, h'⟩)
    exact hx.2.candidate_eq hw hg ho hc hx.1 hy.1 hy.2

theorem exists_rows (hw : c.WF) (hg : c.InGrid) (hc : ec.coll.engine.colls ec.coll.collID = some c)
    (hsnap : ec.snapshot = ec.coll.engine.snapshot)
    (hds : ∀ x ∈ ds, x ∈ ec.points c metric vector) :
    ∃ rows, List.Forall₂ (RowOf ec plan.project) ds rows := by
  refine exists_forall₂ fun x hx => ?_
  obtain ⟨di, slot, s, hl, hvis, heq⟩ := hds x hx
  have hpos : x.position.toNat = di * c.capacity.toNat + slot := by
    rw [heq]
    exact c.colPos_toNat (hg _ _ _ hl)
  obtain ⟨row, hrow, -⟩ := rowOf_live hw hc hsnap ⟨hl, .inr (hsnap ▸ hvis)⟩ hpos
  exact ⟨row, hrow⟩

end Rows

section Run

variable {rows : List Row}

/-- The plan has the result, once it is given enough fuel. -/
def Executor.Runs (e : Executor) (plan : PhysicalPlan) (vector : Vec) (rs : ResultSet) : Prop :=
  ∃ n, ∀ fuel, n ≤ fuel → e.execute fuel (fun _ => none) plan vector = some (.ok rs)

theorem runPlan_uncancelled (hrows : ∀ ef, ∃ bs, buildTree ec plan vector ef = .ok (.ok bs) ∧
      bs.flatMap (appendRows ec.coll plan.project) = rows)
    (hef : plan.allowWiden = true → 0 < ef ∨ plan.maxEfSearch ≤ ef) (i fuel : ℕ)
    (hfuel : (plan.maxEfSearch - ef).toNat < fuel) :
    runPlan ec plan vector (fun _ => none) fuel ef i = some (.ok ⟨rows, false, ""⟩) := by
  induction fuel generalizing ef i with
  | zero => omega
  | succ fuel ih =>
    obtain ⟨bs, hbs, hr⟩ := hrows ef
    obtain ⟨hrows', hc⟩ := @pull_uncancelled ec.coll plan.project bs i
    rw [runPlan, hbs, ok_bind]
    simp only [drive, hrows', hc, hr]
    split
    · rename_i hw
      have hpos := hef hw.1
      exact ih (fun _ => .inl (by omega)) _ (by omega)
    · rfl

theorem Executor.runs_of_rows {e : Executor} (hvec : vector.length = e.coll.dims)
    (hef : plan.allowWiden = true → 0 < plan.efSearch ∨ plan.maxEfSearch ≤ plan.efSearch)
    (hrows : ∀ ef, ∃ bs, buildTree e.context plan vector ef = .ok (.ok bs) ∧
      bs.flatMap (appendRows e.coll plan.project) = rows) :
    e.Runs plan vector ⟨rows, false, ""⟩ := by
  refine ⟨(plan.maxEfSearch - plan.efSearch).toNat + 1, fun fuel hfuel => ?_⟩
  rw [execute, if_neg (not_not.mpr hvec)]
  exact runPlan_uncancelled hrows hef 0 fuel hfuel

end Run

namespace Executor

variable {e : Executor} {bitmap : Option PositionBitmap}

theorem runs_nearest (hw : c.WF) (hg : c.InGrid) (hc : e.coll.engine.colls e.coll.collID = some c)
    (hdims : UInt32.ofNat e.coll.dims = c.dims) (hvec : vector.length = e.coll.dims)
    (hbm : filterBitmap e.context plan = .ok bitmap)
    (hpost : plan.filter = .filterPost → bitmap = some bm) (hk : 1 ≤ plan.k)
    (hnum : ∀ x ∈ e.context.points c plan.metric vector, x.distance.isNaN = false)
    (hix : plan.path ≠ .flat → ∃ ix, e.coll.index = some ix ∧ ix.Exact c
      (some e.coll.engine.snapshot) (rankKernel e.kernels plan.metric vector) vector)
    (hsel : plan.filter = .filterPost → plan.rerank = false → plan.k ≤ 2 ^ 16 ∨
      (c.scanVectors (some e.coll.engine.snapshot)).length ≤ 2 ^ 16)
    (hef : plan.allowWiden = true → 0 < plan.efSearch ∨ plan.maxEfSearch ≤ plan.efSearch) :
    ∃ cs rows, Lowest rank {x ∈ e.context.points c plan.metric vector |
        plan.Pushed → bitmap.all (·.contains x.position) = true} plan.maxK.toNat cs ∧
      List.Forall₂ (RowOf e.context plan.project) (plan.pick bm cs) rows ∧
      e.Runs plan vector ⟨rows, false, ""⟩ := by
  have hmaxK := hk.trans (k_le_maxK hk)
  have hsource := fun ef => @lowest_source c e.context plan vector ef bitmap hw hg hc hnum hmaxK hix
  obtain ⟨cs, hsrc, hlow⟩ := hsource 0
  have hpick := @picks_pick c e.context plan vector bm cs hw hg hc hdims hnum hk hsel _ hlow
  have hds : ∀ x ∈ plan.pick bm cs, x ∈ e.context.points c plan.metric vector := fun x hx =>
    (hlow.mem x (mem_of_mem_pick hx)).1
  obtain ⟨rows, hrows⟩ := @exists_rows c e.context plan vector _ plan.metric hw hg hc rfl hds
  refine ⟨cs, rows, hlow, hrows, runs_of_rows hvec hef fun ef => ?_⟩
  -- an exact index does not depend on the beam
  obtain ⟨cs', hsrc', hlow'⟩ := hsource ef
  obtain rfl := hlow.unique hlow'
  exact (buildTree_rows hbm hpost).mpr ⟨cs, _, hsrc', hpick, hrows⟩

end Executor

section Pick

variable {s : Set Candidate}

theorem lowest_pick (hk : 1 ≤ plan.k)
    (h : Lowest rank {x ∈ s | bm.contains x.position = true} plan.maxK.toNat cs) :
    Lowest rank {x ∈ s | bm.contains x.position = true} plan.k.toNat (plan.pick bm cs) := by
  have hcut := h.take (show plan.k.toNat ≤ plan.maxK.toNat by
    have := k_le_maxK hk
    omega)
  unfold pick
  rcases hrerank : plan.rerank with _ | _ <;> simp only [if_true, Bool.false_eq_true, if_false]
  · have hlen := h.length_le
    rw [maxK, hrerank, if_neg Bool.false_ne_true] at hlen
    have hall : cs.filter (fun x => bm.contains x.position) = cs :=
      List.filter_eq_self.mpr fun x hx => (h.mem x hx).2
    rw [take_of_length_le hlen] at hcut
    split
    · rwa [hall]
    · exact hcut
  · exact hcut

/-- The plan finds the nearest points with the property, given the nearest points of all. -/
def Covers (plan : PhysicalPlan) (near all : List Candidate) : Prop :=
  plan.filter = .filterPost → if plan.rerank then ∀ x ∈ all, x ∈ near else ∀ x ∈ near, x ∈ all

theorem pick_eq_iff (hk : 1 ≤ plan.k) (hpost : plan.filter = .filterPost) {near all : List Candidate}
    (h : Lowest rank s plan.maxK.toNat cs) (hall : Lowest rank s plan.k.toNat all)
    (hnear : Lowest rank {x ∈ s | bm.contains x.position = true} plan.k.toNat near) :
    plan.pick bm cs = near ↔ Covers plan near all := by
  have hcut := h.take (show plan.k.toNat ≤ plan.maxK.toNat by
    have := k_le_maxK hk
    omega)
  obtain rfl := hall.unique hcut
  unfold pick Covers
  simp only [hpost, true_imp_iff, if_true]
  rcases hrerank : plan.rerank with _ | _ <;> simp only [if_true, Bool.false_eq_true, if_false]
  · have hlen := h.length_le
    rw [maxK, hrerank, if_neg Bool.false_ne_true] at hlen
    rw [take_of_length_le hlen, ← Lowest.filter_eq_iff (take_of_length_le hlen ▸ hcut) hnear]
    simp
  · rw [hcut.eq_iff hnear]
    exact ⟨fun hp x hx => (hcut.eq_iff hnear).mpr hp ▸ hx, fun hsub x hx => (hnear.mem x (hsub x hx)).2⟩

end Pick

namespace Executor

variable {e : Executor} {pred : Predicate}

/-- The squared distance of vectors that have the number 0 or 1 as their only component. -/
def unitKernel (a b : Vec) : Float32 := if a = b then ⟨0⟩ else ⟨0x3f800000⟩

/-- An executor with an index that goes through the points of collection 1. -/
def bruteExecutor (events : List Event) : Executor where
  coll :=
    { engine := (Sys.after events).engine, collID := 1, dims := 1
      index := ((Sys.after events).engine.colls 1).map fun c =>
        .brute c (some (Sys.after events).engine.snapshot) unitKernel
      indexKind := .hnsw }
  workers := 2
  kernels := ⟨unitKernel, unitKernel, unitKernel⟩

theorem unitKernel_number (a b : Vec) : (unitKernel a b).isNaN = false := by
  unfold unitKernel
  split <;> decide

def oneCell (v : Value) : MetaRow := ⟨[(1, v)], by simp⟩

def twoPoints : List Event :=
  [.create Sys.plainDef, .begin, .call 1 (.insert .id 5 [0] (oneCell (.int 3))),
    .call 1 (.insert .id 6 [0x3f800000] (oneCell (.int 4))), .drawSeq, .publish]

section Workers

variable (hc : ec.coll.engine.colls ec.coll.collID = some c) (hw : c.WF) (hg : c.InGrid)
  (hnum : ∀ x ∈ ec.points c plan.metric vector, x.distance.isNaN = false) (hk : 1 ≤ plan.maxK)
  (workers : ℕ)
include hc hw hg hnum hk

theorem flatScanOp_eq_ranked (bitmap : Option PositionBitmap) :
    flatScanOp { ec with workers } vector plan.maxK plan.metric bitmap =
      .ok (.ok (writeCandidates (ranked plan.maxK (scanned c (some ec.snapshot)
        (rankKernel ec.kernels plan.metric vector) fun p => bitmap.all (·.contains p))))) := by
  have hs := separate_scanned hw hg hnum fun p => bitmap.all (·.contains p)
  rw [← (lowest_flatTopK hk hs workers).unique (lowest_ranked plan.maxK hs)]
  simp only [flatScanOp, Engine.scanVectors, hc]
  rfl

theorem buildTree_workers :
    buildTree { ec with workers } plan vector ef = buildTree ec plan vector ef := by
  have hsource : ∀ bitmap, buildSource { ec with workers } plan bitmap vector ef =
      buildSource ec plan bitmap vector ef := by
    intro bitmap
    unfold buildSource
    split
    · rw [flatScanOp_eq_ranked hc hw hg hnum hk workers bitmap]
      exact (flatScanOp_eq_ranked hc hw hg hnum hk ec.workers bitmap).symm
    · rfl
  unfold buildTree
  simp only [hsource]
  rfl

theorem runPlan_workers (ctx : Ctx) (fuel i : ℕ) :
    runPlan { ec with workers } plan vector ctx fuel ef i = runPlan ec plan vector ctx fuel ef i := by
  induction fuel generalizing ef i with
  | zero => rfl
  | succ fuel ih =>
    simp only [runPlan, buildTree_workers hc hw hg hnum hk workers, ih]

end Workers

/-- In every reachable state, where no distance is NaN, the answer of a query does not depend on
the number of workers that its scan is split among. -/
theorem execute_any_workers {s : Sys} {e : Executor} (hs : s.Reachable)
    (he : e.coll.engine = s.engine) (hc : s.engine.colls e.coll.collID = some c) (hg : c.InGrid)
    (hnum : ∀ x ∈ e.context.points c plan.metric vector, x.distance.isNaN = false)
    (hk : 1 ≤ plan.maxK) (workers fuel : ℕ) (ctx : Ctx) :
    ({ e with workers } : Executor).execute fuel ctx plan vector =
      e.execute fuel ctx plan vector := by
  have h := @runPlan_workers c e.context plan vector plan.efSearch (he ▸ hc) (hs.inv.wf hc) hg hnum
    hk workers ctx fuel 0
  exact congrArg (ite _ _) h

theorem execute_any_workers_two : (Sys.after twoPoints).Reachable ∧
    ({ bruteExecutor twoPoints with workers := 1 } : Executor).execute 1 (fun _ => none)
      { k := 2 } [0] = (bruteExecutor twoPoints).execute 1 (fun _ => none) { k := 2 } [0] := by
  have hs : (Sys.after twoPoints).Reachable := Sys.reachable_after (by decide)
  obtain ⟨c, hc, hsmall⟩ : ∃ c, (Sys.after twoPoints).engine.colls 1 = some c ∧
      c.segs.length * c.capacity.toNat ≤ 2 ^ 32 := ⟨_, rfl, by decide⟩
  refine ⟨hs, execute_any_workers hs rfl hc ((hs.inv.wf hc).inGrid hsmall) ?_ (by decide) 1 1 _⟩
  rintro x ⟨_, _, _, -, -, rfl⟩
  exact unitKernel_number _ _

end Executor

end VecDb.Query

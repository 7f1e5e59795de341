import VecDb.Base.Ranking
import VecDb.Query.Safety

/-! # The nearest points

The flat scan finds the nearest of the live and visible points in its filter, whatever the number
of its workers. An index is exact for a query if it does the same.
-/

namespace VecDb.Query

open Mvcc Storage Fallible List Candidate TopKHeap

variable {c : Storage.Collection} {snap : Option Snapshot} {dist : Vec → Float32}
  {keep : UInt32 → Bool} {k : ℤ} {cs : List Candidate} {x y : Candidate}

def candidates (c : Storage.Collection) (snap : Option Snapshot) (dist : Vec → Float32) :
    Set Candidate :=
  {x | ∃ di slot s, c.Live di slot s ∧ visibleIn snap (s.version slot) = true ∧
    x = ⟨c.colPos di slot, dist (c.codec.decode (s.data slot))⟩}

def scanned (c : Storage.Collection) (snap : Option Snapshot) (dist : Vec → Float32)
    (keep : UInt32 → Bool) : List Candidate :=
  ((c.scanVectors snap).filter fun x => keep x.1).map fun x => ⟨x.1, dist x.2⟩

theorem mem_scanned (hc : c.WF) :
    x ∈ scanned c snap dist keep ↔ x ∈ candidates c snap dist ∧ keep x.position = true := by
  simp only [scanned, mem_map, mem_filter, hc.mem_scanVectors]
  constructor
  · rintro ⟨_, ⟨⟨di, slot, s, hl, hvis, rfl⟩, hkeep⟩, rfl⟩
    exact ⟨⟨di, slot, s, hl, hvis, rfl⟩, hkeep⟩
  · rintro ⟨⟨di, slot, s, hl, hvis, rfl⟩, hkeep⟩
    exact ⟨_, ⟨⟨di, slot, s, hl, hvis, rfl⟩, hkeep⟩, rfl⟩

theorem separate_scanned (hc : c.WF) (hg : c.InGrid)
    (hnum : ∀ x ∈ candidates c snap dist, x.distance.isNaN = false) (keep : UInt32 → Bool) :
    Separate (scanned c snap dist keep) := by
  refine ⟨?_, fun x hx => hnum x ((mem_scanned hc).mp hx).1⟩
  rw [scanned, map_map]
  exact (hg.scanVectors_nodup hc snap).sublist (filter_sublist.map Prod.fst)

section Heaps

theorem flatten_morsels (workers : ℕ) (items : List Candidate) :
    (morsels workers items).flatten = items := by
  have hcut : ∀ chunk n : ℕ, ((List.range n).map fun w =>
      (items.drop (w * chunk)).take chunk).flatten = items.take (n * chunk) := by
    intro chunk n
    induction n with
    | zero => simp
    | succ n ih =>
      rw [range_succ, map_append, flatten_append, ih, Nat.succ_mul, take_add]
      simp
  unfold morsels
  generalize hn : max (min workers items.length) 1 = n
  have hn' : 0 < n := by omega
  rw [hcut]
  refine take_of_length_le ?_
  have hdiv := Nat.div_add_mod (items.length + n - 1) n
  have hmod := Nat.mod_lt (items.length + n - 1) hn'
  omega

theorem lowest_flatTopK (hk : 1 ≤ k) (hs : Separate cs) (workers : ℕ) :
    Lowest rank {x | x ∈ cs} k.toNat (flatTopK workers k cs) := by
  have hchunks : List.Forall₂ (Heap.Keeps less (max k 1).toNat) (morsels workers cs)
      ((morsels workers cs).map fun cs => (cs.foldl push (newTopKHeap k)).data) := by
    rw [forall₂_map_right_iff, forall₂_same]
    exact fun chunk _ => (keeps_foldl k chunk).perm (reverse_perm chunk)
  have hmerged := (keeps_foldl k (((morsels workers cs).map fun cs =>
    cs.foldl push (newTopKHeap k)).flatMap data)).perm (reverse_perm _)
  have hall := @Heap.keeps_flatten _ _ _ _ ranks _ _ _ [] hchunks
    (by rwa [append_nil, ← flatMap_def, ← flatMap_map _ data])
  rw [append_nil, flatten_morsels, max_eq_left hk] at hall
  exact hs.lowest_drain (.refl _) hall

theorem lowest_ranked (k : ℤ) (hs : Separate cs) :
    Lowest rank {x | x ∈ cs} k.toNat (ranked k cs) := by
  have hperm := mergeSort_perm cs fun x y => !less x y
  have hstrict : (cs.mergeSort fun x y => !less x y).Pairwise
      fun x y => x.rank < y.rank := by
    refine Ranking.pairwise_lt_mergeSort (fun x y => ?_) (.of_map _ hs.nodup)
      fun x hx y hy heq => hs.eq_of_rank hx hy heq
    rw [Bool.not_eq_true', ← Bool.not_eq_true, less_iff_rank, not_lt]
  have hall := (Lowest.self hstrict (Nat.le_max_left _ k.toNat)).take (Nat.le_max_right _ k.toNat)
  simp only [hperm.mem_iff] at hall
  exact hall

end Heaps

section Index

def admits (f : Option BitmapFilter) (p : UInt32) : Bool :=
  f.all fun g => g.bm.all fun bm => bm.contains p

/-- The index answers every search for the vector exactly. -/
def Index.Exact (ix : Index) (c : Storage.Collection) (snap : Option Snapshot)
    (dist : Vec → Float32) (q : Vec) : Prop :=
  ∀ k f params, ∃ cs, ix.search q k f params = .ok cs ∧
    Lowest Candidate.rank {x ∈ candidates c snap dist | admits f x.position = true} k.toNat cs

theorem length_searched : (if k < 1 then [] else topK k cs).length ≤ k.toNat := by
  split
  · exact Nat.zero_le _
  · rw [length_topK]
    omega

theorem mem_searched {x : Candidate} (h : x ∈ if k < 1 then [] else topK k cs) : x ∈ cs := by
  split at h
  · cases h
  · exact mem_of_mem_topK h

def Index.brute (c : Storage.Collection) (snap : Option Snapshot)
    (kernel : Vec → Vec → Float32) : Index where
  search q k f _ := .ok (if k < 1 then [] else topK k (scanned c snap (kernel q) (admits f)))
  length_le h := by
    cases h
    exact length_searched
  within h x hx := by
    cases h
    obtain ⟨y, hy, rfl⟩ := mem_map.mp (mem_searched hx)
    exact (mem_filter.mp hy).2

theorem Index.exact_brute (hc : c.WF) (hg : c.InGrid) {kernel : Vec → Vec → Float32} {q : Vec}
    (hnum : ∀ x ∈ candidates c snap (kernel q), x.distance.isNaN = false) :
    (brute c snap kernel).Exact c snap (kernel q) q := by
  intro k f params
  refine ⟨_, rfl, ?_⟩
  split
  · rw [Int.toNat_of_nonpos (by omega)]
    exact ⟨.nil, nofun, Nat.le_refl 0, fun _ _ _ => ⟨rfl, nofun⟩⟩
  · have h := lowest_topK (Int.not_lt.mp ‹_›) (separate_scanned hc hg hnum (admits f))
    simp only [mem_scanned hc] at h
    exact h

end Index

section Source

variable {ec : ExecContext} {plan : PhysicalPlan} {vector : Vec} {ef : ℤ}
  {bitmap : Option PositionBitmap}

/-- The live and visible points with their distances from the query. -/
abbrev ExecContext.points (ec : ExecContext) (c : Storage.Collection) (metric : Metric)
    (vector : Vec) : Set Candidate :=
  candidates c (some ec.snapshot) (rankKernel ec.kernels metric vector)

def PhysicalPlan.Pushed (plan : PhysicalPlan) : Prop :=
  plan.path = .flat ∨ plan.filter = .filterPre ∨ plan.filter = .filterIn

theorem lowest_source (hw : c.WF) (hg : c.InGrid)
    (hc : ec.coll.engine.colls ec.coll.collID = some c)
    (hnum : ∀ x ∈ ec.points c plan.metric vector, x.distance.isNaN = false)
    (hk : 1 ≤ plan.maxK) (hix : plan.path ≠ .flat → ∃ ix, ec.coll.index = some ix ∧
      ix.Exact c (some ec.snapshot) (rankKernel ec.kernels plan.metric vector) vector) :
    ∃ cs, buildSource ec plan bitmap vector ef = .ok (.ok (emit none cs)) ∧
      Lowest rank {x ∈ ec.points c plan.metric vector |
        plan.Pushed → bitmap.all (·.contains x.position) = true} plan.maxK.toNat cs := by
  unfold buildSource
  split
  · rename_i hpath
    have hpushed : plan.Pushed := .inl hpath
    have h := lowest_flatTopK hk (separate_scanned hw hg hnum fun p => bitmap.all (·.contains p))
      ec.workers
    simp only [mem_scanned hw] at h
    refine ⟨_, ?_, by simpa only [hpushed, true_imp_iff] using h⟩
    simp only [flatScanOp, Engine.scanVectors, hc]
    rfl
  · rename_i hpath
    obtain ⟨ix, hix, hexact⟩ := hix hpath
    obtain ⟨cs, hcs, hlow⟩ := hexact plan.maxK (plan.indexFilter bitmap)
      { efSearch := ef, nProbe := plan.nProbe, maxCandidates := plan.maxK }
    rw [hix]
    refine ⟨cs, indexScanOp_eq_ok.mpr ⟨cs, hcs, rfl⟩, ?_⟩
    have hadmits : ∀ p, admits (plan.indexFilter bitmap) p = true ↔
        (plan.Pushed → bitmap.all (·.contains p) = true) := by
      intro p
      unfold admits PhysicalPlan.indexFilter PhysicalPlan.Pushed
      split
      · simp [*]
      · simp_all
    simpa only [hadmits] using hlow

end Source

end VecDb.Query

import VecDb.Index.Hnsw

/-! # The graph of an HNSW index

Every history of calls keeps a graph that a search never leaves. The lists are in order as well if
no position is inserted twice and none is the mark of an absent entry point.
-/

namespace VecDb.Index.HNSW

open List AList

variable {D : Type*} {h h' base : HNSW D} {pos p q : UInt32} {l layer level : ℕ}
  {ns : List UInt32} {tidy valid : Prop}

section Shape

def reaches (h : HNSW D) (l : ℕ) (p : UInt32) : Prop :=
  ∃ n, h.nodes.lookup p = some n ∧ l ≤ n.maxLevel

/-- The states differ in their neighbour lists at most. -/
structure SameShape (h h' : HNSW D) : Prop where
  rest : h' = { h with nodes := h'.nodes }
  node : ∀ p, (h'.nodes.lookup p).map (fun n => (n.maxLevel, n.deleted)) =
    (h.nodes.lookup p).map fun n => (n.maxLevel, n.deleted)

theorem SameShape.trans {h'' : HNSW D} (hs : SameShape h h') (hs' : SameShape h' h'') :
    SameShape h h'' :=
  ⟨by rw [hs'.rest, hs.rest], fun p => (hs'.node p).trans (hs.node p)⟩

theorem SameShape.lookup (hs : SameShape h h') {n : Node} (hn : h.nodes.lookup p = some n) :
    ∃ n', h'.nodes.lookup p = some n' ∧ n'.maxLevel = n.maxLevel ∧ n'.deleted = n.deleted := by
  have := hs.node p
  rw [hn, Option.map_some, Option.map_eq_some_iff] at this
  simpa using this

theorem SameShape.symm (hs : SameShape h h') : SameShape h' h :=
  ⟨by rw [hs.rest], fun p => (hs.node p).symm⟩

theorem mem_nodes : p ∈ h.nodes ↔ ∃ n, h.nodes.lookup p = some n := by
  rw [← lookup_isSome, Option.isSome_iff_exists]

theorem SameShape.mem (hs : SameShape h h') (hp : p ∈ h.nodes) : p ∈ h'.nodes := by
  obtain ⟨n, hn⟩ := mem_nodes.mp hp
  obtain ⟨n', hn', -⟩ := hs.lookup hn
  exact mem_nodes.mpr ⟨n', hn'⟩

theorem SameShape.reaches (hs : SameShape h h') (hp : h.reaches l p) : h'.reaches l p := by
  obtain ⟨n, hn, hl⟩ := hp
  obtain ⟨n', hn', hlevel, -⟩ := hs.lookup hn
  exact ⟨n', hn', hlevel ▸ hl⟩

theorem sameShape_setNeighbors : SameShape h (h.setNeighbors p layer ns) := by
  unfold setNeighbors
  split
  · rename_i n hn
    refine ⟨rfl, fun q => ?_⟩
    by_cases hq : q = p
    · subst hq
      simp [hn]
    · simp [lookup_insert_ne hq]
  · exact ⟨rfl, fun _ => rfl⟩

end Shape

/-- A list without repetitions, not too long, of other nodes that reach the layer. -/
structure TidyList (h : HNSW D) (p : UInt32) (l : ℕ) (ns : List UInt32) : Prop where
  nodup : ns.Nodup
  self : p ∉ ns
  reach : ∀ q ∈ ns, h.reaches l q
  length : ns.length ≤ h.maxNeighbors l

/-- A list of nodes, in order if the history is. -/
structure ListOk (tidy : Prop) (h : HNSW D) (p : UInt32) (l : ℕ) (ns : List UInt32) : Prop where
  node : ∀ q ∈ ns, q ∈ h.nodes
  tidy : tidy → h.TidyList p l ns

/-- The graph while a node is linked: its lower layers do not know it yet. -/
structure Linking (tidy : Prop) (pos : UInt32) (base : HNSW D) (l : ℕ) (h : HNSW D) : Prop where
  shape : SameShape base h
  lists : ∀ p n l', h.nodes.lookup p = some n → base.ListOk tidy p l' (n.neighbors l') ∧
    (tidy → l' < l → pos ∉ n.neighbors l')

theorem Linking.setNeighbors (hk : Linking tidy pos base l h) (hok : base.ListOk tidy p l ns) :
    Linking tidy pos base l (h.setNeighbors p l ns) := by
  refine ⟨hk.shape.trans sameShape_setNeighbors, fun q n l' hn => ?_⟩
  unfold HNSW.setNeighbors at hn
  split at hn
  · rename_i n₀ hn₀
    by_cases hq : q = p
    · subst hq
      simp only [lookup_insert, Option.some.injEq] at hn
      subst hn
      by_cases hl : l' = l
      · subst hl
        simpa using hok
      · simpa [hl] using hk.lists q n₀ l' hn₀
    · rw [lookup_insert_ne hq] at hn
      exact hk.lists q n l' hn
  · exact hk.lists q n l' hn

/-- The nodes a search for a new node's neighbours may come to. -/
def Hop (tidy : Prop) (pos : UInt32) (base : HNSW D) (l : ℕ) (p : UInt32) : Prop :=
  p ∈ base.nodes ∧ (tidy → p ≠ pos ∧ base.reaches l p)

theorem Hop.mono {l' : ℕ} (hp : Hop tidy pos base l p) (hl : l' ≤ l) : Hop tidy pos base l' p := by
  refine ⟨hp.1, fun ht => ⟨(hp.2 ht).1, ?_⟩⟩
  obtain ⟨n, hn, hle⟩ := (hp.2 ht).2
  exact ⟨n, hn, hl.trans hle⟩

theorem mem_neighborsAt (hq : q ∈ h.neighborsAt l p) :
    ∃ n, h.nodes.lookup p = some n ∧ l ≤ n.maxLevel ∧ q ∈ n.neighbors l := by
  unfold neighborsAt at hq
  split at hq
  · rename_i n hn
    split at hq
    · cases hq
    · exact ⟨n, hn, by omega, hq⟩
  · cases hq

theorem Linking.within (hk : Linking tidy pos base (l + 1) h)
    (hvecs : ∀ p ∈ base.nodes, p ∈ base.vecs) (query : Vector) :
    Within (h.neighborsAt l) (h.navDist query) h.nodes.keys (Hop tidy pos base l) := by
  refine ⟨fun p hp q hq => ?_, fun p hp => ?_, fun p hp => hk.shape.mem hp.1⟩
  · obtain ⟨n, hn, -, hq⟩ := mem_neighborsAt hq
    obtain ⟨hok, hpos⟩ := hk.lists p n l hn
    refine ⟨hok.node q hq, fun ht => ⟨?_, (hok.tidy ht).reach q hq⟩⟩
    rintro rfl
    exact hpos ht (Nat.lt_succ_self l) hq
  · have hv : (h.vecs.lookup p).isSome := by
      rw [hk.shape.rest]
      exact lookup_isSome.mpr (hvecs p hp.1)
    obtain ⟨v, hv⟩ := Option.isSome_iff_exists.mp hv
    exact ⟨h.dist query v, by rw [navDist, hv]; rfl⟩

/-- What every history keeps, what it keeps without the reserved position, and what it keeps if
no position is inserted twice. -/
structure Graph (valid tidy : Prop) (h : HNSW D) : Prop where
  stored : ∀ p ∈ h.nodes, p ∈ h.vecs
  lists : ∀ p n l, h.nodes.lookup p = some n → h.ListOk tidy p l (n.neighbors l)
  entry : h.entrypoint = invalidPos ∨ h.entrypoint ∈ h.nodes
  rooted : valid → invalidPos ∉ h.nodes ∧ (h.entrypoint = invalidPos → ∀ p, h.live p = false)
  top : tidy → h.entrypoint ≠ invalidPos → ∃ n, h.nodes.lookup h.entrypoint = some n ∧
    n.deleted = false ∧ h.maxLayer = n.maxLevel

theorem ListOk.congr (hok : h.ListOk tidy p l ns) (hmax : h'.maxNeighbors = h.maxNeighbors)
    (hreach : ∀ l q, h.reaches l q → h'.reaches l q) : h'.ListOk tidy p l ns := by
  refine ⟨fun q hq => ?_, fun ht => ?_⟩
  · obtain ⟨n, hn⟩ := mem_nodes.mp (hok.node q hq)
    obtain ⟨n', hn', -⟩ := hreach 0 q ⟨n, hn, Nat.zero_le _⟩
    exact mem_nodes.mpr ⟨n', hn'⟩
  · have htidy := hok.tidy ht
    exact ⟨htidy.nodup, htidy.self, fun q hq => hreach l q (htidy.reach q hq), hmax ▸ htidy.length⟩

theorem Linking.graph {e : UInt32} {m : ℤ} (hk : Linking tidy pos base 0 h)
    (hvecs : ∀ p ∈ base.nodes, p ∈ base.vecs) (he : e = invalidPos ∨ e ∈ base.nodes)
    (hv : valid → invalidPos ∉ base.nodes ∧ e ≠ invalidPos)
    (ht : tidy → ∃ n, base.nodes.lookup e = some n ∧ n.deleted = false ∧ m = n.maxLevel) :
    Graph valid tidy { h with entrypoint := e, maxLayer := m } := by
  refine ⟨fun p hp => ?_, fun p n l hn => ?_, he.imp_right hk.shape.mem, fun hval => ?_,
    fun htid _ => ?_⟩
  · rw [hk.shape.rest]
    exact hvecs p (hk.shape.symm.mem hp)
  · refine (hk.lists p n l hn).1.congr ?_ fun l q hq => hk.shape.reaches hq
    rw [hk.shape.rest]
    rfl
  · exact ⟨fun hm => (hv hval).1 (hk.shape.symm.mem hm), fun heq => absurd heq (hv hval).2⟩
  · obtain ⟨n, hn, hlive, hm⟩ := ht htid
    obtain ⟨n', hn', hlevel, hdel⟩ := hk.shape.lookup hn
    exact ⟨n', hn', hdel.trans hlive, hlevel ▸ hm⟩

theorem foldl_higher (es : List ((_ : UInt32) × Node)) (best : UInt32 × ℤ) :
    (es.foldl higher best = best ∧ (best.2 < 0 → ∀ e ∈ es, e.2.deleted = true)) ∨
      ∃ e ∈ es, e.2.deleted = false ∧ es.foldl higher best = (e.1, (e.2.maxLevel : ℤ)) := by
  induction es generalizing best with
  | nil => simp
  | cons e es ih =>
    have hstep : higher best e = best ∧ (best.2 < 0 → e.2.deleted = true) ∨
        e.2.deleted = false ∧ higher best e = (e.1, (e.2.maxLevel : ℤ)) := by
      unfold higher
      split
      · simp_all
      · split
        · simp_all
        · exact .inl ⟨rfl, fun hneg => by omega⟩
    rw [foldl_cons]
    rcases ih (higher best e) with ⟨heq, hall⟩ | ⟨e', he', hlive, heq⟩
    · rw [heq]
      rcases hstep with ⟨hbest, hdel⟩ | ⟨hlive, hbest⟩
      · rw [hbest] at hall ⊢
        exact .inl ⟨rfl, fun hneg => forall_mem_cons.mpr ⟨hdel hneg, hall hneg⟩⟩
      · exact .inr ⟨e, mem_cons_self, hlive, hbest⟩
    · exact .inr ⟨e', mem_cons_of_mem _ he', hlive, heq⟩

theorem live_iff : h.live p = true ↔ ∃ n, h.nodes.lookup p = some n ∧ n.deleted = false := by
  unfold live
  cases h.nodes.lookup p <;> simp

theorem repairEntrypoint_spec (old : UInt32) :
    ∃ e m, h.repairEntrypoint old = { h with entrypoint := e, maxLayer := m } ∧
      ((∃ n, h.nodes.lookup e = some n ∧ n.deleted = false ∧ (e ≠ invalidPos → m = n.maxLevel)) ∨
        e = invalidPos ∧ ∀ p, h.live p = false) := by
  unfold repairEntrypoint
  dsimp only
  split
  · rename_i nb hfind
    obtain ⟨n, hn, hlive⟩ := live_iff.mp (find?_some hfind)
    exact ⟨nb, _, rfl, .inl ⟨n, hn, hlive, fun _ => by rw [hn]; rfl⟩⟩
  · refine ⟨_, _, rfl, ?_⟩
    rcases foldl_higher h.nodes.entries (invalidPos, -1) with ⟨heq, hall⟩ | ⟨e, he, hlive, heq⟩
    · refine .inr ⟨by rw [highest, heq], fun p => ?_⟩
      rw [← Bool.not_eq_true, live_iff]
      rintro ⟨n, hn, hlive⟩
      have := hall (by decide) ⟨p, n⟩ (mem_lookup_iff.mp hn)
      simp [hlive] at this
    · refine .inl ⟨e.2, ?_, hlive, fun hne => ?_⟩
      · rw [highest, heq]
        exact mem_lookup_iff.mpr he
      · rw [if_neg hne, highest, heq]

theorem Graph.delete (hg : Graph valid tidy h) (pos : UInt32) : Graph valid tidy (h.delete pos) := by
  unfold HNSW.delete
  split
  · exact hg
  rename_i node hnode
  split
  · exact hg
  suffices hgoal : ∀ base : HNSW D,
      { h with nodes := h.nodes.insert pos { node with deleted := true } } = base →
        Graph valid tidy (if pos = base.entrypoint then base.repairEntrypoint pos else base) from
    hgoal _ rfl
  intro base hbase
  have hself : base.nodes.lookup pos = some { node with deleted := true } := by
    rw [← hbase]
    exact AList.lookup_insert _
  have hother : ∀ p, p ≠ pos → base.nodes.lookup p = h.nodes.lookup p := fun p hp => by
    rw [← hbase]
    exact AList.lookup_insert_ne hp
  have hreach : ∀ l q, h.reaches l q → base.reaches l q := by
    rintro l q ⟨n, hn, hl⟩
    by_cases hq : q = pos
    · subst hq
      cases hnode.symm.trans hn
      exact ⟨_, hself, hl⟩
    · exact ⟨n, by rw [hother q hq, hn], hl⟩
  have hmem : ∀ p, p ∈ base.nodes → p ∈ h.nodes := fun p hp => by
    rw [← hbase] at hp
    rcases (AList.mem_insert _).mp hp with rfl | hp
    · exact mem_nodes.mpr ⟨node, hnode⟩
    · exact hp
  have hlive : ∀ p, h.live p = false → base.live p = false := fun p hp => by
    rw [← Bool.not_eq_true, live_iff] at hp ⊢
    rintro ⟨n, hn, hdel⟩
    by_cases hq : p = pos
    · subst hq
      cases hself.symm.trans hn
      cases hdel
    · exact hp ⟨n, by rw [← hother p hq, hn], hdel⟩
  have hentry : base.entrypoint = h.entrypoint := by rw [← hbase]
  -- all that is left is the entry point
  have hgraph : ∀ e (m : ℤ), (e = invalidPos ∨ e ∈ base.nodes) →
      (valid → invalidPos ∉ base.nodes → e = invalidPos → ∀ p, base.live p = false) →
      (tidy → e ≠ invalidPos → ∃ n, base.nodes.lookup e = some n ∧ n.deleted = false ∧
        m = n.maxLevel) → Graph valid tidy { base with entrypoint := e, maxLayer := m } := by
    intro e m he hv ht
    have hval : valid → invalidPos ∉ base.nodes := fun hval hm => (hg.rooted hval).1 (hmem _ hm)
    refine ⟨fun p hp => ?_, fun p n l hn => ?_, he, fun v => ⟨hval v, hv v (hval v)⟩, ht⟩
    · rw [← hbase]
      exact hg.stored p (hmem p hp)
    · have hlist : h.ListOk tidy p l (n.neighbors l) := by
        by_cases hp : p = pos
        · subst hp
          cases hself.symm.trans hn
          exact hg.lists p node l hnode
        · exact hg.lists p n l (by rw [← hother p hp]; exact hn)
      exact hlist.congr (by rw [← hbase]; rfl) hreach
  split
  · obtain ⟨e, m, heq, hcase⟩ := @repairEntrypoint_spec _ base pos
    rw [heq]
    rcases hcase with ⟨n, hn, hdel, hm⟩ | ⟨rfl, hnone⟩
    · have he := mem_nodes.mpr ⟨n, hn⟩
      exact hgraph e m (.inr he) (fun _ hnot heq => absurd (heq ▸ he) hnot)
        fun _ hne => ⟨n, hn, hdel, hm hne⟩
    · exact hgraph _ m (.inl rfl) (fun _ _ _ => hnone) fun _ hne => absurd rfl hne
  · rename_i hne
    have := hgraph h.entrypoint h.maxLayer ?_ ?_ ?_
    · rw [← hbase] at this ⊢
      exact this
    · exact hg.entry.imp_right fun hm => by rw [← hbase]; exact (AList.mem_insert _).mpr (.inr hm)
    · exact fun hv _ heq p => hlive p ((hg.rooted hv).2 heq p)
    · intro ht hinv
      rw [hother _ fun heq => hne (heq.symm.trans hentry.symm)]
      exact hg.top ht hinv

variable [LinearOrder D]

section Select

variable {cs : List (Candidate D)} {maxM : ℕ}

theorem choose_subperm {selected discarded : List UInt32} :
    ((h.choose maxM cs selected discarded).1 ++ (h.choose maxM cs selected discarded).2).Subperm
      (selected ++ discarded ++ cs.map (·.position)) ∧
    (h.choose maxM cs selected discarded).1.length ≤ max maxM selected.length := by
  induction cs generalizing selected discarded with
  | nil => simp [choose, List.Subperm.refl]
  | cons e es ih =>
    have hperm : (selected ++ [e.position] ++ discarded ++ es.map (·.position)).Perm
        (selected ++ discarded ++ (e :: es).map (·.position)) := by
      simpa using (perm_middle (a := e.position)).symm.append_left selected
    rw [choose]
    split
    · exact ⟨(sublist_append_left _ _).subperm, le_max_right _ _⟩
    · split
      · refine ⟨(@ih selected (discarded ++ [e.position])).1.trans ?_, ih.2⟩
        simp [List.Subperm.refl]
      · refine ⟨ih.1.trans hperm.subperm, ih.2.trans ?_⟩
        simp
        omega

theorem selectNeighbors_subperm : (h.selectNeighbors cs maxM).Subperm (cs.map (·.position)) ∧
      (h.selectNeighbors cs maxM).length ≤ maxM := by
  unfold selectNeighbors
  split
  · rename_i hle
    exact ⟨.refl _, by simpa using hle⟩
  · split
    · exact ⟨((take_sublist _ _).map _).subperm, by simp⟩
    · obtain ⟨hsub, hlen⟩ := @choose_subperm _ h _ cs maxM [] []
      refine ⟨.trans (List.Sublist.subperm ?_) hsub, ?_⟩
      · exact (take_sublist _ _).append_left _
      · simp at hlen ⊢
        omega

theorem nodup_of_subperm {a b : List UInt32} (hs : a.Subperm b) (hb : b.Nodup) : a.Nodup := by
  obtain ⟨l, hperm, hl⟩ := hs
  exact hperm.nodup_iff.mp (hb.sublist hl)

theorem linkBack_eq (dst src : UInt32) : h.linkBack src layer maxM dst = h ∨
    ∃ n ns, h.nodes.lookup dst = some n ∧ src ∉ n.neighbors layer ∧
      ns.Subperm (n.neighbors layer ++ [src]) ∧ ns.length ≤ maxM ∧
      h.linkBack src layer maxM dst = h.setNeighbors dst layer ns := by
  unfold linkBack
  split
  · exact .inl rfl
  · rename_i n hn
    split
    · exact .inl rfl
    · rename_i hsrc
      refine .inr ⟨n, _, hn, fun hmem => hsrc (.inr hmem), ?_, ?_, rfl⟩
      · split
        · refine selectNeighbors_subperm.1.trans ?_
          refine ((sortCandidates_perm.map _).trans ?_).subperm
          simp [Function.comp_def]
        · exact .refl _
      · split
        · exact selectNeighbors_subperm.2
        · omega

end Select

section Link

theorem Linking.linkBack (hk : Linking tidy pos base l h) (hp : Hop tidy pos base l p)
    (hpos : pos ∈ base.nodes) (hreach : base.reaches l pos) :
    Linking tidy pos base l (h.linkBack pos l (base.maxNeighbors l) p) := by
  rcases @linkBack_eq _ h l _ (base.maxNeighbors l) p pos with heq | ⟨n, ns, hn, hnew, hsub, hlen, heq⟩
  · rwa [heq]
  · rw [heq]
    obtain ⟨hok, -⟩ := hk.lists p n l hn
    have hmem : ∀ q ∈ ns, q ∈ n.neighbors l ∨ q = pos := fun q hq => by
      simpa using hsub.subset hq
    refine hk.setNeighbors ⟨fun q hq => ?_, fun ht => ⟨?_, fun hq => ?_, fun q hq => ?_, hlen⟩⟩
    · rcases hmem q hq with hq | rfl
      · exact hok.node q hq
      · exact hpos
    · refine nodup_of_subperm hsub (nodup_append.mpr ⟨(hok.tidy ht).nodup, by simp, ?_⟩)
      rintro a ha b hb rfl
      exact hnew (mem_singleton.mp hb ▸ ha)
    · rcases hmem p hq with hq | rfl
      · exact (hok.tidy ht).self hq
      · exact (hp.2 ht).1 rfl
    · rcases hmem q hq with hq | rfl
      · exact (hok.tidy ht).reach q hq
      · exact hreach

variable [Inhabited D]

theorem Linking.linkLayer (hk : Linking tidy pos base (l + 1) h)
    (hvecs : ∀ p ∈ base.nodes, p ∈ base.vecs) (hpos : pos ∈ base.nodes)
    (hreach : base.reaches l pos) (query : Vector) (hp : Hop tidy pos base l p) :
    ∃ s, linkLayer pos query (h, p) l = some s ∧ Linking tidy pos base l s.1 ∧
      Hop tidy pos base l s.2 := by
  obtain ⟨cs, hcs, -, hnodup, hfound, -⟩ := @searchFrom_spec _ _ _ (h.admissible none)
    h.efConstruction _ _ _ (hk.within hvecs query) _ p hp
  have hhop : ∀ c ∈ cs, Hop tidy pos base l c.position := fun c hc => (hfound c hc).2.1
  have hmax : h.maxNeighbors l = base.maxNeighbors l := by rw [hk.shape.rest]; rfl
  obtain ⟨hsub, hlen⟩ := @selectNeighbors_subperm _ h _ cs (base.maxNeighbors l)
  refine ⟨_, by simp [HNSW.linkLayer, searchLayer, hcs, hmax]; rfl, ?_, ?_⟩
  · generalize hns : h.selectNeighbors cs (base.maxNeighbors l) = ns at *
    have hmem : ∀ q ∈ ns, Hop tidy pos base l q := by
      intro q hq
      obtain ⟨c, hc, rfl⟩ := mem_map.mp (hsub.subset hq)
      exact hhop c hc
    have hk' : Linking tidy pos base l h :=
      ⟨hk.shape, fun p n l' hn => ⟨(hk.lists p n l' hn).1, fun ht hl =>
        (hk.lists p n l' hn).2 ht (by omega)⟩⟩
    have hstart : Linking tidy pos base l (h.setNeighbors pos l ns) :=
      hk'.setNeighbors ⟨fun q hq => (hmem q hq).1, fun ht => ⟨nodup_of_subperm hsub hnodup,
        fun hq => ((hmem pos hq).2 ht).1 rfl, fun q hq => ((hmem q hq).2 ht).2, hlen⟩⟩
    clear hsub hlen hns
    generalize h.setNeighbors pos l ns = g at hstart
    induction ns generalizing g with
    | nil => exact hstart
    | cons q ns ih =>
      rw [forall_mem_cons] at hmem
      exact ih hmem.2 _ (hstart.linkBack hmem.1 hpos hreach)
  · rcases cs with _ | ⟨c, cs⟩
    · exact hp
    · exact hhop c mem_cons_self

theorem foldlM_linkLayer {n : ℕ} {query : Vector} (hvecs : ∀ p ∈ base.nodes, p ∈ base.vecs)
    (hpos : pos ∈ base.nodes) (hreach : ∀ l < n, base.reaches l pos)
    (hk : Linking tidy pos base n h) (hp : Hop tidy pos base (n - 1) p) :
    ∃ s, (List.range n).reverse.foldlM (HNSW.linkLayer pos query) (h, p) = some s ∧
      Linking tidy pos base 0 s.1 := by
  induction n generalizing h p with
  | zero => exact ⟨(h, p), rfl, hk⟩
  | succ n ih =>
    obtain ⟨s, hs, hks, hps⟩ := hk.linkLayer hvecs hpos (hreach n (Nat.lt_succ_self n)) query hp
    obtain ⟨r, hr, hkr⟩ := ih (fun l hl => hreach l (by omega)) hks (hps.mono (by omega))
    refine ⟨r, ?_, hkr⟩
    rw [range_succ, reverse_append, reverse_singleton, singleton_append, foldlM_cons, hs]
    exact hr

end Link

theorem descend_spec {P : ℕ → UInt32 → Prop} {query : Vector} {lo t : ℕ}
    (hmono : ∀ l l' p, l' ≤ l → P l p → P l' p)
    (hw : ∀ l, Within (h.neighborsAt l) (h.navDist query) h.nodes.keys (P l))
    (hp : P h.maxLayer.toNat h.entrypoint) (ht : t ≤ lo) (htop : t ≤ h.maxLayer.toNat) :
    ∃ c, h.descend query lo = some c ∧ P t c.position := by
  have key : ∀ n T (cur : Candidate D), Placed (h.navDist query) (P T) cur → t ≤ T →
      n = 0 ∨ lo + n ≤ T + 1 → ∃ c, (List.range' lo n).reverse.foldlM (fun cur layer =>
        greedyDescend (h.neighborsAt layer) (h.navDist query) (h.nodes.keys.length + 1) cur) cur =
          some c ∧ P t c.position := by
    intro n
    induction n with
    | zero => exact fun T cur hc htT _ => ⟨cur, rfl, hmono T t _ htT hc.1⟩
    | succ n ih =>
      intro T cur hc htT hn
      obtain ⟨c, hdesc, hpc⟩ := greedyDescend_spec (hw (lo + n))
        ⟨hmono T _ _ (by omega) hc.1, hc.2⟩
      obtain ⟨r, hr, hpr⟩ := ih (lo + n) c hpc (by omega) (by omega)
      refine ⟨r, ?_, hpr⟩
      rw [range'_1_concat, reverse_append, reverse_singleton, singleton_append, foldlM_cons, hdesc]
      exact hr
  obtain ⟨d, hd⟩ := (hw _).dist _ hp
  obtain ⟨c, hc, hpc⟩ := key (h.maxLayer + 1 - lo).toNat _ ⟨h.entrypoint, d⟩ ⟨hp, hd⟩ htop (by omega)
  exact ⟨c, by rw [descend, hd]; exact hc, hpc⟩

variable [Inhabited D]

theorem Graph.insertLocked {v : Vector} (hg : Graph valid tidy h) (hv : valid → pos ≠ invalidPos)
    (ht : tidy → pos ∉ h.nodes) (level : ℕ) :
    ∃ h', (h.storeVector pos v).insertLocked pos level = some h' ∧ Graph valid tidy h' ∧
      h'.dim = h.dim ∧ ∀ p, p ∈ h'.nodes ↔ p = pos ∨ p ∈ h.nodes := by
  generalize hbase : { h.storeVector pos v with
    nodes := h.nodes.insert pos ⟨level, fun _ => [], false⟩ } = base
  have hmem : ∀ p, p ∈ base.nodes ↔ p = pos ∨ p ∈ h.nodes := fun p => by
    rw [← hbase]
    exact mem_insert _
  have hself : base.nodes.lookup pos = some ⟨level, fun _ => [], false⟩ := by
    rw [← hbase]
    exact lookup_insert _
  have hother : ∀ p, p ≠ pos → base.nodes.lookup p = h.nodes.lookup p := fun p hp => by
    rw [← hbase]
    exact lookup_insert_ne hp
  have hvecs : ∀ p ∈ base.nodes, p ∈ base.vecs := fun p hp => by
    rw [← hbase]
    exact (mem_insert _).mpr (((hmem p).mp hp).imp_right (hg.stored p))
  have hlink : ∀ l, Linking tidy pos base l base := by
    refine fun l => ⟨⟨rfl, fun _ => rfl⟩, fun p n l' hn => ?_⟩
    by_cases hp : p = pos
    · rw [hp, hself] at hn
      cases hn
      exact ⟨⟨by simp, fun _ => ⟨by simp, by simp, by simp, by simp⟩⟩, by simp⟩
    · rw [hother p hp] at hn
      have hok := hg.lists p n l' hn
      refine ⟨⟨fun q hq => (hmem q).mpr (.inr (hok.node q hq)), fun htid => ?_⟩,
        fun htid _ hq => ht htid (hok.node pos hq)⟩
      have hreach : ∀ q ∈ n.neighbors l', base.reaches l' q := fun q hq => by
        have hne : q ≠ pos := by
          rintro rfl
          exact ht htid (hok.node q hq)
        have := (hok.tidy htid).reach q hq
        rwa [reaches, hother q hne]
      refine ⟨(hok.tidy htid).nodup, (hok.tidy htid).self, hreach, ?_⟩
      rw [← hbase]
      exact (hok.tidy htid).length
  have hpos : pos ∈ base.nodes := (hmem pos).mpr (.inl rfl)
  have hvalid : valid → invalidPos ∉ base.nodes := fun hval hm =>
    ((hmem _).mp hm).elim (fun heq => hv hval heq.symm) (hg.rooted hval).1
  have hfirst : ∀ g, Linking tidy pos base 0 g →
      Graph valid tidy { g with entrypoint := pos, maxLayer := level } := fun g hk =>
    hk.graph hvecs (.inr hpos) (fun hval => ⟨hvalid hval, hv hval⟩) fun _ => ⟨_, hself, rfl, rfl⟩
  rw [HNSW.insertLocked, show (h.storeVector pos v).nodes = h.nodes from rfl, hbase]
  have hdim : base.dim = h.dim := by rw [← hbase]; rfl
  have hentry : base.entrypoint = h.entrypoint := by rw [← hbase]; rfl
  have hlayer : base.maxLayer = h.maxLayer := by rw [← hbase]; rfl
  by_cases hinv : base.entrypoint = invalidPos
  · exact ⟨_, if_pos hinv, hfirst base (hlink 0), hdim, hmem⟩
  · have hin : h.entrypoint ∈ h.nodes := hg.entry.resolve_left (hentry ▸ hinv)
    have htop : tidy → ∃ n, base.nodes.lookup base.entrypoint = some n ∧ n.deleted = false ∧
        base.maxLayer = n.maxLevel ∧ base.entrypoint ≠ pos := by
      intro htid
      have hne : h.entrypoint ≠ pos := fun heq => ht htid (heq ▸ hin)
      obtain ⟨n, hn, hlive, hm⟩ := hg.top htid (hentry ▸ hinv)
      exact ⟨n, by rw [hentry, hother _ hne, hn], hlive, hlayer.trans hm, hentry ▸ hne⟩
    have hbin : base.entrypoint ∈ base.nodes := (hmem _).mpr (.inr (hentry ▸ hin))
    have hhop : Hop tidy pos base base.maxLayer.toNat base.entrypoint := by
      refine ⟨hbin, fun htid => ?_⟩
      obtain ⟨n, hn, -, hm, hne⟩ := htop htid
      exact ⟨hne, n, hn, by omega⟩
    generalize hn : (min (level : ℤ) base.maxLayer + 1).toNat = n
    obtain ⟨cur, hcur, hpcur⟩ := @descend_spec _ base _ (Hop tidy pos base) (base.vec pos)
      (level + 1) (n - 1) (fun l l' p hl hp => hp.mono hl)
      (fun l => (hlink (l + 1)).within hvecs _) hhop (by omega) (by omega)
    obtain ⟨s, hs, hks⟩ := @foldlM_linkLayer _ _ _ _ _ _ _ _ _ (base.vec pos) hvecs hpos
      (fun l hl => ⟨_, hself, by simp only; omega⟩) (hlink n) hpcur
    have hrest := hks.shape.rest
    refine ⟨if s.1.maxLayer < level then { s.1 with maxLayer := level, entrypoint := pos } else s.1,
      by simp [hinv, hcur, -foldlM_reverse, hs], ?_, ?_, fun p => ?_⟩
    · split
      · exact hfirst s.1 hks
      · have hgraph : Graph valid tidy
            { s.1 with entrypoint := base.entrypoint, maxLayer := base.maxLayer } :=
          hks.graph hvecs (.inr hbin) (fun hval => ⟨hvalid hval, hinv⟩) fun htid => by
            obtain ⟨n, hn, hlive, hm, -⟩ := htop htid
            exact ⟨n, hn, hlive, hm⟩
        rw [hrest] at hgraph ⊢
        exact hgraph
    · have : s.1.dim = base.dim := by rw [hrest]
      split <;> exact this.trans hdim
    · have : p ∈ s.1.nodes ↔ p ∈ base.nodes := ⟨hks.shape.symm.mem, hks.shape.mem⟩
      split <;> exact this.trans (hmem p)

end VecDb.Index.HNSW

import VecDb.Storage.Compaction
import VecDb.Storage.WellFormed

/-! # What compaction writes

The live points are numbered from zero. Point number `j` goes to slot `j % capacity` of
new segment `j / capacity`, and that is where the id map finds it afterwards, as long
as the numbers fit in 32 bits.
-/

namespace VecDb.Storage

open List MetadataStore Function Nat Segment

theorem IdMap.applyRepoint_concat (m : IdMap) (rp : List Repoint) (r : Repoint)
    (locOf : UInt32 → IdLoc) (id : PointID) : (m.applyRepoint (rp ++ [r]) locOf).fwd id =
      if id = r.pointID then ((m.applyRepoint rp locOf).fwd id).map fun _ => locOf r.newPos
      else (m.applyRepoint rp locOf).fwd id := by
  simp only [applyRepoint, foldl_append, foldl_cons, foldl_nil]
  rw [repoint]
  rcases hr : (rp.foldl (IdMap.repoint locOf) m).fwd r.pointID with _ | loc <;> dsimp only
  · split
    · subst_vars
      rw [hr]
      rfl
    · rfl
  · rw [update_apply]
    split
    · subst_vars
      rw [hr]
      rfl
    · rfl

theorem IdMap.applyRepoint_dead (m : IdMap) (rp : List Repoint) (locOf : UInt32 → IdLoc) :
    (m.applyRepoint rp locOf).dead = m.dead := by
  induction rp generalizing m with
  | nil => rfl
  | cons r rp ih =>
    refine (ih (m.repoint locOf r)).trans ?_
    unfold IdMap.repoint
    split <;> rfl

theorem IdMap.applyRepoint_fwd {m : IdMap} {rp : List Repoint} {locOf : UInt32 → IdLoc}
    {id : PointID} {loc : IdLoc} (h : (m.applyRepoint rp locOf).fwd id = some loc) :
    (∃ loc₀, m.fwd id = some loc₀) ∧
      ((∃ r ∈ rp, r.pointID = id ∧ loc = locOf r.newPos) ∨ ∀ r ∈ rp, r.pointID ≠ id) := by
  induction rp using List.reverseRecOn generalizing loc with
  | nil => exact ⟨⟨loc, h⟩, .inr fun _ hr => nomatch hr⟩
  | append_singleton rp r ih =>
    rw [applyRepoint_concat] at h
    split at h
    · rename_i hid
      obtain ⟨loc', hl, rfl⟩ := Option.map_eq_some_iff.mp h
      exact ⟨(ih hl).1, .inl ⟨r, by simp, hid.symm, rfl⟩⟩
    · rename_i hid
      refine ⟨(ih h).1, (ih h).2.imp ?_ ?_⟩
      · exact fun ⟨r', hr', hr⟩ => ⟨r', mem_append_left _ hr', hr⟩
      · intro hrp r' hr'
        rcases mem_append.mp hr' with hr' | hr'
        · exact hrp r' hr'
        · rw [mem_singleton.mp hr']
          exact Ne.symm hid

theorem IdMap.applyRepoint_isSome (m : IdMap) (rp : List Repoint) (locOf : UInt32 → IdLoc)
    (id : PointID) : ((m.applyRepoint rp locOf).fwd id).isSome = (m.fwd id).isSome := by
  induction rp using List.reverseRecOn with
  | nil => rfl
  | append_singleton rp r ih =>
    rw [applyRepoint_concat, ← ih]
    split
    · rw [Option.isSome_map]
    · rfl

def LiveRef.loc (lr : LiveRef) : IdLoc := ⟨lr.segSeq, lr.slotPos⟩

namespace Collection

variable {c : Collection}

def vectorOf (c : Collection) (lr : LiveRef) : Vec :=
  match (c.seg ((c.dirOf lr.segSeq).getD 0)).fetchVector c.codec lr.slotPos with
  | .ok vec => vec
  | .error _ => []

/-- What is written after copying the first points. -/
structure Repacked (c : Collection) (done : List LiveRef) (p : Packed) : Prop where
  filled : done.length ≤ p.segs.length * c.capacity.toNat
  tight : p.segs.length * c.capacity.toNat ≤ done.length + c.capacity.toNat
  nextSeq : p.nextSeq = c.nextSeq + p.segs.length
  segs : ∀ (i : ℕ) (s : Segment), p.segs[i]? = some s → s.seqNum = c.nextSeq + i ∧
    s.capacity = c.capacity.toNat ∧ s.WF ∧
    s.nextPos = min c.capacity.toNat (done.length - i * c.capacity.toNat) ∧
    ∀ slot, s.tomb slot = false
  rows : ∀ (j : ℕ) (lr : LiveRef), done[j]? = some lr → ∃ s,
    p.segs[j / c.capacity.toNat]? = some s ∧ s.backward (j % c.capacity.toNat) = lr.id ∧
    s.version (j % c.capacity.toNat) = lr.version ∧
    s.data (j % c.capacity.toNat) = c.codec.encode (c.vectorOf lr)
  cells : ∀ (j : ℕ) (lr : LiveRef), done[j]? = some lr → ∀ col, c.metadata.has col = true →
    p.metadata.vals col (c.nextSeq + j / c.capacity.toNat) (j % c.capacity.toNat) =
      c.metadata.cell lr.segSeq lr.slotPos col
  repoint : p.repoint = done.zipIdx.map fun (lr, j) =>
    ⟨lr.oldPos, c.colPos (j / c.capacity.toNat) (j % c.capacity.toNat), lr.id⟩
  columns : p.metadata.columns = c.metadata.columns
  metadata : p.metadata.WF

theorem Repacked.start (c : Collection) :
    c.Repacked [] { metadata := newMetadataStore c.metadata.columns, nextSeq := c.nextSeq } where
  filled := by simp
  tight := by simp
  nextSeq := by simp
  segs _ _ h := nomatch h
  rows _ _ h := nomatch h
  cells _ _ h := nomatch h
  repoint := rfl
  columns := rfl
  metadata := wf_new _

variable {done : List LiveRef} {p : Packed} {m : MetadataStore} {lr : LiveRef}

section

variable (h : c.Repacked done p)
include h

theorem Repacked.sealSegment (k : ℕ) :
    c.Repacked done { p with segs := p.segs.modify k fun s => { s with sealed := true } } where
  filled := by simpa using h.filled
  tight := by simpa using h.tight
  nextSeq := by simpa using h.nextSeq
  segs i t ht := by
    obtain ⟨s, hs, rfl⟩ := getElem?_modify_cases ht
    obtain ⟨hseq, hcap, hwf, hnext, htomb⟩ := h.segs i s hs
    split
    · exact ⟨hseq, hcap, ⟨hwf.fits, hwf.clear, hwf.dead, hwf.total⟩, hnext, htomb⟩
    · exact ⟨hseq, hcap, hwf, hnext, htomb⟩
  rows j lr hj := by
    obtain ⟨s, hs, hback⟩ := h.rows j lr hj
    refine ⟨_, getElem?_modify_of hs, ?_⟩
    split <;> exact hback
  cells := h.cells
  repoint := h.repoint
  columns := h.columns
  metadata := h.metadata

theorem Repacked.grow (hfull : done.length = p.segs.length * c.capacity.toNat) :
    c.Repacked done { p with
      segs := p.segs ++ [newSegment p.nextSeq c.capacity.toNat]
      nextSeq := p.nextSeq + 1 } where
  filled := by
    rw [length_append, Nat.add_mul]
    exact h.filled.trans (le_add_right _ _)
  tight := by
    rw [length_append, Nat.add_mul, hfull, length_singleton, Nat.one_mul]
  nextSeq := by
    rw [length_append, length_singleton, h.nextSeq, add_assoc]
  segs i s hs := by
    rcases getElem?_concat_cases hs with hs | ⟨rfl, rfl⟩
    · exact h.segs i s hs
    · refine ⟨h.nextSeq, rfl, wf_newSegment _ _, ?_, fun _ => rfl⟩
      rw [hfull, Nat.sub_self, Nat.min_zero]
      rfl
  rows j lr hj := by
    obtain ⟨s, hs, hback⟩ := h.rows j lr hj
    exact ⟨s, getElem?_concat_of hs, hback⟩
  cells := h.cells
  repoint := h.repoint
  columns := h.columns
  metadata := h.metadata

theorem Repacked.last (hroom : done.length < p.segs.length * c.capacity.toNat) :
    p.segs.length - 1 = done.length / c.capacity.toNat := by
  have htight := h.tight
  obtain ⟨l, hl⟩ : ∃ l, p.segs.length = l + 1 := by
    refine Nat.exists_eq_succ_of_ne_zero fun h0 => ?_
    rw [h0, Nat.zero_mul] at hroom
    omega
  rw [hl, Nat.add_mul, Nat.one_mul] at hroom htight
  rw [hl, Nat.add_sub_cancel]
  refine (Nat.div_eq_of_lt_le ?_ ?_).symm
  · omega
  · rw [Nat.add_mul, Nat.one_mul]
    exact hroom

theorem Repacked.ensureOpen : c.Repacked done (p.ensureOpen c.capacity.toNat) ∧
      done.length < (p.ensureOpen c.capacity.toNat).segs.length * c.capacity.toNat := by
  have hpos := c.capacity_toNat_pos
  have hfilled := h.filled
  unfold Packed.ensureOpen
  split
  · rename_i hnone
    have hnil := getLast?_eq_none_iff.mp hnone
    rw [hnil, length_nil, Nat.zero_mul] at hfilled
    have hgrow := h.grow (by rw [hnil, length_nil, Nat.zero_mul]; omega)
    rw [hnil, nil_append] at hgrow
    refine ⟨hgrow, ?_⟩
    rw [length_singleton]
    omega
  · rename_i cur hcur
    rw [List.getLast?_eq_getElem?] at hcur
    obtain ⟨l, hl⟩ : ∃ l, p.segs.length = l + 1 := by
      have := (List.getElem?_eq_some_iff.mp hcur).1
      exact Nat.exists_eq_succ_of_ne_zero (by omega)
    obtain ⟨-, hcap, -, hnext, -⟩ := h.segs _ _ hcur
    rw [hl, Nat.add_sub_cancel] at hnext
    rw [hl, Nat.add_mul, Nat.one_mul] at hfilled
    split
    · rename_i hfull
      have hle : cur.capacity ≤ cur.nextPos := by simpa [full] using hfull
      have hlen : done.length = p.segs.length * c.capacity.toNat := by
        rw [hl, Nat.add_mul, Nat.one_mul]
        omega
      refine ⟨(h.sealSegment _).grow (by simpa using hlen), ?_⟩
      simp only [length_append, length_modify, length_singleton, hl, hlen, Nat.add_mul, Nat.one_mul]
      omega
    · rename_i hfull
      have hlt : cur.nextPos < cur.capacity := by simpa [full] using hfull
      refine ⟨h, ?_⟩
      rw [hl, Nat.add_mul, Nat.one_mul]
      omega

theorem Repacked.slot (hroom : done.length < p.segs.length * c.capacity.toNat) :
    ∃ s, p.segs[done.length / c.capacity.toNat]? = some s ∧
      s.nextPos = done.length % c.capacity.toNat ∧ s.full = false := by
  have hlt : done.length / c.capacity.toNat < p.segs.length :=
    Nat.div_lt_of_lt_mul (by rwa [mul_comm])
  have hs := getElem?_eq_getElem hlt
  obtain ⟨-, hcap, -, hnext, -⟩ := h.segs _ _ hs
  have hmod := mod_lt done.length c.capacity_toNat_pos
  have hdiv := div_add_mod' done.length c.capacity.toNat
  have hnext' : p.segs[done.length / c.capacity.toNat].nextPos =
      done.length % c.capacity.toNat := by omega
  refine ⟨_, hs, hnext', ?_⟩
  rw [full, hnext', hcap]
  simpa using hmod

end

/-- One store is another one with a row copied to a slot. -/
structure Copies (c : Collection) (lr : LiveRef) (seq slot : ℕ) (m m' : MetadataStore) : Prop
    extends Writes seq slot m m' where
  cells : ∀ col, c.metadata.has col = true →
    m'.vals col seq slot = c.metadata.cell lr.segSeq lr.slotPos col

theorem Repacked.push (h : c.Repacked done p)
    (hroom : done.length < p.segs.length * c.capacity.toNat) (lr : LiveRef)
    (hm : c.Copies lr (c.nextSeq + done.length / c.capacity.toNat)
      (done.length % c.capacity.toNat) p.metadata m) : c.Repacked (done ++ [lr]) { p with
      segs := p.segs.modify (done.length / c.capacity.toNat) fun s =>
        s.append c.codec lr.id (c.vectorOf lr) lr.version
      metadata := m
      repoint := p.repoint ++ [⟨lr.oldPos, c.colPos (done.length / c.capacity.toNat)
        (done.length % c.capacity.toNat), lr.id⟩] } := by
  obtain ⟨last, hlast, hnext, hfull⟩ := h.slot hroom
  have hdiv := div_add_mod' done.length c.capacity.toNat
  have hmod := mod_lt done.length c.capacity_toNat_pos
  -- no earlier point has the slot of this one
  have hslot : ∀ j (lr' : LiveRef), done[j]? = some lr' →
      j / c.capacity.toNat = done.length / c.capacity.toNat →
      j % c.capacity.toNat ≠ done.length % c.capacity.toNat := by
    intro j lr' hj heq hne
    have hlt := (List.getElem?_eq_some_iff.mp hj).1
    have hj' := div_add_mod' j c.capacity.toNat
    rw [heq, hne] at hj'
    omega
  constructor
  · rw [length_append, length_modify]
    exact hroom
  · rw [length_append, length_modify]
    have := h.tight
    omega
  · rw [length_modify]
    exact h.nextSeq
  · intro i t ht
    obtain ⟨s, hs, rfl⟩ := getElem?_modify_cases ht
    obtain ⟨hseq, hcap, hwf, hnext', htomb⟩ := h.segs i s hs
    rw [length_append, length_singleton]
    split
    · subst_vars
      cases hlast.symm.trans hs
      refine ⟨hseq, hcap, hwf.append hfull _ _ _ _, ?_, htomb⟩
      dsimp only [append]
      omega
    · -- the segments before the last one are full
      refine ⟨hseq, hcap, hwf, ?_, htomb⟩
      have hlt := (List.getElem?_eq_some_iff.mp hs).1
      have hle : i + 1 ≤ done.length / c.capacity.toNat := by
        have := h.last hroom
        omega
      have hmul := mul_le_mul_right c.capacity.toNat hle
      rw [Nat.add_mul, Nat.one_mul] at hmul
      omega
  · intro j lr' hj
    rcases getElem?_concat_cases hj with hj | ⟨rfl, rfl⟩
    · obtain ⟨s, hs, hrow⟩ := h.rows j lr' hj
      refine ⟨_, getElem?_modify_of hs, ?_⟩
      split
      · rename_i heq
        have hne := hslot j lr' hj heq
        rw [heq] at hs
        cases hlast.symm.trans hs
        rw [← hnext] at hne
        simpa only [append, update_of_ne hne] using hrow
      · exact hrow
    · refine ⟨_, getElem?_modify_of hlast, ?_⟩
      rw [if_pos rfl, ← hnext]
      simp only [append, update_self, true_and]
  · intro j lr' hj col hcol
    rcases getElem?_concat_cases hj with hj | ⟨rfl, rfl⟩
    · rw [hm.vals, h.cells j lr' hj col hcol]
      rintro ⟨hseq, heq⟩
      exact hslot j lr' hj (by omega) heq
    · exact hm.cells col hcol
  · rw [h.repoint, zipIdx_append, map_append]
    simp
  · exact hm.columns.trans h.columns
  · exact hm.wf h.metadata

section

variable (hw : c.WF)
include hw

theorem copies_foldl (lr : LiveRef) (seq slot : ℕ) (cols : List ColumnDef)
    (hcols : m.columns = c.metadata.columns) (hhas : ∀ cd ∈ cols, c.metadata.has cd.id = true) :
    let m' := cols.foldl (fun m cd =>
      match m.writeAt cd.id seq slot (c.metadata.cell lr.segSeq lr.slotPos cd.id) with
      | .ok m => m
      | .error _ => m) m
    Writes seq slot m m' ∧ ∀ col,
      col ∈ cols.map ColumnDef.id ∨ m.vals col seq slot = c.metadata.cell lr.segSeq lr.slotPos col →
      m'.vals col seq slot = c.metadata.cell lr.segSeq lr.slotPos col := by
  induction cols generalizing m with
  | nil => exact ⟨.refl _, fun col hcol => by simpa using hcol⟩
  | cons cd cols ih =>
    rw [forall_mem_cons] at hhas
    have hfits : m.Fits cd.id (c.metadata.cell lr.segSeq lr.slotPos cd.id) := by
      obtain ⟨t, ht⟩ := Option.isSome_iff_exists.mp hhas.1
      refine ⟨t, ?_, ?_⟩
      · rwa [colType, hcols]
      · rw [cell, readAt, if_pos hhas.1]
        exact hw.metadata.typed _ _ _ _ ht
    rw [foldl_cons, writeAt_fits hfits]
    obtain ⟨hwrites, hvals⟩ := @ih (m.put cd.id seq slot _) hcols hhas.2
    refine ⟨(writes_put hfits).trans hwrites, fun col hcol => hvals col ?_⟩
    by_cases heq : col = cd.id
    · exact .inr (by simp [put, heq])
    · refine hcol.imp (fun hmem => ?_) fun hval => ?_
      · simpa [heq] using hmem
      · simpa [put, heq] using hval

theorem copies_copyCells (lr : LiveRef) (seq slot : ℕ) (hcols : m.columns = c.metadata.columns) :
    c.Copies lr seq slot m (c.copyCells lr seq slot m) := by
  have hhas : ∀ cd ∈ c.metadata.columns, c.metadata.has cd.id = true := fun cd hcd =>
    mem_colIDs.mp (mem_dedup.mpr (mem_map_of_mem hcd))
  obtain ⟨hwrites, hvals⟩ := copies_foldl hw lr seq slot c.metadata.columns hcols hhas
  refine ⟨hwrites, fun col hcol => hvals col (.inl ?_)⟩
  exact mem_dedup.mp (mem_colIDs.mpr hcol)

theorem Repacked.copyPoint (h : c.Repacked done p) (lr : LiveRef) :
    c.Repacked (done ++ [lr]) (c.copyPoint p lr) := by
  obtain ⟨hopen, hroom⟩ := h.ensureOpen
  obtain ⟨s, hs, hnext, -⟩ := hopen.slot hroom
  unfold Collection.copyPoint
  dsimp only
  rw [hopen.last hroom, show (p.ensureOpen c.capacity.toNat).segs.getD
    (done.length / c.capacity.toNat) (newSegment 0 0) = s by simp [hs], hnext,
    (hopen.segs _ s hs).1]
  exact hopen.push hroom lr (copies_copyCells hw lr _ _ hopen.columns)

theorem repacked_packed : c.Repacked c.liveRefs c.packed := by
  have hrun : ∀ (refs done : List LiveRef) (p : Packed), c.Repacked done p →
      c.Repacked (done ++ refs) (refs.foldl c.copyPoint p) := by
    intro refs
    induction refs with
    | nil =>
      intro done p h
      rwa [append_nil]
    | cons lr refs ih =>
      intro done p h
      simpa using ih _ _ (h.copyPoint hw lr)
  exact hrun c.liveRefs [] _ (Repacked.start c)

end

theorem foldl_enlist (c : Collection) {base : ℕ} (l : List Segment)
    (hseq : ∀ (i : ℕ) (s : Segment), l[i]? = some s → s.seqNum = base + i) :
    ∃ dirOf openIdx, l.zipIdx.foldl enlist { c with dirOf := fun _ => none, openIdx := none } =
        { c with dirOf, openIdx } ∧
      (∀ seq di, dirOf seq = some di ↔ di < l.length ∧ seq = base + di) ∧
      ∀ di, openIdx = some di → di < l.length := by
  induction l using List.reverseRecOn with
  | nil => exact ⟨_, _, rfl, by simp, by simp⟩
  | append_singleton l s ih =>
    obtain ⟨dirOf, openIdx, heq, hdir, hopen⟩ := ih fun i t ht => hseq i t (getElem?_concat_of ht)
    have hs : s.seqNum = base + l.length := hseq l.length s (by simp)
    rw [zipIdx_append, foldl_append, heq, length_append, length_singleton, zero_add]
    refine ⟨_, _, rfl, fun seq di => ?_, fun di hdi => ?_⟩
    · dsimp only
      rw [update_apply, hs]
      split
      · simp only [Option.some.injEq]
        omega
      · rw [hdir]
        omega
    · dsimp only at hdi
      split at hdi
      · exact lt_succ_of_lt (hopen di hdi)
      · have := Option.some.inj hdi
        omega

theorem mem_liveRefs : lr ∈ c.liveRefs ↔ ∃ (di : ℕ) (s : Segment) (slot : ℕ),
    c.segs[di]? = some s ∧ slot < s.nextPos ∧ s.isTombstoned slot = false ∧
    lr = ⟨c.colPos di slot, s.seqNum, slot, s.backward slot, s.version slot⟩ := by
  simp only [liveRefs, mem_flatMap, Prod.exists, mem_zipIdx_iff_getElem?,
    mem_filterMap, mem_range, Option.ite_none_left_eq_some, Bool.not_eq_true,
    Option.some.injEq]
  constructor
  · rintro ⟨s, di, hs, slot, hslot, hlive, rfl⟩
    exact ⟨di, s, slot, hs, hslot, hlive, rfl⟩
  · rintro ⟨di, s, slot, hs, hslot, hlive, rfl⟩
    exact ⟨s, di, hs, slot, hslot, hlive, rfl⟩

/-- The number of a slot, which a position has to represent in 32 bits. -/
def slotNumber (c : Collection) (loc : IdLoc) : ℕ :=
  (c.dirOf loc.segSeq).getD 0 * c.capacity.toNat + loc.slotPos

theorem Framed.slotNumber (h : c.Framed) {di : ℕ} {s : Segment} (hs : c.segs[di]? = some s)
    (slot : ℕ) : c.slotNumber ⟨s.seqNum, slot⟩ = di * c.capacity.toNat + slot := by
  rw [Collection.slotNumber, h.seqs di s hs, Option.getD_some]

theorem WF.liveRefs_pairwise (h : c.WF) :
    c.liveRefs.Pairwise fun a b => c.slotNumber a.loc < c.slotNumber b.loc := by
  refine h.pairwise_slots (fun _ _ => rfl) fun hs _ hs' _ hlt hlr hlr' => ?_
  simp only [Option.ite_none_left_eq_some, Option.some.injEq] at hlr hlr'
  rw [← hlr.2, ← hlr'.2, LiveRef.loc, LiveRef.loc, h.slotNumber hs, h.slotNumber hs']
  exact hlt

/-- The slot that compaction moves a position to. -/
def packedLoc (c : Collection) (newPos : UInt32) : IdLoc :=
  ⟨(c.packed.segs.getD (newPos.toNat / c.capacity.toNat) (newSegment 0 0)).seqNum,
    newPos.toNat % c.capacity.toNat⟩

section

variable (hw : c.WF)
include hw

theorem compact_eq : ∃ dirOf openIdx, c.compact = { c with
      idmap := c.idmap.applyRepoint c.packed.repoint c.packedLoc
      segs := c.packed.segs
      metadata := c.packed.metadata
      nextSeq := c.packed.nextSeq
      dirOf := dirOf
      openIdx := openIdx } ∧
    (∀ seq di, dirOf seq = some di ↔ di < c.packed.segs.length ∧ seq = c.nextSeq + di) ∧
    ∀ di, openIdx = some di → di < c.packed.segs.length :=
  foldl_enlist
    { c with
      idmap := c.idmap.applyRepoint c.packed.repoint c.packedLoc
      segs := c.packed.segs
      metadata := c.packed.metadata
      nextSeq := c.packed.nextSeq } c.packed.segs
    fun i s hs => ((repacked_packed hw).segs i s hs).1

theorem packedLoc_eq (hlen : c.liveRefs.length ≤ 2 ^ 32) {j : ℕ} (hj : j < c.liveRefs.length) :
    c.packedLoc (c.colPos (j / c.capacity.toNat) (j % c.capacity.toNat)) =
      ⟨c.nextSeq + j / c.capacity.toNat, j % c.capacity.toNat⟩ := by
  have hp := repacked_packed hw
  obtain ⟨s, hs, -⟩ := hp.rows j _ (getElem?_eq_getElem hj)
  have hdiv := div_add_mod' j c.capacity.toNat
  rw [packedLoc, c.colPos_toNat (by omega), hdiv, show c.packed.segs.getD (j / c.capacity.toNat)
    (newSegment 0 0) = s by simp [hs], (hp.segs _ s hs).1]

theorem mem_repoint {r : Repoint} : r ∈ c.packed.repoint ↔ ∃ j lr, c.liveRefs[j]? = some lr ∧
      r = ⟨lr.oldPos, c.colPos (j / c.capacity.toNat) (j % c.capacity.toNat), lr.id⟩ := by
  rw [(repacked_packed hw).repoint, mem_map]
  constructor
  · rintro ⟨⟨lr, j⟩, hj, rfl⟩
    exact ⟨j, lr, mem_zipIdx_iff_getElem?.mp hj, rfl⟩
  · rintro ⟨j, lr, hj, rfl⟩
    exact ⟨(lr, j), mem_zipIdx_iff_getElem?.mpr hj, rfl⟩

theorem compact_slot {j : ℕ} (hj : c.liveRefs[j]? = some lr) :
    ∃ s, c.packed.segs[j / c.capacity.toNat]? = some s ∧ j % c.capacity.toNat < s.nextPos ∧
      s.seqNum = c.nextSeq + j / c.capacity.toNat ∧ (∀ slot, s.tomb slot = false) ∧
      s.backward (j % c.capacity.toNat) = lr.id := by
  have hp := repacked_packed hw
  obtain ⟨s, hs, hback, -⟩ := hp.rows j lr hj
  obtain ⟨hseq, -, -, hnext, htomb⟩ := hp.segs _ s hs
  refine ⟨s, hs, ?_, hseq, htomb, hback⟩
  have hlt := (List.getElem?_eq_some_iff.mp hj).1
  have hmod := mod_lt j c.capacity_toNat_pos
  have hdiv := div_add_mod' j c.capacity.toNat
  omega

end

theorem WF.compact (h : c.WF) (hlen : c.liveRefs.length ≤ 2 ^ 32) : c.compact.WF := by
  have hp := repacked_packed h
  obtain ⟨dirOf, openIdx, heq, hdir, hopen⟩ := compact_eq h
  rw [heq]
  refine ⟨⟨?_, ?_, hopen, ?_, hp.metadata⟩, ?_, ?_, ?_⟩
  · intro di s hs
    exact (hdir _ _).mpr ⟨(List.getElem?_eq_some_iff.mp hs).1, (hp.segs di s hs).1⟩
  · intro seq di hd
    obtain ⟨hlt, rfl⟩ := (hdir seq di).mp hd
    have hs := getElem?_eq_getElem hlt
    refine ⟨?_, _, hs, (hp.segs di _ hs).1⟩
    dsimp only
    rw [hp.nextSeq]
    omega
  · intro s hs
    obtain ⟨i, hi⟩ := mem_iff_getElem?.mp hs
    exact (hp.segs i s hi).2.1
  · intro s hs
    obtain ⟨i, hi⟩ := mem_iff_getElem?.mp hs
    exact (hp.segs i s hi).2.2.1
  · intro id loc hl
    obtain ⟨⟨loc₀, hl₀⟩, hrp⟩ := IdMap.applyRepoint_fwd hl
    rcases hrp with ⟨r, hr, hrid, rfl⟩ | hnone
    · obtain ⟨j, lr, hj, rfl⟩ := (mem_repoint h).mp hr
      have hlt := (List.getElem?_eq_some_iff.mp hj).1
      obtain ⟨s, hs, hslot, hseq, htomb, hback⟩ := compact_slot h hj
      rw [packedLoc_eq h hlen hlt]
      exact ⟨_, s, (hdir _ _).mpr ⟨(List.getElem?_eq_some_iff.mp hs).1, rfl⟩, hs, hslot, htomb _,
        hback.trans hrid⟩
    · obtain ⟨di₀, s₀, -, hs₀, hslot₀, htomb₀, hback₀⟩ := h.located id loc₀ hl₀
      have hlive : s₀.isTombstoned loc₀.slotPos = false := by
        rw [isTombstoned_eq (h.segs s₀ (mem_of_getElem? hs₀)) hslot₀, htomb₀]
      obtain ⟨j, hj⟩ := mem_iff_getElem?.mp
        (mem_liveRefs.mpr ⟨di₀, s₀, _, hs₀, hslot₀, hlive, rfl⟩)
      exact absurd hback₀ (hnone _ ((mem_repoint h).mpr ⟨j, _, hj, rfl⟩))
  · intro id loc hl
    obtain ⟨⟨loc₀, hl₀⟩, -⟩ := IdMap.applyRepoint_fwd hl
    rw [IdMap.applyRepoint_dead]
    exact h.alive id loc₀ hl₀

end Collection

end VecDb.Storage

import VecDb.Storage.Near

/-! # What each write does

Every call keeps the collection well formed, and what it registers undoes it up to
leftovers, whether it fails or not. A call that fails before it has changed a row
leaves nothing but leftovers.
-/

namespace VecDb.Storage

open List Function MetadataStore Collection Draft Segment

namespace Collection

variable {c : Collection} {di : ℕ} {s : Segment} {f g : Segment → Segment} {id id' : PointID}
  {loc loc' : IdLoc} {m : MetadataStore} {a b : Collection}

theorem ensureOpen_keeps (c : Collection) : c.ensureOpen.metadata = c.metadata ∧
    c.ensureOpen.idmap = c.idmap ∧ c.ensureOpen.codec = c.codec := by
  unfold ensureOpen
  split
  · split <;> exact ⟨rfl, rfl, rfl⟩
  · exact ⟨rfl, rfl, rfl⟩

theorem Framed.near_openSegment (h : c.Framed) : c.openSegment.Near c where
  dims := rfl
  capacity := rfl
  codec := rfl
  columns := rfl
  segs := (Grown.refl .refl _).append_extra ⟨rfl, rfl, rfl, fun _ => rfl⟩
  dirOf _ _ hd := h.dirOf_openSegment hd
  vals _ _ _ _ _ _ := rfl
  zone _ _ _ := .refl _

theorem Framed.near_touch (h : c.Framed) (hs : c.segs[di]? = some s) (hf : (f s).Near s)
    (hw : Writes s.seqNum s.nextPos c.metadata m) (i : IdMap) :
    ({ c with segs := c.segs.modify di f, metadata := m, idmap := i } : Collection).Near c where
  dims := rfl
  capacity := rfl
  codec := rfl
  columns := hw.columns
  segs := by
    refine (Grown.refl .refl c.segs).modify_left ?_ ?_
    · intro x y hx hxy
      cases hs.symm.trans hx
      exact hf.trans hxy
    · intro x hx hblank
      cases hs.symm.trans hx
      exact hblank.near hf
  dirOf _ _ hd := hd
  vals i t ht col slot hslot := by
    apply hw.vals
    rintro ⟨hseq, rfl⟩
    have hi := h.seqs i t ht
    rw [hseq, h.seqs di s hs] at hi
    cases hi
    cases hs.symm.trans ht
    exact lt_irrefl _ hslot
  zone := hw.zone

theorem Framed.near_modifySeg (h : c.Framed) (hf : ∀ s, (f s).Near s) :
    (c.modifySeg di f).Near c := by
  rcases hs : c.segs[di]? with _ | s
  · rw [Collection.modifySeg, modify_eq_self (List.getElem?_eq_none_iff.mp hs)]
    exact .refl c
  · exact h.near_touch hs (hf s) (.refl _) c.idmap

theorem Framed.near_ensureOpen (h : c.Framed) : c.ensureOpen.Near c := by
  have hseal : ∀ s : Segment, ({ s with sealed := true } : Segment).Near s := fun s =>
    ⟨rfl, rfl, rfl, rfl, rfl, rfl, fun _ _ => ⟨rfl, rfl, rfl⟩⟩
  unfold Collection.ensureOpen
  split
  · rename_i di _
    split
    · refine Near.trans (Framed.near_openSegment ?_) (h.near_modifySeg hseal)
      exact h.modifySeg fun _ _ => ⟨rfl, rfl⟩
    · exact .refl c
  · exact h.near_openSegment

theorem WF.ensureOpen (h : c.WF) : c.ensureOpen.WF := by
  refine h.near_ensureOpen.wf h h.toFramed.ensureOpen ?_ ?_ <;> rw [(ensureOpen_keeps c).2.1]
  · exact fun _ _ hl => hl
  · exact h.alive

theorem Lives.modify (h : c.Lives id loc) (i : IdMap)
    (hf : ∀ s, c.segs[di]? = some s → ∀ slot < s.nextPos, s.tomb slot = false →
      c.dirOf loc.segSeq = some di → slot = loc.slotPos →
      slot < (f s).nextPos ∧ (f s).tomb slot = false ∧ (f s).backward slot = s.backward slot) :
    ({ c with segs := c.segs.modify di f, metadata := m, idmap := i } : Collection).Lives
      id loc := by
  obtain ⟨k, s, hd, hs, hslot, htomb, hback⟩ := h
  refine ⟨k, _, hd, getElem?_modify_of hs, ?_⟩
  by_cases hk : k = di
  · subst hk
    rw [if_pos rfl]
    obtain ⟨h1, h2, h3⟩ := hf s hs _ hslot htomb hd rfl
    exact ⟨h1, h2, h3.trans hback⟩
  · rw [if_neg hk]
    exact ⟨hslot, htomb, hback⟩

theorem WF.segs_modify (h : c.WF) (hf : ∀ s, c.segs[di]? = some s → (f s).WF) :
    ∀ s ∈ c.segs.modify di f, s.WF := by
  intro t ht
  obtain ⟨i, hi⟩ := mem_iff_getElem?.mp ht
  obtain ⟨s, hs, rfl⟩ := getElem?_modify_cases hi
  split
  · subst_vars
    exact hf s hs
  · exact h.segs s (mem_of_getElem? hs)

def dropAt (c : Collection) (di : ℕ) (id : PointID) (slotPos : ℕ) : Collection :=
  { c.modifySeg di fun s => s.tombstone slotPos with
    idmap := ⟨update c.idmap.fwd id none, update c.idmap.dead id true⟩ }

theorem WF.dropAt (h : c.WF) {loc : IdLoc} (hl : c.idmap.fwd id = some loc)
    (hd : c.dirOf loc.segSeq = some di) : (c.dropAt di id loc.slotPos).WF := by
  obtain ⟨k, s, hk, hs, hslot, htomb, hback⟩ := h.located id loc hl
  cases hd.symm.trans hk
  refine ⟨Framed.withIdmap (h.modifySeg ?_) _, ?_, ?_, ?_⟩
  · exact fun s _ => ⟨(s.tombstone_keeps _).1, (s.tombstone_keeps _).2.1⟩
  · refine h.segs_modify fun t ht => ?_
    cases hs.symm.trans ht
    exact (h.segs s (mem_of_getElem? hs)).tombstone hslot htomb
  · intro id' loc' hl'
    dsimp only [Collection.dropAt] at hl'
    by_cases hid : id' = id
    · subst hid
      rw [update_self] at hl'
      cases hl'
    · rw [update_of_ne hid] at hl'
      have hlives := h.located id' loc' hl'
      refine hlives.modify _ fun t ht slot hslot' htomb' hd' hslot_eq => ?_
      cases hs.symm.trans ht
      subst hslot_eq
      -- the slots differ, since each points back to its own point
      have hne : loc'.slotPos ≠ loc.slotPos := by
        intro heq
        obtain ⟨k', s', hk', hs', -, -, hback'⟩ := hlives
        cases hd'.symm.trans hk'
        cases hs.symm.trans hs'
        rw [heq, hback] at hback'
        exact hid hback'.symm
      rw [tombstone_eq (h.segs s (mem_of_getElem? hs)) hslot htomb]
      exact ⟨hslot', (update_of_ne hne _ _).trans htomb', rfl⟩
  · intro id' loc' hl'
    dsimp only [Collection.dropAt] at hl' ⊢
    have hid : id' ≠ id := by
      rintro rfl
      simp at hl'
    rw [update_of_ne hid] at hl' ⊢
    exact h.alive id' loc' hl'

/-- A slot that is free, or in a segment that is not there. -/
def Fresh (c : Collection) (loc : IdLoc) : Prop :=
  ∀ di s, c.dirOf loc.segSeq = some di → c.segs[di]? = some s → s.nextPos ≤ loc.slotPos

/-- The segments stay where they are, and their filled slots stay filled. -/
def Extends (c c' : Collection) : Prop :=
  ∀ seq di s, c.dirOf seq = some di → c.segs[di]? = some s →
    c'.dirOf seq = some di ∧ ∃ s', c'.segs[di]? = some s' ∧ s.nextPos ≤ s'.nextPos

theorem Extends.trans {a b c : Collection} (h : a.Extends b) (h' : b.Extends c) : a.Extends c := by
  intro seq di s hd hs
  obtain ⟨hd', s', hs', hle⟩ := h seq di s hd hs
  obtain ⟨hd'', s'', hs'', hle'⟩ := h' seq di s' hd' hs'
  exact ⟨hd'', s'', hs'', hle.trans hle'⟩

theorem Near.extends (h : a.Near b) : b.Extends a := by
  intro seq di t hd ht
  obtain ⟨s, hs, hn⟩ := h.segs.get ht
  exact ⟨h.dirOf seq di hd, s, hs, hn.nextPos.ge⟩

theorem Fresh.mono (h : a.Extends b) (hf : b.Fresh loc) : a.Fresh loc := by
  intro di s hd hs
  obtain ⟨hd', s', hs', hle⟩ := h loc.segSeq di s hd hs
  exact hle.trans (hf di s' hd' hs')

theorem Fresh.not_lives (hf : c.Fresh loc) : ¬ c.Lives id loc := by
  rintro ⟨di, s, hd, hs, hslot, -⟩
  exact absurd (hf di s hd hs) (Nat.not_le.mpr hslot)

theorem Near.reverts (h : a.Near b) : b.Reverts a [] :=
  ⟨h, fun _ hu => (nomatch hu), fun _ hu => hu.mono h.columns h.segs.length_le h.zone⟩

theorem Framed.reverts_touch (h : c.Framed) (hs : c.segs[di]? = some s) (hf : (g (f s)).Near s)
    (hw : Writes s.seqNum s.nextPos c.metadata m) (i j : IdMap) {u : Undo}
    (hu : ({ c with segs := c.segs.modify di f, metadata := m, idmap := i } : Collection).undo u =
      { c with segs := (c.segs.modify di f).modify di g, metadata := m, idmap := j })
    (hv : ∀ c' : Collection, di < c'.segs.length → c'.Valid u) :
    c.Reverts { c with segs := c.segs.modify di f, metadata := m, idmap := i } [u] := by
  refine ⟨?_, ?_, ?_⟩
  · rw [undoAll_singleton, hu, modify_modify_eq]
    exact h.near_touch hs hf hw j
  · intro w hw'
    rw [mem_singleton.mp hw']
    refine hv _ ?_
    simpa using (List.getElem?_eq_some_iff.mp hs).1
  · exact fun w hw' => hw'.mono hw.columns (by simp) hw.zone

theorem extends_modify (hf : ∀ s, s.nextPos ≤ (f s).nextPos) (i : IdMap) :
    c.Extends { c with segs := c.segs.modify di f, metadata := m, idmap := i } := by
  intro seq k t hk ht
  refine ⟨hk, _, getElem?_modify_of ht, ?_⟩
  split
  · exact hf t
  · exact le_refl _

theorem WF.reverts_dropAt (h : c.WF) (hl : c.Lives id loc) (hd : c.dirOf loc.segSeq = some di)
    (j : IdMap) {u : Undo} (hu : (c.dropAt di id loc.slotPos).undo u =
      { (c.dropAt di id loc.slotPos).modifySeg di fun s => s.revive loc.slotPos with idmap := j })
    (hv : ∀ c' : Collection, di < c'.segs.length → c'.Valid u) :
    c.Reverts (c.dropAt di id loc.slotPos) [u] := by
  obtain ⟨k, s, hk, hs, hslot, htomb, -⟩ := hl
  cases hd.symm.trans hk
  refine h.reverts_touch hs (g := fun s => s.revive loc.slotPos) ?_ (.refl _) _ j hu hv
  rw [revive_tombstone (h.segs s (mem_of_getElem? hs)) hslot htomb]
  exact .refl s

theorem extends_dropAt (c : Collection) (di : ℕ) (id : PointID) (slotPos : ℕ) :
    c.Extends (c.dropAt di id slotPos) :=
  extends_modify (fun s => (s.tombstone_keeps _).2.2.ge) _

theorem WF.withMetadata (h : c.WF) (hm : m.WF) : ({ c with metadata := m } : Collection).WF :=
  ⟨⟨h.seqs, h.dirs, h.openIdx, h.capacity, hm⟩, h.segs, h.located, h.alive⟩

section Cell

variable {col : ColID} {v : Value} (seq slot : ℕ)

theorem cell_eq (h : c.metadata.has col = true) :
    c.metadata.cell seq slot col = c.metadata.vals col seq slot := by
  rw [cell, readAt, if_pos h]

theorem WF.reverts_cell (h : c.WF) (hf : c.metadata.Fits col v) :
    c.Reverts { c with metadata := c.metadata.put col seq slot v }
      [.cell col seq slot (c.metadata.cell seq slot col)] := by
  have ⟨t, ht, _⟩ := hf
  have hw := @MetadataStore.writes_put _ seq slot _ _ hf
  have hprev : c.metadata.Fits col (c.metadata.vals col seq slot) :=
    ⟨t, ht, h.metadata.typed col t seq slot ht⟩
  have hback := @MetadataStore.writes_put (c.metadata.put col seq slot v) seq slot _ _
    (fits_put.mpr hprev)
  rw [cell_eq seq slot hf.has]
  refine ⟨?_, ?_, fun u hu => hu.mono rfl (le_refl _) hw.zone⟩
  · rw [undoAll_singleton,
      undo_cell (c := { c with metadata := c.metadata.put col seq slot v }) hprev]
    refine ⟨rfl, rfl, rfl, rfl, .refl .refl _, fun _ _ hd => hd, ?_, ?_⟩
    · intro _ t _ c' p _
      dsimp only [put]
      split
      · rename_i hc
        rw [hc.1, hc.2.1, hc.2.2]
      · rfl
    · exact fun c' s b => (hw.zone c' s b).trans (hback.zone c' s b)
  · intro u hu
    rw [mem_singleton.mp hu]
    refine ⟨hprev, fun hnull => ?_⟩
    exact (h.metadata.covered col seq slot hf.has hnull).1.trans_le
      (hw.zone col seq (slot / zoneBlockSize)).1

end Cell

def insertAt (c : Collection) (di : ℕ) (s : Segment) (id : PointID) (vec : Vec)
    (m : MetadataStore) : Collection :=
  { c with
    segs := c.segs.modify di fun s => s.append c.codec id vec 0
    metadata := m
    idmap := ⟨update c.idmap.fwd id (some ⟨s.seqNum, s.nextPos⟩),
      update c.idmap.dead id false⟩ }

theorem WF.insertAt (h : c.WF) (hs : c.segs[di]? = some s) (hfull : s.full = false)
    (hw : Writes s.seqNum s.nextPos c.metadata m) (id : PointID) (vec : Vec) :
    (c.insertAt di s id vec m).WF := by
  refine ⟨Framed.withIdmap (h.modify ?_ (hw.wf h.metadata)) _, ?_, ?_, ?_⟩
  · exact fun _ _ => ⟨rfl, rfl⟩
  · refine h.segs_modify fun t ht => ?_
    cases hs.symm.trans ht
    exact (h.segs s (mem_of_getElem? hs)).append hfull _ _ _ _
  · intro id' loc' hl'
    dsimp only [Collection.insertAt] at hl'
    by_cases hid : id' = id
    · subst hid
      rw [update_self] at hl'
      cases hl'
      refine ⟨di, _, h.seqs di s hs, getElem?_modify_of hs, ?_⟩
      rw [if_pos rfl]
      refine ⟨Nat.lt_succ_self _, ?_, update_self ..⟩
      exact (h.segs s (mem_of_getElem? hs)).clear _ (le_refl _)
    · rw [update_of_ne hid] at hl'
      refine (h.located id' loc' hl').modify _ fun t ht slot hslot htomb _ _ => ?_
      cases hs.symm.trans ht
      refine ⟨Nat.lt_succ_of_lt hslot, htomb, ?_⟩
      exact update_of_ne (by omega) _ _
  · intro id' loc' hl'
    dsimp only [Collection.insertAt] at hl' ⊢
    by_cases hid : id' = id
    · rw [hid, update_self]
    · rw [update_of_ne hid] at hl' ⊢
      exact h.alive id' loc' hl'

theorem WF.reverts_insertAt (h : c.WF) (hs : c.segs[di]? = some s)
    (hw : Writes s.seqNum s.nextPos c.metadata m) (id : PointID) (vec : Vec) :
    c.Reverts (c.insertAt di s id vec m) [.append di s.nextPos id] := by
  refine h.reverts_touch hs (g := fun s' => s'.unappend s.nextPos) ?_ hw _ _ rfl fun _ hl => hl
  exact near_unappend_append (h.segs s (mem_of_getElem? hs)) ..

section AppendSlot

variable (order : RangeOrder) (id : PointID) (vec : Vec) {row : MetaRow}

theorem appendSlot_misfit (h : c.WF) (hs : c.segs[di]? = some s)
    (hfits : ¬ ∀ e ∈ row.entries, c.metadata.Fits e.1 e.2) :
    ∃ c' e, c.appendSlot order di id vec row = (c', .error e) ∧ c'.Near c ∧ c'.WF ∧
      c'.idmap = c.idmap := by
  have hok := @MetadataStore.writeRow_ok_iff c.metadata s.seqNum s.nextPos row order
  have hw := @MetadataStore.writes_writeRow c.metadata s.seqNum s.nextPos row order
  unfold appendSlot
  dsimp only [modifySeg]
  rw [seg_eq hs]
  rcases hr : c.metadata.writeRow order s.seqNum s.nextPos row with ⟨m, e | _⟩ <;>
    rw [hr] at hok hw
  · dsimp only
    rw [modify_modify_eq]
    have hnear := h.near_touch (f := rollBack ∘ fun s => s.append c.codec id vec 0) hs
      (near_rollBack_append ..) hw c.idmap
    refine ⟨_, e, rfl, hnear, hnear.wf h ?_ (fun _ _ hl => hl) h.alive, rfl⟩
    exact h.modify (fun _ _ => ⟨rfl, rfl⟩) (hw.wf h.metadata)
  · exact absurd (hok.mp rfl) hfits

theorem appendSlot_fits (hs : c.segs[di]? = some s)
    (hfits : ∀ e ∈ row.entries, c.metadata.Fits e.1 e.2) :
    ∃ m, c.metadata.writeRow order s.seqNum s.nextPos row = (m, .ok ()) ∧
      c.appendSlot order di id vec row =
        ({ c with segs := c.segs.modify di fun s => s.append c.codec id vec 0, metadata := m },
          .ok ()) := by
  have hok := @MetadataStore.writeRow_ok_iff c.metadata s.seqNum s.nextPos row order
  unfold appendSlot
  dsimp only [modifySeg]
  rw [seg_eq hs]
  rcases hr : c.metadata.writeRow order s.seqNum s.nextPos row with ⟨m, e | _⟩ <;> rw [hr] at hok
  · exact absurd (hok.mpr hfits) fun h => nomatch h
  · exact ⟨m, rfl, rfl⟩

end AppendSlot

end Collection

namespace Draft

variable {d d' : Draft} {order : RangeOrder} {id : PointID} {vec : Vec} {row : MetaRow}

/-- The point can be appended: it is not there yet, and its data fit the collection. -/
structure Accepts (c : Collection) (id : PointID) (vec : Vec) (row : MetaRow) : Prop where
  dims : UInt32.ofNat vec.length = c.dims
  new : c.idmap.fwd id = none
  fits : ∀ e ∈ row.entries, c.metadata.Fits e.1 e.2

/-- Only leftovers of a call are in the collection, and it registered nothing. -/
structure Unchanged (d d' : Draft) : Prop where
  near : d'.coll.Near d.coll
  idmap : d'.coll.idmap = d.coll.idmap
  stamp : d'.stamp = d.stamp
  undo : d'.undo = d.undo

theorem forwardLookup_none (h : d.coll.idmap.fwd id = none) :
    d.coll.idmap.forwardLookup id = .error .notFound := by rw [IdMap.forwardLookup, h]

theorem forwardLookup_some {loc : IdLoc} (h : d.coll.idmap.fwd id = some loc) :
    d.coll.idmap.forwardLookup id = .ok loc := by rw [IdMap.forwardLookup, h]

theorem appendPoint_rejected (hc : d.coll.WF) (h : ¬ Accepts d.coll id vec row) :
    ∃ d' e, d.appendPoint order id vec row = (d', .error e) ∧ Unchanged d d' ∧ d'.coll.WF := by
  unfold appendPoint
  by_cases hdims : UInt32.ofNat vec.length = d.coll.dims
  · rw [if_neg (not_not_intro hdims)]
    rcases hid : d.coll.idmap.fwd id with _ | loc
    · obtain ⟨di, s, hopen, hs, -⟩ := hc.open_ensureOpen
      obtain ⟨hmeta, hidmap, -⟩ := ensureOpen_keeps d.coll
      have hmisfit : ¬ ∀ e ∈ row.entries, d.coll.ensureOpen.metadata.Fits e.1 e.2 := by
        rw [hmeta]
        exact fun hfits => h ⟨hdims, hid, hfits⟩
      obtain ⟨c, e, heq, hnear, hwf, hmap⟩ :=
        appendSlot_misfit order id vec hc.ensureOpen hs hmisfit
      rw [forwardLookup_none hid]
      dsimp only
      rw [show d.coll.ensureOpen.openIdx.getD 0 = di by rw [hopen, Option.getD_some], heq]
      exact ⟨_, e, rfl, ⟨hnear.trans hc.near_ensureOpen, hmap.trans hidmap, rfl, rfl⟩, hwf⟩
    · rw [forwardLookup_some hid]
      exact ⟨d, _, rfl, ⟨.refl _, rfl, rfl, rfl⟩, hc⟩
  · rw [if_pos hdims]
    exact ⟨d, _, rfl, ⟨.refl _, rfl, rfl, rfl⟩, hc⟩

theorem appendPoint_eq (hc : d.coll.WF) (h : Accepts d.coll id vec row) :
    ∃ di s m, d.coll.ensureOpen.segs[di]? = some s ∧ s.full = false ∧
      d.coll.metadata.writeRow order s.seqNum s.nextPos row = (m, .ok ()) ∧
      d.appendPoint order id vec row =
        ({ coll := d.coll.ensureOpen.insertAt di s id vec m
           stamp := d.stamp ++ [(di, s.nextPos)]
           undo := .append di s.nextPos id :: d.undo },
          .ok (d.coll.ensureOpen.colPos di s.nextPos)) := by
  obtain ⟨di, s, hopen, hs, hfull⟩ := hc.open_ensureOpen
  obtain ⟨hmeta, hidmap, -⟩ := ensureOpen_keeps d.coll
  obtain ⟨m, hm, heq⟩ := appendSlot_fits order id vec hs (by rw [hmeta]; exact h.fits)
  rw [hmeta] at hm
  refine ⟨di, s, m, hs, hfull, hm, ?_⟩
  unfold appendPoint
  rw [if_neg (not_not_intro h.dims), forwardLookup_none h.new]
  dsimp only
  rw [show d.coll.ensureOpen.openIdx.getD 0 = di by rw [hopen, Option.getD_some], heq]
  dsimp only
  rw [seg_eq hs, IdMap.insert, show d.coll.ensureOpen.idmap.fwd id = none by
    rw [hidmap]; exact h.new]
  rfl

theorem appendPoint_accepted (hc : d.coll.WF) (h : Accepts d.coll id vec row) :
    ∃ d' pos di loc, d.appendPoint order id vec row = (d', .ok pos) ∧
      d'.undo = .append di loc.slotPos id :: d.undo ∧
      d.coll.Reverts d'.coll [.append di loc.slotPos id] ∧ d'.coll.WF ∧
      d'.coll.idmap = ⟨update d.coll.idmap.fwd id (some loc), update d.coll.idmap.dead id false⟩ ∧
      d.coll.Fresh loc ∧ d.coll.Extends d'.coll := by
  obtain ⟨di, s, m, hs, hfull, hm, heq⟩ := @appendPoint_eq d order id vec row hc h
  obtain ⟨hmeta, hidmap, -⟩ := ensureOpen_keeps d.coll
  have hw : Writes s.seqNum s.nextPos d.coll.ensureOpen.metadata m := by
    have := @MetadataStore.writes_writeRow d.coll.metadata s.seqNum s.nextPos row order
    rwa [hm, ← hmeta] at this
  refine ⟨_, _, di, ⟨s.seqNum, s.nextPos⟩, heq, rfl, ?_, hc.ensureOpen.insertAt hs hfull hw id vec,
    ?_, ?_, ?_⟩
  · simpa using hc.near_ensureOpen.reverts.trans (hc.ensureOpen.reverts_insertAt hs hw id vec)
  · dsimp only [Collection.insertAt]
    rw [hidmap]
  · refine Collection.Fresh.mono hc.near_ensureOpen.extends ?_
    intro k t hk ht
    cases (hc.ensureOpen.seqs di s hs).symm.trans hk
    cases hs.symm.trans ht
    exact le_refl _
  · exact hc.near_ensureOpen.extends.trans (extends_modify (fun _ => Nat.le_succ _) _)

theorem delete_missing (h : d.coll.idmap.fwd id = none) : d.delete id = (d, .error .notFound) := by
  rw [delete, forwardLookup_none h]

theorem delete_eq {loc : IdLoc} {di : ℕ} (hl : d.coll.idmap.fwd id = some loc)
    (hd : d.coll.dirOf loc.segSeq = some di) : d.delete id = ({ d with
      coll := d.coll.dropAt di id loc.slotPos
      undo := .delete di loc.slotPos id loc.segSeq :: d.undo }, .ok ()) := by
  rw [delete, forwardLookup_some hl]
  dsimp only
  rw [hd]
  dsimp only
  rw [show (d.coll.modifySeg di fun s => s.tombstone loc.slotPos).idmap = d.coll.idmap from rfl,
    IdMap.tombstone, hl]
  rfl

theorem retire_eq {loc : IdLoc} {di : ℕ} (hl : d.coll.idmap.fwd id = some loc)
    (hd : d.coll.dirOf loc.segSeq = some di) : d.retire id loc = { d with
      coll := d.coll.dropAt di id loc.slotPos
      undo := .replace di loc.slotPos :: d.undo } := by
  unfold retire
  rw [hd, Option.getD_some]
  dsimp only
  rw [show (d.coll.modifySeg di fun s => s.tombstone loc.slotPos).idmap = d.coll.idmap from rfl,
    IdMap.tombstone, hl]
  rfl

/-- The entries that are written before one does not fit. -/
def fitting (m : MetadataStore) (entries : List (ColID × Value)) : List (ColID × Value) :=
  entries.takeWhile fun e => m.Fits e.1 e.2

def putAll (m : MetadataStore) (seq slot : ℕ) (entries : List (ColID × Value)) : MetadataStore :=
  entries.foldl (fun m e => m.put e.1 seq slot e.2) m

section UpdateCells

variable {col : ColID} {v : Value} {seq slot : ℕ} {entries : List (ColID × Value)}

theorem updateCells_fits (h : d.coll.metadata.Fits col v) :
    d.updateCells seq slot ((col, v) :: entries) = updateCells
        { d with
          coll := { d.coll with metadata := d.coll.metadata.put col seq slot v }
          undo := .cell col seq slot (d.coll.metadata.cell seq slot col) :: d.undo }
        seq slot entries := by
  rw [updateCells, h.has, writeAt_fits h]
  rfl

theorem updateCells_misfit (h : ¬ d.coll.metadata.Fits col v) :
    ∃ e, d.updateCells seq slot ((col, v) :: entries) = (d, .error e) := by
  obtain ⟨e, he⟩ := @MetadataStore.writeAt_misfit _ seq slot _ _ h
  rw [updateCells]
  split
  · exact ⟨_, rfl⟩
  · rw [he]
    exact ⟨_, rfl⟩

theorem updateCells_spec (hc : d.coll.WF) (entries : List (ColID × Value)) :
    let d' := (d.updateCells seq slot entries).1
    ∃ log, d'.undo = log ++ d.undo ∧ d.coll.Reverts d'.coll log ∧ d'.coll.WF ∧
      d'.stamp = d.stamp ∧ (∀ u ∈ log, ∃ col seq slot prev, u = .cell col seq slot prev) ∧
      d'.coll = { d.coll with
        metadata := putAll d.coll.metadata seq slot (fitting d.coll.metadata entries) } := by
  induction entries generalizing d with
  | nil => exact ⟨[], rfl, .refl _, hc, rfl, fun _ hu => (nomatch hu), rfl⟩
  | cons entry entries ih =>
    obtain ⟨col, v⟩ := entry
    by_cases h : d.coll.metadata.Fits col v
    · have hw := @MetadataStore.writes_put _ seq slot _ _ h
      obtain ⟨log, hundo, hrev, hwf, hstamp, hcells, hcoll⟩ :=
        @ih { d with
          coll := { d.coll with metadata := d.coll.metadata.put col seq slot v }
          undo := .cell col seq slot (d.coll.metadata.cell seq slot col) :: d.undo }
          (hc.withMetadata (hw.wf hc.metadata))
      rw [updateCells_fits h]
      refine ⟨log ++ [.cell col seq slot (d.coll.metadata.cell seq slot col)], ?_, ?_, hwf, hstamp,
        ?_, ?_⟩
      · rw [hundo, append_assoc, singleton_append]
      · exact (hc.reverts_cell seq slot h).trans hrev
      · intro u hu
        rcases mem_append.mp hu with hu | hu
        · exact hcells u hu
        · exact ⟨_, _, _, _, mem_singleton.mp hu⟩
      · rw [hcoll]
        simp only [fitting, takeWhile_cons, h, decide_true, putAll, foldl_cons, if_true]
        rfl
    · obtain ⟨e, he⟩ := @updateCells_misfit d col v seq slot entries h
      rw [he]
      refine ⟨[], rfl, .refl _, hc, rfl, fun _ hu => (nomatch hu), ?_⟩
      simp only [fitting, takeWhile_cons, h, decide_false, putAll]
      rfl

end UpdateCells

end Draft

namespace Write

variable {d : Draft} {id : PointID}

theorem failure_map {α β : Type} (f : α → β) (r : Except Err α) : failure (r.map f) = failure r := by
  cases r <;> rfl

theorem run_delete (hc : d.coll.WF) :
    d.coll.idmap.fwd id = none ∧ (delete id).run d = (d, some .notFound) ∨
    ∃ loc di, d.coll.idmap.fwd id = some loc ∧ d.coll.dirOf loc.segSeq = some di ∧
      (delete id).run d = ({ d with
        coll := d.coll.dropAt di id loc.slotPos
        undo := .delete di loc.slotPos id loc.segSeq :: d.undo }, none) := by
  rcases hl : d.coll.idmap.fwd id with _ | loc
  · exact .inl ⟨rfl, by rw [run, delete_missing hl]; rfl⟩
  · obtain ⟨di, _, hd, _⟩ := hc.located id loc hl
    exact .inr ⟨loc, di, rfl, hd, by rw [run, delete_eq hl hd]; rfl⟩

theorem run_upsert (hc : d.coll.WF) (order : RangeOrder) (vec : Vec) (row : MetaRow) :
    d.coll.idmap.fwd id = none ∧ (upsert order id vec row).run d = (insert order id vec row).run d ∨
    ∃ loc di, d.coll.idmap.fwd id = some loc ∧ d.coll.dirOf loc.segSeq = some di ∧
      (upsert order id vec row).run d = (insert order id vec row).run { d with
        coll := d.coll.dropAt di id loc.slotPos
        undo := .replace di loc.slotPos :: d.undo } := by
  rcases hl : d.coll.idmap.fwd id with _ | loc
  · refine .inl ⟨rfl, ?_⟩
    simp only [run, Draft.upsert, Draft.forwardLookup_none hl, failure_map]
  · obtain ⟨di, _, hd, _⟩ := hc.located id loc hl
    refine .inr ⟨loc, di, rfl, hd, ?_⟩
    simp only [run, Draft.upsert, Draft.forwardLookup_some hl, retire_eq hl hd, failure_map]

/-- Changing the cells of a point finds no point, or overwrites cells up to one that does not fit. -/
theorem run_updateMeta (hc : d.coll.WF) (row : MetaRow) :
    d.coll.idmap.fwd id = none ∧ (updateMeta id row).run d = (d, some .notFound) ∨
    ∃ loc log, d.coll.idmap.fwd id = some loc ∧ ((updateMeta id row).run d).1.undo = log ++ d.undo ∧
      d.coll.Reverts ((updateMeta id row).run d).1.coll log ∧
      ((updateMeta id row).run d).1.coll.WF ∧ ((updateMeta id row).run d).1.stamp = d.stamp ∧
      (∀ u ∈ log, ∃ col seq slot prev, u = .cell col seq slot prev) ∧
      ((updateMeta id row).run d).1.coll = { d.coll with
        metadata := putAll d.coll.metadata loc.segSeq loc.slotPos
          (fitting d.coll.metadata row.entries) } := by
  rcases hl : d.coll.idmap.fwd id with _ | loc
  · refine .inl ⟨rfl, ?_⟩
    rw [run, Draft.updateMeta, Draft.forwardLookup_none hl]
    rfl
  · obtain ⟨log, hspec⟩ := @updateCells_spec d loc.segSeq loc.slotPos hc row.entries
    refine .inr ⟨loc, log, rfl, ?_⟩
    rw [run, Draft.updateMeta, Draft.forwardLookup_some hl]
    exact hspec

end Write

end VecDb.Storage

import VecDb.Storage.WellFormed

/-! # Collections that differ in leftovers only

A write that fails or is undone leaves traces: an empty segment at the end of the directory, bytes
and cells in free slots, wider zone maps. Undoing an entry of the log keeps two collections near
each other.
-/

namespace VecDb.Storage

open Function Segment MetadataStore

/-- The same segment, up to what is in its free slots. -/
structure Segment.Near (s t : Segment) : Prop where
  seqNum : s.seqNum = t.seqNum
  capacity : s.capacity = t.capacity
  nextPos : s.nextPos = t.nextPos
  liveCount : s.liveCount = t.liveCount
  deadCount : s.deadCount = t.deadCount
  tomb : s.tomb = t.tomb
  rows : ∀ slot < t.nextPos, s.data slot = t.data slot ∧ s.version slot = t.version slot ∧
    s.backward slot = t.backward slot

structure Segment.Blank (s : Segment) : Prop where
  nextPos : s.nextPos = 0
  liveCount : s.liveCount = 0
  deadCount : s.deadCount = 0
  tomb : ∀ slot, s.tomb slot = false

namespace Segment

variable {s t u : Segment} {slot : ℕ}

theorem Near.refl (s : Segment) : s.Near s :=
  ⟨rfl, rfl, rfl, rfl, rfl, rfl, fun _ _ => ⟨rfl, rfl, rfl⟩⟩

theorem Near.trans (h : s.Near t) (h' : t.Near u) : s.Near u where
  seqNum := h.seqNum.trans h'.seqNum
  capacity := h.capacity.trans h'.capacity
  nextPos := h.nextPos.trans h'.nextPos
  liveCount := h.liveCount.trans h'.liveCount
  deadCount := h.deadCount.trans h'.deadCount
  tomb := h.tomb.trans h'.tomb
  rows slot hs := by
    obtain ⟨hd, hv, hb⟩ := h.rows slot (h'.nextPos ▸ hs)
    obtain ⟨hd', hv', hb'⟩ := h'.rows slot hs
    exact ⟨hd.trans hd', hv.trans hv', hb.trans hb'⟩

theorem Blank.near (h : s.Near t) (ht : t.Blank) : s.Blank where
  nextPos := h.nextPos.trans ht.nextPos
  liveCount := h.liveCount.trans ht.liveCount
  deadCount := h.deadCount.trans ht.deadCount
  tomb := by rw [h.tomb]; exact ht.tomb

theorem Near.wf (h : s.Near t) (ht : t.WF) : s.WF where
  fits := by rw [h.nextPos, h.capacity]; exact ht.fits
  clear := by rw [h.nextPos, h.tomb]; exact ht.clear
  dead := by rw [h.deadCount, h.nextPos, h.tomb]; exact ht.dead
  total := by rw [h.liveCount, h.deadCount, h.nextPos]; exact ht.total

theorem Blank.wf (h : s.Blank) : s.WF where
  fits := by rw [h.nextPos]; exact Nat.zero_le _
  clear slot _ := h.tomb slot
  dead := by rw [h.deadCount, h.nextPos, Nat.count_zero]
  total := by rw [h.liveCount, h.deadCount, h.nextPos]

theorem Near.unappend (h : s.Near t) : (s.unappend slot).Near (t.unappend slot) := by
  constructor <;> simp only [Segment.unappend]
  · exact h.seqNum
  · exact h.capacity
  · rw [h.nextPos]
  · rw [h.liveCount]
  · exact h.deadCount
  · rw [h.tomb]
  · intro p hp
    exact h.rows p (by split at hp <;> omega)

theorem Near.revive (h : s.Near t) : (s.revive slot).Near (t.revive slot) := by
  constructor <;> simp only [Segment.revive]
  · exact h.seqNum
  · exact h.capacity
  · exact h.nextPos
  · rw [h.liveCount]
  · rw [h.deadCount]
  · rw [h.tomb]
  · exact h.rows

theorem near_rollBack_append (codec : VecCodec) (id : PointID) (vec : Vec) (ver : ℕ) :
    (s.append codec id vec ver).rollBack.Near s := by
  refine ⟨rfl, rfl, rfl, rfl, rfl, rfl, fun p hp => ?_⟩
  have hne : p ≠ s.nextPos := by omega
  simp [append, rollBack, update_of_ne hne]

theorem near_unappend_append (hs : s.WF) (codec : VecCodec) (id : PointID) (vec : Vec) (ver : ℕ) :
    ((s.append codec id vec ver).unappend s.nextPos).Near s := by
  refine ⟨rfl, rfl, ?_, rfl, rfl, ?_, fun p hp => ?_⟩
  · simp [append, Segment.unappend]
  · simp only [append, Segment.unappend]
    rw [← hs.clear s.nextPos (le_refl _), update_eq_self]
  · have hne : p ≠ s.nextPos := by omega
    simp [append, Segment.unappend, update_of_ne hne]

theorem revive_tombstone (hs : s.WF) (hslot : slot < s.nextPos) (hl : s.tomb slot = false) :
    (s.tombstone slot).revive slot = s := by
  rw [tombstone_eq hs hslot hl, Segment.revive]
  have hpos := hs.live_pos hslot hl
  obtain ⟨seqNum, capacity, sealed, nextPos, data, tomb, version, backward, live, dead⟩ := s
  rw [update_idem, ← hl, update_eq_self, Nat.sub_add_cancel hpos, Nat.add_sub_cancel]

end Segment

namespace Collection

/-- The first collection is the second one with leftovers. The id maps are not compared. -/
structure Near (a b : Collection) : Prop where
  dims : a.dims = b.dims
  capacity : a.capacity = b.capacity
  codec : a.codec = b.codec
  columns : a.metadata.columns = b.metadata.columns
  segs : Grown Segment.Near Segment.Blank a.segs b.segs
  dirOf : ∀ seq di, b.dirOf seq = some di → a.dirOf seq = some di
  vals : ∀ (di : ℕ) (t : Segment), b.segs[di]? = some t → ∀ col slot, slot < t.nextPos →
    a.metadata.vals col t.seqNum slot = b.metadata.vals col t.seqNum slot
  zone : ∀ col seq block,
    (b.metadata.zone col seq block).Widened (a.metadata.zone col seq block)

/-- An entry of the undo log that can be undone in a collection. -/
def Valid (c : Collection) : Undo → Prop
  | .append di _ _ | .delete di _ _ _ | .replace di _ => di < c.segs.length
  | .cell col segSeq slotPos prev => c.metadata.Fits col prev ∧
      (prev.isNull = false → 0 < (c.metadata.zone col segSeq (slotPos / zoneBlockSize)).written)

/-- Undoing the log leads back to the first collection, up to leftovers. -/
structure Reverts (c₀ c : Collection) (log : List Undo) : Prop where
  near : (c.undoAll log).Near c₀
  valid : ∀ u ∈ log, c.Valid u
  keeps : ∀ u, c₀.Valid u → c.Valid u

variable {a b c c' : Collection} {di : ℕ} {f : Segment → Segment} {u : Undo}
  {log log' : List Undo} {id : PointID} {loc : IdLoc} {m m' : MetadataStore} {col : ColID}
  {seq slot : ℕ} {v : Value}

theorem Near.refl (c : Collection) : c.Near c where
  dims := rfl
  capacity := rfl
  codec := rfl
  columns := rfl
  segs := .refl .refl _
  dirOf _ _ h := h
  vals _ _ _ _ _ _ := rfl
  zone _ _ _ := .refl _

section

variable (h : a.Near b)
include h

theorem Near.trans (h' : b.Near c) : a.Near c where
  dims := h.dims.trans h'.dims
  capacity := h.capacity.trans h'.capacity
  codec := h.codec.trans h'.codec
  columns := h.columns.trans h'.columns
  segs := h.segs.trans (fun _ _ _ => .trans) (fun _ _ => .near) h'.segs
  dirOf seq di hd := h.dirOf seq di (h'.dirOf seq di hd)
  vals di t ht col slot hs := by
    obtain ⟨s, hs', hn⟩ := h'.segs.get ht
    have := h.vals di s hs' col slot (hn.nextPos ▸ hs)
    rw [hn.seqNum] at this
    exact this.trans (h'.vals di t ht col slot hs)
  zone col seq block := (h'.zone col seq block).trans (h.zone col seq block)

theorem Near.fits : a.metadata.Fits col v ↔ b.metadata.Fits col v := by
  unfold Fits colType
  rw [h.columns]

theorem Near.lives (hl : b.Lives id loc) : a.Lives id loc := by
  obtain ⟨di, t, hd, ht, hslot, htomb, hback⟩ := hl
  obtain ⟨s, hs, hn⟩ := h.segs.get ht
  refine ⟨di, s, h.dirOf _ _ hd, hs, hn.nextPos ▸ hslot, hn.tomb ▸ htomb, ?_⟩
  rw [(hn.rows _ hslot).2.2, hback]

theorem Near.wf (hb : b.WF) (ha : a.Framed)
    (hfwd : ∀ id loc, a.idmap.fwd id = some loc → b.idmap.fwd id = some loc)
    (hdead : ∀ id loc, a.idmap.fwd id = some loc → a.idmap.dead id = false) : a.WF where
  toFramed := ha
  segs s hs := by
    obtain ⟨i, hi⟩ := List.mem_iff_getElem?.mp hs
    rcases h.segs.get_cases hi with ⟨t, ht, hn⟩ | ⟨-, hblank⟩
    · exact hn.wf (hb.segs t (List.mem_of_getElem? ht))
    · exact hblank.wf
  located id loc hl := h.lives (hb.located id loc (hfwd id loc hl))
  alive := hdead

theorem Near.modifySeg (hdi : di < b.segs.length) (hf : ∀ s t, s.Near t → (f s).Near (f t))
    (hn : ∀ t, (f t).seqNum = t.seqNum ∧ (f t).nextPos ≤ t.nextPos) :
    (a.modifySeg di f).Near (b.modifySeg di f) where
  dims := h.dims
  capacity := h.capacity
  codec := h.codec
  columns := h.columns
  segs := h.segs.modify hdi fun s t _ _ => hf s t
  dirOf := h.dirOf
  vals i t ht col slot hslot := by
    obtain ⟨u, hu, rfl⟩ := getElem?_modify_cases ht
    have hkeep : (if i = di then f u else u).seqNum = u.seqNum ∧
        (if i = di then f u else u).nextPos ≤ u.nextPos := by
      split
      · exact hn u
      · exact ⟨rfl, le_refl _⟩
    rw [hkeep.1]
    exact h.vals i u hu col slot (hslot.trans_le hkeep.2)
  zone := h.zone

theorem Near.idmap (i j : IdMap) :
    ({ a with idmap := i } : Collection).Near { b with idmap := j } :=
  ⟨h.dims, h.capacity, h.codec, h.columns, h.segs, h.dirOf, h.vals, h.zone⟩

end

theorem Near.put (h : a.Near b)
    (hv : v.isNull = false → 0 < (b.metadata.zone col seq (slot / zoneBlockSize)).written) :
    ({ a with metadata := a.metadata.put col seq slot v } : Collection).Near
      { b with metadata := b.metadata.put col seq slot v } where
  dims := h.dims
  capacity := h.capacity
  codec := h.codec
  columns := h.columns
  segs := h.segs
  dirOf := h.dirOf
  vals i t ht c p hp := by
    dsimp only [MetadataStore.put]
    rw [h.vals i t ht c p hp]
  zone c s k := by
    dsimp only [MetadataStore.put]
    split
    · rename_i hc
      obtain ⟨rfl, rfl, rfl⟩ := hc
      exact (h.zone _ _ _).fold hv
    · exact h.zone c s k

theorem undo_cell {prev : Value} (h : c.metadata.Fits col prev) : c.undo (.cell col seq slot prev) =
      { c with metadata := c.metadata.put col seq slot prev } := by
  rw [undo, writeAt_fits h]

theorem Near.undo (h : a.Near b) (hv : b.Valid u) : (a.undo u).Near (b.undo u) := by
  cases u with
  | append di slot id =>
    refine (h.modifySeg hv (fun _ _ => .unappend) fun t => ⟨rfl, ?_⟩).idmap _ _
    dsimp only [Segment.unappend]
    split <;> omega
  | delete di slot id seq =>
    exact (h.modifySeg hv (fun _ _ => .revive) fun t => ⟨rfl, le_refl _⟩).idmap _ _
  | replace di slot => exact h.modifySeg hv (fun _ _ => .revive) fun t => ⟨rfl, le_refl _⟩
  | cell col seq slot prev =>
    rw [undo_cell (h.fits.mpr hv.1), undo_cell hv.1]
    exact h.put hv.2

theorem Valid.mono (h : c.Valid u) (hcols : c'.metadata.columns = c.metadata.columns)
    (hlen : c.segs.length ≤ c'.segs.length)
    (hzone : ∀ col seq k, (c.metadata.zone col seq k).Widened (c'.metadata.zone col seq k)) :
    c'.Valid u := by
  cases u with
  | append di slot id | delete di slot id seq | replace di slot => exact Nat.lt_of_lt_of_le h hlen
  | cell col seq slot prev =>
    refine ⟨?_, fun hp => ?_⟩
    · unfold Fits colType
      rw [hcols]
      exact h.1
    · exact (h.2 hp).trans_le (hzone col seq (slot / zoneBlockSize)).1

theorem Valid.undo (h : c.Valid u) (w : Undo) : (c.undo w).Valid u := by
  cases w with
  | append | delete | replace =>
    exact h.mono rfl (by simp [Collection.undo, modifySeg]) fun _ _ _ => .refl _
  | cell col seq slot prev =>
    by_cases hf : c.metadata.Fits col prev
    · rw [undo_cell hf]
      exact h.mono rfl (le_refl _) (@writes_put _ seq slot _ _ hf).zone
    · obtain ⟨e, he⟩ := @writeAt_misfit c.metadata seq slot _ _ hf
      rw [Collection.undo, he]
      exact h

theorem Near.undoAll (h : a.Near b) (hv : ∀ u ∈ log, b.Valid u) :
    (a.undoAll log).Near (b.undoAll log) := by
  induction log generalizing a b with
  | nil => exact h
  | cons u log ih =>
    rw [List.forall_mem_cons] at hv
    exact ih (h.undo hv.1) fun w hw => (hv.2 w hw).undo u

theorem undoAll_singleton (c : Collection) (u : Undo) : c.undoAll [u] = c.undo u := rfl

theorem undoAll_append (c : Collection) (log log' : List Undo) :
    c.undoAll (log ++ log') = (c.undoAll log).undoAll log' := List.foldl_append ..

theorem Reverts.refl (c : Collection) : Reverts c c [] :=
  ⟨.refl c, fun _ h => (nomatch h), fun _ => id⟩

theorem Reverts.trans (h : Reverts a b log) (h' : Reverts b c log') :
    Reverts a c (log' ++ log) where
  near := by
    rw [undoAll_append]
    exact (h'.near.undoAll h.valid).trans h.near
  valid u hu := by
    rcases List.mem_append.mp hu with hu | hu
    · exact h'.valid u hu
    · exact h'.keeps u (h.valid u hu)
  keeps u hu := h'.keeps u (h.keeps u hu)

end Collection

end VecDb.Storage

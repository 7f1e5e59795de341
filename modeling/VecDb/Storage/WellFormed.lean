import VecDb.Base.Grown
import VecDb.Storage.Write

/-! # Well-formed collections

The directory finds every segment, the segments count their slots, the zone maps have counted
their cells, and a point in the id map has a live slot that points back to it. An aborted transaction
can leave a live slot without a point.
-/

namespace VecDb.Storage.Collection

open List Function Nat

/-- The directory and the metadata store are in order. -/
structure Framed (c : Collection) : Prop where
  seqs : ∀ di s, c.segs[di]? = some s → c.dirOf s.seqNum = some di
  dirs : ∀ seq di, c.dirOf seq = some di → seq < c.nextSeq ∧
    ∃ s, c.segs[di]? = some s ∧ s.seqNum = seq
  openIdx : ∀ di, c.openIdx = some di → di < c.segs.length
  capacity : ∀ s ∈ c.segs, s.capacity = c.capacity.toNat
  metadata : c.metadata.WF

def Lives (c : Collection) (id : PointID) (loc : IdLoc) : Prop :=
  ∃ di s, c.dirOf loc.segSeq = some di ∧ c.segs[di]? = some s ∧ loc.slotPos < s.nextPos ∧
    s.tomb loc.slotPos = false ∧ s.backward loc.slotPos = id

structure WF (c : Collection) : Prop extends Framed c where
  segs : ∀ s ∈ c.segs, s.WF
  located : ∀ id loc, c.idmap.fwd id = some loc → c.Lives id loc
  alive : ∀ id loc, c.idmap.fwd id = some loc → c.idmap.dead id = false

/-- No block of a column has taken so many values that its counter wrapped around. -/
def Unwrapped (c : Collection) : Prop :=
  ∀ col seq block, (c.metadata.zone col seq block).written < 2 ^ 32

variable {c : Collection} {di : ℕ} {s : Segment} {f : Segment → Segment}
  {m : MetadataStore} {slot : ℕ}

theorem wf_newCollection (d : CollectionDef) : (newCollection d).WF where
  seqs _ _ h := nomatch h
  dirs _ _ h := nomatch h
  openIdx _ h := nomatch h
  capacity _ h := nomatch h
  metadata := MetadataStore.wf_new _
  segs _ h := nomatch h
  located _ _ h := nomatch h
  alive _ _ h := nomatch h

theorem capacity_toNat_pos (c : Collection) : 0 < c.capacity.toNat :=
  UInt32.lt_iff_toNat_lt.mp c.capacity_pos

theorem colPos_toNat (c : Collection) (h : di * c.capacity.toNat + slot < 2 ^ 32) :
    (c.colPos di slot).toNat = di * c.capacity.toNat + slot := by
  have hdi : di ≤ di * c.capacity.toNat := Nat.le_mul_of_pos_right _ c.capacity_toNat_pos
  rw [colPos, UInt32.toNat_add, UInt32.toNat_mul, UInt32.toNat_ofNat', UInt32.toNat_ofNat',
    @Nat.mod_eq_of_lt di (2 ^ 32) (by omega), @Nat.mod_eq_of_lt slot (2 ^ 32) (by omega),
    mod_add_mod, mod_eq_of_lt h]

theorem seg_eq (h : c.segs[di]? = some s) : c.seg di = s := by
  simp [seg, h]

theorem WF.slot_lt (h : c.WF) (hs : c.segs[di]? = some s) (hslot : slot < s.nextPos) :
    slot < c.capacity.toNat := by
  have hs' := mem_of_getElem? hs
  exact hslot.trans_le ((h.segs s hs').fits.trans_eq (h.capacity s hs'))

theorem WF.pairwise_slots (h : c.WF) {β : Type*} {g : Segment × ℕ → List β}
    {f : Segment → ℕ → ℕ → Option β} {R : β → β → Prop}
    (hg : ∀ s di, g (s, di) = (List.range s.nextPos).filterMap (f s di))
    (hR : ∀ {s di slot s' di' slot' b b'}, c.segs[di]? = some s → slot < s.nextPos →
      c.segs[di']? = some s' → slot' < s'.nextPos →
      di * c.capacity.toNat + slot < di' * c.capacity.toNat + slot' →
      f s di slot = some b → f s' di' slot' = some b' → R b b') :
    (c.segs.zipIdx.flatMap g).Pairwise R := by
  refine pairwise_flatMap.mpr ⟨?_, ?_⟩
  · rintro ⟨s, di⟩ hs
    have hs' := mem_zipIdx_iff_getElem?.mp hs
    have hrange : (List.range s.nextPos).Pairwise fun a b =>
        a < b ∧ a < s.nextPos ∧ b < s.nextPos :=
      pairwise_lt_range.imp_of_mem fun ha hb hlt =>
        ⟨hlt, mem_range.mp ha, mem_range.mp hb⟩
    rw [hg]
    refine List.Pairwise.filterMap _ ?_ hrange
    rintro slot slot' ⟨hlt, hslot, hslot'⟩ b hb b' hb'
    exact hR hs' hslot hs' hslot' (Nat.add_lt_add_left hlt _) hb hb'
  · rw [pairwise_iff_getElem]
    intro i j hi hj hij b hb b' hb'
    rw [getElem_zipIdx, hg, mem_filterMap, Nat.zero_add] at hb hb'
    obtain ⟨slot, hslot, hb⟩ := hb
    obtain ⟨slot', hslot', hb'⟩ := hb'
    rw [mem_range] at hslot hslot'
    rw [length_zipIdx] at hi hj
    have hsi := getElem?_eq_getElem hi
    have hsj := getElem?_eq_getElem hj
    refine hR hsi hslot hsj hslot' ?_ hb hb'
    have hlt := h.slot_lt hsi hslot
    have hmul := mul_le_mul_right c.capacity.toNat (succ_le_of_lt hij)
    rw [succ_mul] at hmul
    omega

section

variable (h : c.Framed)
include h

section

variable (hf : ∀ s, c.segs[di]? = some s → (f s).seqNum = s.seqNum ∧ (f s).capacity = s.capacity)
include hf

theorem Framed.modify (hm : m.WF) :
    ({ c with segs := c.segs.modify di f, metadata := m } : Collection).Framed := by
  have hkeep : ∀ i s, c.segs[i]? = some s →
      (if i = di then f s else s).seqNum = s.seqNum ∧
        (if i = di then f s else s).capacity = s.capacity := by
    intro i s hs
    split
    · subst_vars
      exact hf s hs
    · exact ⟨rfl, rfl⟩
  constructor
  · intro i t ht
    obtain ⟨s, hs, rfl⟩ := getElem?_modify_cases ht
    rw [(hkeep i s hs).1]
    exact h.seqs i s hs
  · intro seq i hi
    obtain ⟨hlt, s, hs, rfl⟩ := h.dirs seq i hi
    exact ⟨hlt, _, getElem?_modify_of hs, (hkeep i s hs).1⟩
  · intro i hi
    simpa using h.openIdx i hi
  · intro t ht
    obtain ⟨i, hi⟩ := mem_iff_getElem?.mp ht
    obtain ⟨s, hs, rfl⟩ := getElem?_modify_cases hi
    exact (hkeep i s hs).2.trans (h.capacity s (mem_of_getElem? hs))
  · exact hm

theorem Framed.modifySeg : (c.modifySeg di f).Framed :=
  h.modify hf h.metadata

end

theorem Framed.withIdmap (i : IdMap) : ({ c with idmap := i } : Collection).Framed :=
  ⟨h.seqs, h.dirs, h.openIdx, h.capacity, h.metadata⟩

theorem Framed.dirOf_openSegment {seq : ℕ} (hd : c.dirOf seq = some di) :
    c.openSegment.dirOf seq = some di := by
  rw [Collection.openSegment]
  dsimp only
  rwa [update_of_ne]
  exact (h.dirs _ _ hd).1.ne

theorem Framed.openSegment : c.openSegment.Framed := by
  constructor
  · intro i s hs
    rcases getElem?_concat_cases hs with hs | ⟨rfl, rfl⟩
    · exact h.dirOf_openSegment (h.seqs i s hs)
    · exact update_self ..
  · intro seq i hi
    rw [Collection.openSegment] at hi
    dsimp only at hi
    by_cases hseq : seq = c.nextSeq
    · subst hseq
      rw [update_self] at hi
      cases hi
      exact ⟨lt_succ_self _, newSegment c.nextSeq c.capacity.toNat,
        by simp [Collection.openSegment], rfl⟩
    · rw [update_of_ne hseq] at hi
      obtain ⟨hlt, s, hs, he⟩ := h.dirs seq i hi
      exact ⟨lt_succ_of_lt hlt, s, getElem?_concat_of hs, he⟩
  · intro i hi
    cases hi
    simp [Collection.openSegment]
  · intro s hs
    rcases mem_append.mp hs with hs | hs
    · exact h.capacity s hs
    · obtain rfl := mem_singleton.mp hs
      rfl
  · exact h.metadata

theorem Framed.ensureOpen : c.ensureOpen.Framed := by
  unfold Collection.ensureOpen
  split
  · split
    · apply Framed.openSegment
      exact h.modifySeg fun _ _ => ⟨rfl, rfl⟩
    · exact h
  · exact h.openSegment

theorem Framed.open_ensureOpen :
    ∃ di s, c.ensureOpen.openIdx = some di ∧ c.ensureOpen.segs[di]? = some s ∧ s.full = false := by
  have hnew : (newSegment c.nextSeq c.capacity.toNat).full = false := by
    simpa [newSegment, Segment.full, pos_iff_ne_zero] using c.capacity_toNat_pos
  unfold Collection.ensureOpen
  split
  · rename_i di hdi
    have hs := getElem?_eq_getElem (h.openIdx di hdi)
    split
    · exact ⟨_, _, rfl, by simp [Collection.openSegment, Collection.modifySeg], hnew⟩
    · rename_i hfull
      rw [seg_eq hs] at hfull
      exact ⟨di, _, hdi, hs, Bool.eq_false_iff.mpr hfull⟩
  · exact ⟨_, _, rfl, by simp [Collection.openSegment], hnew⟩

end

end VecDb.Storage.Collection

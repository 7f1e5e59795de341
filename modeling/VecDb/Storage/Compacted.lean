import VecDb.Storage.Owned

/-! # What compaction keeps

Compaction keeps the row of every point and numbers the live points densely, if every live slot
belongs to the point that the id map finds in it and has a position of its own.
-/

namespace VecDb.Storage

open Bytes List MetadataStore Option

namespace Collection

structure Row where
  data : Bytes
  cells : ColID → Value
  version : ℕ

def row (c : Collection) (id : PointID) : Option Row :=
  (c.idmap.fwd id).bind fun loc => (c.dirOf loc.segSeq).map fun di =>
    { data := (c.seg di).data loc.slotPos
      cells := c.metadata.cell loc.segSeq loc.slotPos
      version := (c.seg di).version loc.slotPos }

/-- The second collection is the first one compacted, and the table says what went where. -/
structure Compacts (c c' : Collection) (table : List Repoint) : Prop where
  rows : ∀ id, c'.row id = c.row id
  clear : ∀ s ∈ c'.segs, ∀ slot < s.nextPos, s.tomb slot = false
  /-- The live points are numbered from zero, in the order of the table. -/
  dense : ∀ (j : ℕ) (r : Repoint), table[j]? = some r → r.newPos.toNat = j
  filled : ∀ p id, c'.lookupPos p = .ok id ↔ ∃ r ∈ table, r.newPos = p ∧ r.pointID = id
  sorted : table.Pairwise fun r r' => r.oldPos < r'.oldPos
  complete : ∀ p id, c.lookupPos p = .ok id ↔ ∃ r ∈ table, r.oldPos = p ∧ r.pointID = id
  found : ∀ r ∈ table, c'.lookupID r.pointID = .ok r.newPos

/-- Encoding the vector of a live slot gives the stored bytes again. -/
def Recodes (c : Collection) : Prop :=
  ∀ di slot s, c.Live di slot s → c.codec.encode (c.codec.decode (s.data slot)) = s.data slot

variable {c : Collection} {di slot : ℕ} {lr : LiveRef} {s : Segment} {j : ℕ}

theorem recodes_of_slots
    (h : ∀ x ∈ c.slots, c.codec.encode (c.codec.decode (x.1.data x.2)) = x.1.data x.2) :
    c.Recodes := by
  intro di slot s hl
  refine h (s, slot) (mem_flatMap.mpr ⟨s, mem_of_getElem? hl.seg, ?_⟩)
  exact mem_map.mpr ⟨slot, mem_range.mpr hl.filled, rfl⟩

section

variable (hc : c.WF)
include hc

theorem WF.live_liveRef (hlr : lr ∈ c.liveRefs) :
    ∃ di s, c.Live di lr.slotPos s ∧ lr.segSeq = s.seqNum ∧ lr.oldPos = c.colPos di lr.slotPos ∧
      lr.id = s.backward lr.slotPos ∧ lr.version = s.version lr.slotPos := by
  obtain ⟨di, s, slot, hs, hslot, hlive, rfl⟩ := mem_liveRefs.mp hlr
  rw [Segment.isTombstoned_eq (hc.segs s (mem_of_getElem? hs)) hslot] at hlive
  exact ⟨di, s, ⟨hs, hslot, hlive⟩, rfl, rfl, rfl, rfl⟩

theorem WF.liveRef_live (hl : c.Live di slot s) : ∃ j : ℕ, c.liveRefs[j]? =
      some ⟨c.colPos di slot, s.seqNum, slot, s.backward slot, s.version slot⟩ := by
  refine mem_iff_getElem?.mp (mem_liveRefs.mpr ⟨di, s, slot, hl.seg, hl.filled, ?_, rfl⟩)
  rw [Segment.isTombstoned_eq (hc.segs s (mem_of_getElem? hl.seg)) hl.filled, hl.live]

theorem InGrid.oldPos_toNat (hg : c.InGrid) (hlr : lr ∈ c.liveRefs) :
    lr.oldPos.toNat = c.slotNumber lr.loc := by
  obtain ⟨di, s, hl, hseq, hpos, -, -⟩ := hc.live_liveRef hlr
  rw [hpos, c.colPos_toNat (hg _ _ _ hl), LiveRef.loc, hseq, hc.slotNumber hl.seg]

theorem InGrid.length_le (hg : c.InGrid) : c.liveRefs.length ≤ 2 ^ 32 := by
  have hnodup : (c.liveRefs.map fun lr => c.slotNumber lr.loc).Nodup :=
    pairwise_map.mpr (hc.liveRefs_pairwise.imp Nat.ne_of_lt)
  have hsub : (c.liveRefs.map fun lr => c.slotNumber lr.loc) ⊆ List.range (2 ^ 32) := by
    intro n hn
    obtain ⟨lr, hlr, rfl⟩ := mem_map.mp hn
    rw [mem_range, ← hg.oldPos_toNat hc hlr]
    exact UInt32.toNat_lt _
  simpa using (subperm_of_subset hnodup hsub).length_le

theorem Owned.row_live (ho : c.Owned) (hl : c.Live di slot s) : c.row (s.backward slot) =
      some ⟨s.data slot, c.metadata.cell s.seqNum slot, s.version slot⟩ := by
  rw [row, ho di slot s hl, bind_some, hc.seqs di s hl.seg, map_some, seg_eq hl.seg]

theorem WF.vectorOf (hl : c.Live di slot s) :
    c.vectorOf ⟨c.colPos di slot, s.seqNum, slot, s.backward slot, s.version slot⟩ =
      c.codec.decode (s.data slot) := by
  rw [Collection.vectorOf, hc.seqs di s hl.seg, getD_some, seg_eq hl.seg,
    Segment.fetchVector, if_neg (Nat.not_le.mpr hl.filled)]

theorem WF.cell_packed (hj : c.liveRefs[j]? = some lr) :
    c.packed.metadata.cell (c.nextSeq + j / c.capacity.toNat) (j % c.capacity.toNat) =
      c.metadata.cell lr.segSeq lr.slotPos := by
  have hp := repacked_packed hc
  funext col
  have hhas : c.packed.metadata.has col = c.metadata.has col := by
    rw [has, has, colType, colType, hp.columns]
  by_cases hcol : c.metadata.has col = true
  · rw [← hp.cells j lr hj col hcol, cell, readAt, hhas, if_pos hcol]
  · simp only [cell, readAt, hhas, if_neg hcol]

theorem WF.row_compact (ho : c.Owned) (hlen : c.liveRefs.length ≤ 2 ^ 32)
    (hcodec : c.Recodes) (id : PointID) : c.compact.row id = c.row id := by
  have hc' := hc.compact hlen
  have ho' := ho.compact hc hlen
  obtain ⟨dirOf, openIdx, heq, -, -⟩ := compact_eq hc
  rw [heq] at hc' ho' ⊢
  rcases hid : c.idmap.fwd id with _ | loc
  · have hnone := c.idmap.applyRepoint_isSome c.packed.repoint c.packedLoc id
    rw [hid, isSome_none, isSome_eq_false_iff, isNone_iff_eq_none] at hnone
    simp [row, hid, hnone]
  · obtain ⟨di, s, hd, hs, hslot, hlive, rfl⟩ := hc.located id loc hid
    have hl : c.Live di loc.slotPos s := ⟨hs, hslot, hlive⟩
    obtain ⟨j, hj⟩ := hc.liveRef_live hl
    obtain ⟨t, ht, hback, hver, hdata⟩ := (repacked_packed hc).rows j _ hj
    obtain ⟨t', ht', hslot', hseq, htomb, -⟩ := compact_slot hc hj
    cases ht.symm.trans ht'
    have hrow' := ho'.row_live hc' ⟨ht, hslot', htomb _⟩
    rw [hback, hver, hdata, hseq] at hrow'
    rw [hrow', ho.row_live hc hl, hc.vectorOf hl, hcodec di _ s hl, hc.cell_packed hj]

end

theorem newPos_toNat (hlen : c.liveRefs.length ≤ 2 ^ 32) (hj : j < c.liveRefs.length) :
    (c.colPos (j / c.capacity.toNat) (j % c.capacity.toNat)).toNat = j := by
  have hdiv := Nat.div_add_mod' j c.capacity.toNat
  rw [c.colPos_toNat (by omega), hdiv]

section Table

variable (hc : c.WF) {c' : Collection} {r : Repoint}

include hc

theorem WF.repoint_dense (hlen : c.liveRefs.length ≤ 2 ^ 32)
    (hr : c.packed.repoint[j]? = some r) : r.newPos.toNat = j := by
  rw [(repacked_packed hc).repoint, getElem?_map, getElem?_zipIdx] at hr
  rcases hj : c.liveRefs[j]? with _ | lr <;> rw [hj] at hr <;> cases hr
  simpa using newPos_toNat hlen (List.getElem?_eq_some_iff.mp hj).1

theorem WF.lookupPos_compact (hlen : c.liveRefs.length ≤ 2 ^ 32) (p : UInt32) (id : PointID) :
    c.compact.lookupPos p = .ok id ↔ ∃ r ∈ c.packed.repoint, r.newPos = p ∧ r.pointID = id := by
  have hc' := hc.compact hlen
  obtain ⟨dirOf, openIdx, heq, -, -⟩ := compact_eq hc
  rw [heq] at hc' ⊢
  rw [lookupPos_eq_ok hc']
  constructor
  · rintro ⟨k, slot, s, hl, hpos, rfl⟩
    obtain ⟨j, lr, hj, rfl, rfl⟩ := compact_live hc hl.seg hl.filled
    obtain ⟨t, ht, -, -, -, hback⟩ := compact_slot hc hj
    cases ht.symm.trans hl.seg
    refine ⟨_, (mem_repoint hc).mpr ⟨j, lr, hj, rfl⟩, ?_, hback.symm⟩
    rw [← UInt32.toNat_inj, newPos_toNat hlen (List.getElem?_eq_some_iff.mp hj).1, hpos]
    exact (Nat.div_add_mod' ..).symm
  · rintro ⟨r, hr, rfl, rfl⟩
    obtain ⟨j, lr, hj, rfl⟩ := (mem_repoint hc).mp hr
    obtain ⟨t, ht, hslot, -, htomb, hback⟩ := compact_slot hc hj
    refine ⟨_, _, t, ⟨ht, hslot, htomb _⟩, ?_, hback⟩
    rw [newPos_toNat hlen (List.getElem?_eq_some_iff.mp hj).1]
    exact (Nat.div_add_mod' ..).symm

theorem WF.repoint_sorted (hg : c.InGrid) :
    c.packed.repoint.Pairwise fun r r' => r.oldPos < r'.oldPos := by
  have hsorted : c.liveRefs.Pairwise fun lr lr' => lr.oldPos < lr'.oldPos := by
    refine hc.liveRefs_pairwise.imp_of_mem fun {x y} hx hy hlt => ?_
    rwa [UInt32.lt_iff_toNat_lt, hg.oldPos_toNat hc hx, hg.oldPos_toNat hc hy]
  rw [(repacked_packed hc).repoint, pairwise_map]
  rwa [← zipIdx_map_fst 0 c.liveRefs, pairwise_map] at hsorted

theorem WF.lookupPos_repoint (hg : c.InGrid) (p : UInt32) (id : PointID) :
    c.lookupPos p = .ok id ↔ ∃ r ∈ c.packed.repoint, r.oldPos = p ∧ r.pointID = id := by
  rw [lookupPos_eq_ok hc]
  constructor
  · rintro ⟨di, slot, s, hl, hpos, rfl⟩
    obtain ⟨j, hj⟩ := hc.liveRef_live hl
    refine ⟨_, (mem_repoint hc).mpr ⟨j, _, hj, rfl⟩, ?_, rfl⟩
    rw [← UInt32.toNat_inj, hpos]
    exact c.colPos_toNat (hg di slot s hl)
  · rintro ⟨r, hr, rfl, rfl⟩
    obtain ⟨j, lr, hj, rfl⟩ := (mem_repoint hc).mp hr
    obtain ⟨di, s, hl, -, hpos, hid, -⟩ := hc.live_liveRef (mem_of_getElem? hj)
    refine ⟨di, _, s, hl, ?_, hid.symm⟩
    rw [hpos, c.colPos_toNat (hg _ _ _ hl)]

theorem WF.lookupID_compact (ho : c.Owned) (hlen : c.liveRefs.length ≤ 2 ^ 32)
    (hr : r ∈ c.packed.repoint) : c.compact.lookupID r.pointID = .ok r.newPos := by
  obtain ⟨dirOf, openIdx, heq, hdir, -⟩ := compact_eq hc
  obtain ⟨j, lr, hj, rfl⟩ := (mem_repoint hc).mp hr
  obtain ⟨t, ht, -⟩ := compact_slot hc hj
  have hd := (hdir _ _).mpr ⟨(List.getElem?_eq_some_iff.mp ht).1, rfl⟩
  rw [heq]
  simp only [lookupID, IdMap.forwardLookup, ho.compact_fwd hc hlen hj, hd]
  rfl

theorem WF.compacts (ho : c.Owned) (hg : c.InGrid) (hcodec : c.Recodes) :
    c.Compacts c.compact c.packed.repoint where
  rows := hc.row_compact ho (hg.length_le hc) hcodec
  clear s hs slot _ := by
    obtain ⟨dirOf, openIdx, heq, -, -⟩ := compact_eq hc
    rw [heq] at hs
    obtain ⟨i, hi⟩ := mem_iff_getElem?.mp hs
    exact ((repacked_packed hc).segs i s hi).2.2.2.2 slot
  dense _ _ hr := hc.repoint_dense (hg.length_le hc) hr
  filled := hc.lookupPos_compact (hg.length_le hc)
  sorted := hc.repoint_sorted hg
  complete := hc.lookupPos_repoint hg
  found _ hr := hc.lookupID_compact ho (hg.length_le hc) hr

theorem Compacts.owned (hc' : c' = c.compact) (h : c.Compacts c' c.packed.repoint) : c.Owned := by
  subst hc'
  have hinj : ∀ {i j : ℕ} {x y : LiveRef}, c.liveRefs[i]? = some x → c.liveRefs[j]? = some y →
      x.id = y.id → i = j := by
    intro i j x y hx hy hid
    have hget : ∀ {k : ℕ} {lr : LiveRef}, c.liveRefs[k]? = some lr → c.packed.repoint[k]? =
        some ⟨lr.oldPos, c.colPos (k / c.capacity.toNat) (k % c.capacity.toNat), lr.id⟩ := by
      intro k lr hk
      rw [(repacked_packed hc).repoint, getElem?_map, getElem?_zipIdx, hk]
      simp
    have hfx := h.found _ (mem_of_getElem? (hget hx))
    have hfy := h.found _ (mem_of_getElem? (hget hy))
    rw [hid, hfy] at hfx
    have hi := h.dense i _ (hget hx)
    have hj := h.dense j _ (hget hy)
    rw [← hi, ← hj, Except.ok.inj hfx]
  intro di slot s hl
  obtain ⟨j, hj⟩ := hc.liveRef_live hl
  have hfound := h.found _ ((mem_repoint hc).mpr ⟨j, _, hj, rfl⟩)
  -- the point is in the id map, with a live slot, and that slot is this one
  rcases hid : c.idmap.fwd (s.backward slot) with _ | loc
  · have hnone := c.idmap.applyRepoint_isSome c.packed.repoint c.packedLoc (s.backward slot)
    obtain ⟨dirOf, openIdx, heq, -, -⟩ := compact_eq hc
    rw [hid, isSome_none, isSome_eq_false_iff, isNone_iff_eq_none] at hnone
    rw [heq] at hfound
    simp only [lookupID, IdMap.forwardLookup, hnone] at hfound
    cases hfound
  · obtain ⟨di', s', hd, hs', hslot', hlive', hback⟩ := hc.located _ loc hid
    obtain ⟨j', hj'⟩ := hc.liveRef_live ⟨hs', hslot', hlive'⟩
    obtain rfl := hinj hj hj' hback.symm
    have heq := Option.some.inj (hj.symm.trans hj')
    obtain ⟨-, u, hu, hseq⟩ := hc.dirs _ _ hd
    cases hs'.symm.trans hu
    rw [(LiveRef.mk.inj heq).2.1, (LiveRef.mk.inj heq).2.2.1, hseq]

theorem Compacts.inGrid (ho : c.Owned) (h : c.Compacts c' c.packed.repoint) : c.InGrid := by
  intro di slot s hl
  obtain ⟨j, hj⟩ := hc.liveRef_live hl
  have hpos := (h.complete _ _).mpr ⟨_, (mem_repoint hc).mpr ⟨j, _, hj, rfl⟩, rfl, rfl⟩
  obtain ⟨di', slot', s', hl', hp, hid⟩ := (lookupPos_eq_ok hc).mp hpos
  obtain ⟨rfl, rfl⟩ := ho.unique hc hl' hl hid
  rw [← hp]
  exact UInt32.toNat_lt _

end Table

end Collection

namespace Sys

/-- Compaction of a collection without open transactions is right just if every live slot belongs
to the point that the id map finds in it and has a position of its own. -/
theorem compact_compacts_iff {s s' : Sys} (hs : s.Reachable) {k : UInt64} {c : Collection}
    (hc : s.engine.colls k = some c) (hcodec : c.Recodes) (h : s.step (.compact k) = .ok s') :
    ∃ c', s'.engine.colls k = some c' ∧
      (c.Compacts c' c.packed.repoint ↔ c.Owned ∧ c.InGrid) := by
  have hwf := hs.inv.wf hc
  refine ⟨c.compact, ?_, ?_, ?_⟩
  · cases takes_of_step h
    simp [Engine.modifyColl, hc]
  · intro hcomp
    have ho := hcomp.owned hwf rfl
    exact ⟨ho, hcomp.inGrid hwf ho⟩
  · rintro ⟨ho, hg⟩
    exact hwf.compacts ho hg hcodec

theorem compact_compacts_spread : ∃ c c' s', (after spread).engine.colls 1 = some c ∧
    (after spread).step (.compact 1) = .ok s' ∧ s'.engine.colls 1 = some c' ∧
    c.packed.repoint = [⟨0, 0, 5⟩, ⟨2, 1, 7⟩] ∧ c.Compacts c' c.packed.repoint := by
  obtain ⟨c', hc', h⟩ := @compact_compacts_iff (after spread) _ (reachable_after (by decide)) 1 _ rfl
    (Collection.recodes_of_slots (by decide)) rfl
  refine ⟨_, c', _, rfl, rfl, hc', by decide, h.mpr ⟨fun di slot s hl => ?_, fun di slot s hl => ?_⟩⟩
  · obtain ⟨rfl | rfl, rfl⟩ := spread_live hl
    · cases hl.seg
      rfl
    · cases hl.seg
      rfl
  · obtain ⟨rfl | rfl, rfl⟩ := spread_live hl <;> decide

def abortedReplace : List Event :=
  onePoint ++ [.begin, .call 1 (.upsert .id 5 [0] ⟨[], List.nodup_nil⟩), .abort]

/-- Compaction reports a new position for point 5, but the point is not found there. -/
theorem compact_loses_replaced_point : (after abortedReplace).Reachable ∧ ∃ c s',
    (after abortedReplace).engine.colls 1 = some c ∧ c.Recodes ∧
    (after abortedReplace).step (.compact 1) = .ok s' ∧ c.lookupPos 0 = .ok 5 ∧
    c.packed.repoint = [⟨0, 0, 5⟩] ∧ s'.engine.lookupID 1 5 = .error .notFound := by
  refine ⟨reachable_after (by decide), _, _, rfl, ?_, rfl, by decide, by decide, by decide⟩
  exact Collection.recodes_of_slots (by decide)

end Sys

end VecDb.Storage

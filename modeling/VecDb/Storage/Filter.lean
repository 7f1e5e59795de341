import VecDb.Storage.Observe
import VecDb.Storage.Owned

/-! # What scans and filters find

A filter with zone maps finds the rows that a scan would find, as long as the numbers of slots and
blocks do not wrap around and the zone map of each block admits the values of its rows. NaN as a
bound admits no number, and bounds that a wrapped counter has reset may admit too little.
-/

namespace VecDb.Storage

open Mvcc List MetadataStore

/-- The bitmap contains the position of this number. -/
def PositionBitmap.Marks (b : PositionBitmap) (n : ℕ) : Prop :=
  ∃ p : UInt32, p.toNat = n ∧ b.contains p = true

theorem PositionBitmap.marks_toNat {b : PositionBitmap} {p : UInt32} :
    b.Marks p.toNat ↔ b.contains p = true :=
  ⟨fun ⟨_, hq, h⟩ => UInt32.toNat_inj.mp hq ▸ h, fun h => ⟨p, rfl, h⟩⟩

namespace Collection

variable {c : Collection} {pred : Predicate} {snap : Option Snapshot} {p : UInt32} {di slot : ℕ}
  {s : Segment}

/-- A live and visible slot of this number passes. -/
def Matches (c : Collection) (pred : Predicate) (snap : Option Snapshot) (n : ℕ) : Prop :=
  ∃ di slot s, c.Live di slot s ∧ visibleIn snap (s.version slot) = true ∧
    pred.eval (c.metadata.cell s.seqNum slot) = true ∧ n = di * c.capacity.toNat + slot

def InBlocks (s : Segment) (slot : ℕ) : Prop :=
  slot / zoneBlockSize < (s.nextPos + zoneBlockSize - 1) % 2 ^ 32 / zoneBlockSize

/-- The scan of a block that is not skipped finds the slot. -/
structure Picked (c : Collection) (pred : Predicate) (snap : Option Snapshot) (di slot : ℕ)
    (s : Segment) : Prop where
  live : c.Live di slot s
  visible : visibleIn snap (s.version slot) = true
  passes : pred.eval (c.metadata.cell s.seqNum slot) = true
  block : InBlocks s slot
  scanned : blockSkippable (fun col => c.metadata.zone col s.seqNum) (slot / zoneBlockSize) pred =
    false

/-- Filters go as far as the slot and its block, and the zone maps of the block admit its values. -/
structure Findable (c : Collection) (di slot : ℕ) (s : Segment) : Prop where
  number : di * c.capacity.toNat + slot < c.gridSize.toNat
  block : InBlocks s slot
  admits : ∀ col, c.metadata.has col = true → (c.metadata.vals col s.seqNum slot).isNull = false →
    (c.metadata.zone col s.seqNum (slot / zoneBlockSize)).count = 0 ∨
      (c.metadata.zone col s.seqNum (slot / zoneBlockSize)).Admits
        (c.metadata.vals col s.seqNum slot)

def Filterable (c : Collection) : Prop := ∀ di slot s, c.Live di slot s → c.Findable di slot s

theorem WF.inGrid (hc : c.WF) (h : c.segs.length * c.capacity.toNat ≤ 2 ^ 32) : c.InGrid := by
  intro di slot s hl
  have hlt := hc.slot_lt hl.seg hl.filled
  have hmul := Nat.mul_le_mul_right c.capacity.toNat
    (Nat.succ_le_of_lt (List.getElem?_eq_some_iff.mp hl.seg).1)
  rw [Nat.succ_mul] at hmul
  omega

theorem Filterable.inGrid (h : c.Filterable) : c.InGrid := fun di slot s hl =>
  (h di slot s hl).number.trans (UInt32.toNat_lt c.gridSize)

theorem WF.visibleLive_iff (hc : c.WF) (hs : c.segs[di]? = some s)
    (hslot : slot < s.nextPos) : s.visibleLive slot snap = true ↔
      c.Live di slot s ∧ visibleIn snap (s.version slot) = true := by
  rw [Segment.visibleLive, Segment.isTombstoned_eq (hc.segs s (mem_of_getElem? hs)) hslot]
  rcases htomb : s.tomb slot with _ | _
  · exact ⟨fun h => ⟨⟨hs, hslot, htomb⟩, h⟩, fun h => h.2⟩
  · refine iff_of_false Bool.false_ne_true fun h => ?_
    have := h.1.live
    rw [htomb] at this
    cases this

theorem WF.mem_scanVectors (hc : c.WF) {x : UInt32 × Vec} : x ∈ c.scanVectors snap ↔
    ∃ di slot s, c.Live di slot s ∧ visibleIn snap (s.version slot) = true ∧
      x = (c.colPos di slot, c.codec.decode (s.data slot)) := by
  simp only [scanVectors, mem_flatMap, Prod.exists, mk_mem_zipIdx_iff_getElem?,
    mem_filterMap, mem_range, Option.ite_none_right_eq_some, Option.some.injEq]
  constructor
  · rintro ⟨s, di, hs, slot, hslot, hvis, rfl⟩
    obtain ⟨hl, hvis⟩ := (hc.visibleLive_iff hs hslot).mp hvis
    exact ⟨di, slot, s, hl, hvis, rfl⟩
  · rintro ⟨di, slot, s, hl, hvis, rfl⟩
    exact ⟨s, di, hl.seg, slot, hl.filled, (hc.visibleLive_iff hl.seg hl.filled).mpr ⟨hl, hvis⟩, rfl⟩

theorem InGrid.scanVectors_nodup (hg : c.InGrid) (hc : c.WF) (snap : Option Snapshot) :
    ((c.scanVectors snap).map Prod.fst).Nodup := by
  refine pairwise_map.mpr (hc.pairwise_slots (fun _ _ => rfl)
    fun hs hslot hs' hslot' hlt hx hx' heq => ?_)
  simp only [Option.ite_none_right_eq_some, Option.some.injEq] at hx hx'
  obtain ⟨hvis, rfl⟩ := hx
  obtain ⟨hvis', rfl⟩ := hx'
  have hpos := c.colPos_toNat (hg _ _ _ ((hc.visibleLive_iff hs hslot).mp hvis).1)
  have hpos' := c.colPos_toNat (hg _ _ _ ((hc.visibleLive_iff hs' hslot').mp hvis').1)
  dsimp only at heq
  rw [heq] at hpos
  omega

section

variable (hc : c.WF)
include hc

theorem WF.mem_filterHits : p ∈ c.filterHits pred snap ↔
    ∃ di slot s, c.Picked pred snap di slot s ∧ c.colPos di slot = p := by
  simp only [filterHits, filterSegment, mem_flatMap, Prod.exists,
    mk_mem_zipIdx_iff_getElem?, mem_range]
  constructor
  · rintro ⟨s, di, hs, block, hblock, hp⟩
    split at hp
    · cases hp
    · rename_i hskip
      obtain ⟨slot, hslot, rfl, hvis, he, rfl⟩ := mem_filterBlock.mp hp
      obtain ⟨hl, hvis⟩ := (hc.visibleLive_iff hs hslot).mp hvis
      exact ⟨di, slot, s, ⟨hl, hvis, he, hblock, Bool.eq_false_iff.mpr hskip⟩, rfl⟩
  · rintro ⟨di, slot, s, ⟨hl, hvis, he, hblock, hskip⟩, rfl⟩
    refine ⟨s, di, hl.seg, slot / zoneBlockSize, hblock, ?_⟩
    rw [if_neg (by simp [hskip])]
    refine mem_filterBlock.mpr ⟨slot, hl.filled, rfl, ?_, he, rfl⟩
    exact (hc.visibleLive_iff hl.seg hl.filled).mpr ⟨hl, hvis⟩

theorem WF.matches_of_contains (hg : c.InGrid)
    (hp : (c.metadataFilter pred snap).contains p = true) : c.Matches pred snap p.toNat := by
  obtain ⟨di, slot, s, h, rfl⟩ :=
    hc.mem_filterHits.mp ((metadataFilter_contains c pred snap).mp hp).2
  exact ⟨di, slot, s, h.live, h.visible, h.passes, c.colPos_toNat (hg di slot s h.live)⟩

theorem WF.picked_of_marks (hg : c.InGrid) (hl : c.Live di slot s)
    (h : (c.metadataFilter pred snap).Marks (di * c.capacity.toNat + slot)) :
    di * c.capacity.toNat + slot < c.gridSize.toNat ∧ c.Picked pred snap di slot s := by
  obtain ⟨p, hp, hcontains⟩ := h
  obtain ⟨hlt, hhit⟩ := (metadataFilter_contains c pred snap).mp hcontains
  obtain ⟨di', slot', s', hpick, rfl⟩ := hc.mem_filterHits.mp hhit
  rw [c.colPos_toNat (hg di' slot' s' hpick.live)] at hp
  obtain ⟨rfl, rfl⟩ := hl.number_inj hc hpick.live hp.symm
  cases hl.seg.symm.trans hpick.live.seg
  rw [UInt32.lt_iff_toNat_lt, c.colPos_toNat (hg _ _ _ hl)] at hlt
  exact ⟨hlt, hpick⟩

theorem Findable.canSkip (hf : c.Findable di slot s) {col : ColID} {op : CmpOp} {lit : Value}
    (he : op.eval (c.metadata.cell s.seqNum slot col) lit = true) :
    (c.metadata.zone col s.seqNum (slot / zoneBlockSize)).canSkip op lit = false := by
  have hnull : (c.metadata.cell s.seqNum slot col).isNull = false := by
    unfold CmpOp.eval at he
    split at he
    · cases he
    · simp_all
  rcases htype : c.metadata.colType col with _ | t
  · simp [cell, readAt, has, htype, Value.isNull] at hnull
  · have hhas : c.metadata.has col = true := by simp [has, htype]
    rw [cell_eq _ _ hhas] at he hnull
    have ht : (c.metadata.vals col s.seqNum slot).matchesType t = true := by
      simpa [hnull] using hc.metadata.typed col t s.seqNum slot htype
    rcases hf.admits col hhas hnull with h0 | ha
    · exact if_pos h0
    · exact ZoneBlock.canSkip_eval (hc.metadata.zones col t _ _ htype) ha ht he

/-- Filters mark the numbers of the rows that pass, just if they can find every live slot. -/
theorem WF.filters_iff :
    (∀ pred snap n, (c.metadataFilter pred snap).Marks n ↔ c.Matches pred snap n) ↔
      c.Filterable := by
  constructor
  · intro h
    have hg : c.InGrid := by
      intro di slot s hl
      obtain ⟨p, hp, -⟩ := (h .always none _).mpr ⟨di, slot, s, hl, rfl, rfl, rfl⟩
      exact hp ▸ p.toNat_lt
    intro di slot s hl
    obtain ⟨hlt, hpick⟩ :=
      hc.picked_of_marks hg hl ((h .always none _).mpr ⟨di, slot, s, hl, rfl, rfl, rfl⟩)
    refine ⟨hlt, hpick.block, fun col hhas hnull => ?_⟩
    by_contra hv
    obtain ⟨h0, ha⟩ := not_or.mp hv
    obtain ⟨t, ht⟩ := Option.isSome_iff_exists.mp (show (c.metadata.colType col).isSome from hhas)
    have hvt : (c.metadata.vals col s.seqNum slot).matchesType t = true := by
      simpa [hnull] using hc.metadata.typed col t s.seqNum slot ht
    obtain ⟨op, lit, he, hskip⟩ :=
      ZoneBlock.exists_skipped h0 (hc.metadata.zones col t _ _ ht) ha hnull hvt
    -- the row passes the comparison, but its block is skipped
    rw [← cell_eq _ _ hhas] at he
    have hpick' := (hc.picked_of_marks hg hl
      ((h (.compare col op lit) none _).mpr ⟨di, slot, s, hl, rfl, he, rfl⟩)).2
    exact Bool.false_ne_true (hpick'.scanned.symm.trans hskip)
  · intro hf pred snap n
    constructor
    · rintro ⟨p, rfl, hp⟩
      exact hc.matches_of_contains hf.inGrid hp
    · rintro ⟨di, slot, s, hl, hvis, he, rfl⟩
      have hfind := hf di slot s hl
      have hpos := c.colPos_toNat (hf.inGrid di slot s hl)
      refine ⟨c.colPos di slot, hpos, (metadataFilter_contains c pred snap).mpr ⟨?_, ?_⟩⟩
      · rw [UInt32.lt_iff_toNat_lt, hpos]
        exact hfind.number
      · refine hc.mem_filterHits.mpr ⟨di, slot, s, ⟨hl, hvis, he, hfind.block, ?_⟩, rfl⟩
        exact blockSkippable_eval (fun col op lit hop => hfind.canSkip hc hop) pred he

end

end Collection

namespace Sys

theorem spread_filterable : (((after spread).engine.colls 1).get rfl).Filterable := by
  have hcol : ∀ col, (((after spread).engine.colls 1).get rfl).metadata.has col = true → col = 1 := by
    intro col hhas
    have hfind : (([(⟨1, .int64⟩ : ColumnDef)].find? fun d => d.id = col).map _).isSome = true := hhas
    simp only [Option.isSome_map, List.find?_isSome, List.mem_singleton, exists_eq_left,
      decide_eq_true_iff] at hfind
    exact hfind.symm
  intro di slot s hl
  obtain ⟨rfl | rfl, rfl⟩ := spread_live hl
  all_goals
    cases hl.seg
    refine ⟨by decide, of_decide_eq_true (p := (_ < _)) (by decide), fun col hhas _ => ?_⟩
    rw [hcol col hhas]
    exact .inr (by decide)

def nanFirst : List Event :=
  [.create { plainDef with columns := [⟨1, .float64⟩] }, .begin,
    .call 1 (.insert .id 5 [0] ⟨[(1, .float ⟨0x7ff8000000000000⟩)], by decide⟩),
    .call 1 (.insert .id 6 [0] ⟨[(1, .int 1)], by decide⟩), .drawSeq, .publish]

end Sys

end VecDb.Storage

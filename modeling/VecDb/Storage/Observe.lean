import VecDb.Storage.Engine
import VecDb.Storage.Near

/-! # What a reader can tell

Leftovers cannot be seen: two collections that are near each other answer every read
alike, given the same id map. Only the size of a filter's bitmap may differ, which is
a 32-bit number and cuts off the positions past it.
-/

namespace VecDb

theorem rel_cases {α β : Type*} {r : α → β → Prop} {x : Option α} {y : Option β}
    (h : Option.Rel r x y) : x = none ∧ y = none ∨ ∃ a b, x = some a ∧ y = some b ∧ r a b := by
  cases h with
  | none => exact .inl ⟨rfl, rfl⟩
  | some h => exact .inr ⟨_, _, rfl, rfl, h⟩

namespace Storage

open Mvcc List Nat

theorem Segment.Near.isTombstoned {s t : Segment} (h : s.Near t) (slot : ℕ) :
    s.isTombstoned slot = t.isTombstoned slot := by
  unfold Segment.isTombstoned
  rw [h.capacity, h.tomb]

variable {slot : ℕ}

theorem Segment.Near.visibleLive {s t : Segment} (h : s.Near t) (hs : slot < t.nextPos)
    (snap : Option Snapshot) : s.visibleLive slot snap = t.visibleLive slot snap := by
  unfold Segment.visibleLive
  rw [h.isTombstoned, (h.rows slot hs).2.1]

theorem PositionBitmap.contains_foldl (hits : List UInt32) (b : PositionBitmap) (p : UInt32) :
    (hits.foldl PositionBitmap.set b).contains p = true ↔ p < b.n ∧ (p ∈ hits ∨ p ∈ b.marked) := by
  induction hits generalizing b with
  | nil =>
    rw [foldl_nil, contains]
    split
    · rename_i h
      exact iff_of_false Bool.false_ne_true fun hp => absurd hp.1 (UInt32.not_lt.mpr h)
    · rename_i h
      rw [decide_eq_true_iff]
      simp [UInt32.not_le.mp h]
  | cons q hits ih =>
    rw [foldl_cons, ih, set]
    split
    · rename_i hq
      refine and_congr_right fun hp => ?_
      have hne : p ≠ q := fun heq => absurd (heq ▸ hp) (UInt32.not_lt.mpr hq)
      simp [hne]
    · refine and_congr_right fun _ => ?_
      simp only [mem_cons]
      tauto

namespace Collection

variable {a b : Collection} {p : UInt32} {di slot : ℕ} {t : Segment}

theorem metadataFilter_contains (c : Collection) (pred : Predicate) (snap : Option Snapshot) :
    (c.metadataFilter pred snap).contains p = true ↔
      p < c.gridSize ∧ p ∈ c.filterHits pred snap := by
  rw [metadataFilter, PositionBitmap.contains_foldl]
  simp

section

variable (h : a.Near b)
include h

theorem Near.colPos : a.colPos = b.colPos := by
  funext di slot
  rw [Collection.colPos, Collection.colPos, h.capacity]

theorem Near.locate (p : UInt32) :
    (∃ di slot s t, a.locate p = some (di, slot) ∧ b.locate p = some (di, slot) ∧
      a.seg di = s ∧ b.seg di = t ∧ b.segs[di]? = some t ∧ s.Near t) ∨ b.locate p = none ∧
      (a.locate p = none ∨ ∃ di slot, a.locate p = some (di, slot) ∧ (a.seg di).Blank) := by
  unfold Collection.locate
  rw [h.capacity]
  rcases lt_or_ge (p.toNat / b.capacity.toNat) b.segs.length with hlt | hge
  · have ht := getElem?_eq_getElem hlt
    obtain ⟨s, hs, hn⟩ := h.segs.get ht
    have hlt' := (List.getElem?_eq_some_iff.mp hs).1
    rw [if_neg (by omega), if_neg (by omega)]
    exact .inl ⟨_, _, s, _, rfl, rfl, seg_eq hs, seg_eq ht, ht, hn⟩
  · rw [if_pos hge]
    refine .inr ⟨rfl, ?_⟩
    rcases lt_or_ge (p.toNat / b.capacity.toNat) a.segs.length with hlt | hge'
    · have hs := getElem?_eq_getElem hlt
      rw [if_neg (by omega)]
      refine .inr ⟨_, _, rfl, ?_⟩
      rw [seg_eq hs]
      rcases h.segs.get_cases hs with ⟨t, ht, -⟩ | ⟨-, hblank⟩
      · have := (List.getElem?_eq_some_iff.mp ht).1
        omega
      · exact hblank
    · rw [if_pos hge']
      exact .inl rfl

theorem Near.lookupID (hb : b.WF) (hfwd : a.idmap.fwd = b.idmap.fwd)
    (id : PointID) : a.lookupID id = b.lookupID id := by
  unfold Collection.lookupID IdMap.forwardLookup
  rw [hfwd]
  rcases hl : b.idmap.fwd id with _ | loc
  · rfl
  · obtain ⟨di, s, hd, -⟩ := hb.located id loc hl
    dsimp only
    rw [hd, h.dirOf _ _ hd, h.colPos]

theorem Near.lookupPos (p : UInt32) : a.lookupPos p = b.lookupPos p := by
  unfold Collection.lookupPos
  rcases h.locate p with ⟨di, slot, s, t, ha, hb, hs, ht, -, hn⟩ | ⟨hb, ha | ⟨di, slot, ha, hblank⟩⟩
  · rw [ha, hb]
    dsimp only
    rw [hs, ht, hn.nextPos, hn.isTombstoned, Segment.backwardMapLookup, Segment.backwardMapLookup,
      hn.nextPos]
    rcases lt_or_ge slot t.nextPos with hlt | hge
    · rw [(hn.rows slot hlt).2.2]
    · rw [if_pos hge, if_pos hge]
  · rw [ha, hb]
  · rw [ha, hb]
    dsimp only
    rw [hblank.nextPos, if_pos (zero_le _)]

theorem Near.readAt (ht : b.segs[di]? = some t) (hs : slot < t.nextPos) (col : ColID) :
    a.metadata.readAt col t.seqNum slot = b.metadata.readAt col t.seqNum slot := by
  unfold MetadataStore.readAt MetadataStore.has MetadataStore.colType
  rw [h.columns, h.vals di t ht col slot hs]

theorem Near.projectMeta (ht : b.segs[di]? = some t)
    (hs : slot < t.nextPos) (proj : Option (List ColID)) :
    a.projectMeta t.seqNum slot proj = b.projectMeta t.seqNum slot proj := by
  unfold Collection.projectMeta
  rw [h.columns]
  refine filterMap_congr fun col _ => ?_
  rw [h.readAt ht hs]

theorem Near.fetch (p : UInt32) (proj : Option (List ColID))
    (snap : Option Snapshot) : a.fetch p proj snap = b.fetch p proj snap := by
  unfold Collection.fetch
  rcases h.locate p with ⟨di, slot, s, t, ha, hb, hs, ht, ht', hn⟩ | ⟨hb, ha | ⟨di, slot, ha, hblank⟩⟩
  · rw [ha, hb]
    dsimp only
    rw [hs, ht, hn.nextPos, hn.isTombstoned]
    rcases lt_or_ge slot t.nextPos with hlt | hge
    · obtain ⟨hdata, hver, hback⟩ := hn.rows slot hlt
      rw [hdata, hver, hback, hn.seqNum, h.projectMeta ht' hlt, h.codec]
    · rw [if_pos hge, if_pos hge]
  · rw [ha, hb]
  · rw [ha, hb]
    dsimp only
    rw [hblank.nextPos, if_pos (zero_le _)]

theorem Near.scanVectors (snap : Option Snapshot) : a.scanVectors snap = b.scanVectors snap := by
  refine h.segs.flatMap_zipIdx 0 ?_ ?_
  · intro i s t _ _ hn
    dsimp only
    rw [hn.nextPos]
    refine filterMap_congr fun slot hslot => ?_
    have hlt := mem_range.mp hslot
    rw [hn.visibleLive hlt, h.colPos, h.codec, (hn.rows slot hlt).1]
  · intro s i hblank
    dsimp only
    rw [hblank.nextPos]
    rfl

theorem Near.liveTotal : a.liveTotal = b.liveTotal := by
  unfold Collection.liveTotal
  rw [h.segs.sum_map (fun _ _ hn => hn.liveCount) fun _ hblank => hblank.liveCount,
    h.segs.sum_map (fun _ _ hn => hn.deadCount) fun _ hblank => hblank.deadCount]

end

section Filter

variable {s t : Segment} {di : ℕ} {pred : Predicate} {snap : Option Snapshot} {c : Collection}

theorem Near.cell (h : a.Near b) (ht : b.segs[di]? = some t) (hs : slot < t.nextPos) :
    a.metadata.cell t.seqNum slot = b.metadata.cell t.seqNum slot := by
  funext col
  unfold MetadataStore.cell
  rw [h.readAt ht hs]

theorem Near.blockSkippable (h : a.Near b) (ha : a.metadata.WF) (hb : b.metadata.WF)
    (hz : a.Unwrapped) (ht : b.segs[di]? = some t) (hs : slot < t.nextPos)
    (he : pred.eval (b.metadata.cell t.seqNum slot) = true) :
    blockSkippable (fun col => a.metadata.zone col t.seqNum) (slot / zoneBlockSize) pred =
      blockSkippable (fun col => b.metadata.zone col t.seqNum) (slot / zoneBlockSize) pred := by
  refine blockSkippable_eq (fun col op lit hop => ?_) pred he
  -- a comparison that passes reads a column that is there
  rcases htype : b.metadata.colType col with _ | ty
  · have hnull : b.metadata.cell t.seqNum slot col = .null := by
      simp [MetadataStore.cell, MetadataStore.readAt, MetadataStore.has, htype]
    rw [hnull] at hop
    simp [CmpOp.eval, Value.isNull] at hop
  · have hhas : b.metadata.has col = true := by simp [MetadataStore.has, htype]
    have htype' : a.metadata.colType col = some ty := by
      rw [← htype, MetadataStore.colType, MetadataStore.colType, h.columns]
    have hcell : b.metadata.cell t.seqNum slot col = b.metadata.vals col t.seqNum slot := by
      simp [MetadataStore.cell, MetadataStore.readAt, hhas]
    rw [hcell] at hop
    refine (h.zone col t.seqNum _).canSkip_eq (hb.zones _ _ _ _ htype) (ha.zones _ _ _ _ htype')
      (hb.covered col _ slot hhas) ?_ (hz _ _ _) (hb.typed _ _ _ _ htype) hop
    rw [← h.vals di t ht col slot hs]
    exact ha.covered col _ slot (by simp [MetadataStore.has, htype'])

theorem mem_filterBlock {block : ℕ} :
    p ∈ c.filterBlock pred snap s di block ↔ ∃ slot < s.nextPos, slot / zoneBlockSize = block ∧
      s.visibleLive slot snap = true ∧ pred.eval (c.metadata.cell s.seqNum slot) = true ∧
      c.colPos di slot = p := by
  unfold filterBlock
  simp only [mem_filterMap, mem_range'_1, Option.ite_none_right_eq_some,
    Bool.and_eq_true, Option.some.injEq]
  refine exists_congr fun slot => ?_
  have : block * zoneBlockSize ≤ slot ∧ slot < block * zoneBlockSize +
      (min (block * zoneBlockSize + zoneBlockSize) s.nextPos - block * zoneBlockSize) ↔
      slot < s.nextPos ∧ slot / zoneBlockSize = block := by
    unfold zoneBlockSize
    omega
  rw [this]
  tauto

theorem filterHits_lt (hc : c.WF)
    (hlen : c.segs.length * c.capacity.toNat < 2 ^ 32) (hp : p ∈ c.filterHits pred snap) :
    p.toNat < c.segs.length * c.capacity.toNat := by
  simp only [filterHits, filterSegment, mem_flatMap] at hp
  obtain ⟨⟨s, di⟩, hentry, block, -, hp⟩ := hp
  split at hp
  · cases hp
  · obtain ⟨slot, hslot, -, -, -, rfl⟩ := mem_filterBlock.mp hp
    have hs : c.segs[di]? = some s := mk_mem_zipIdx_iff_getElem?.mp hentry
    have hdi := (List.getElem?_eq_some_iff.mp hs).1
    have hfits := (hc.segs s (mem_of_getElem? hs)).fits
    rw [hc.capacity s (mem_of_getElem? hs)] at hfits
    have hmul : (di + 1) * c.capacity.toNat ≤ c.segs.length * c.capacity.toNat :=
      mul_le_mul_right _ hdi
    rw [succ_mul] at hmul
    dsimp only at hslot ⊢
    rw [c.colPos_toNat (by omega)]
    omega

theorem gridSize_toNat (h : c.segs.length * c.capacity.toNat < 2 ^ 32) :
    c.gridSize.toNat = c.segs.length * c.capacity.toNat := by
  have hlen : c.segs.length < 2 ^ 32 :=
    (Nat.le_mul_of_pos_right _ c.capacity_toNat_pos).trans_lt h
  rw [gridSize, UInt32.toNat_mul, UInt32.toNat_ofNat', mod_eq_of_lt hlen, mod_eq_of_lt h]

theorem Near.filterBlock (h : a.Near b) (ht : b.segs[di]? = some t) (hn : s.Near t) (block : ℕ) :
    a.filterBlock pred snap s di block = b.filterBlock pred snap t di block := by
  unfold Collection.filterBlock
  rw [hn.nextPos, hn.seqNum, h.colPos]
  refine filterMap_congr fun slot hslot => ?_
  have hlt : slot < t.nextPos := by
    have := mem_range'_1.mp hslot
    omega
  rw [hn.visibleLive hlt, h.cell ht hlt]

theorem Near.filterSegment (h : a.Near b) (ha : a.metadata.WF) (hb : b.metadata.WF)
    (hz : a.Unwrapped) (ht : b.segs[di]? = some t) (hn : s.Near t) :
    a.filterSegment pred snap s di = b.filterSegment pred snap t di := by
  unfold Collection.filterSegment
  rw [hn.nextPos]
  refine flatMap_congr fun block _ => ?_
  rw [h.filterBlock ht hn, hn.seqNum]
  -- the zone maps may differ on a block, but then no row of it passes
  rcases hrows : b.filterBlock pred snap t di block with _ | ⟨q, rest⟩
  · simp
  · obtain ⟨slot, hlt, rfl, -, he, -⟩ := mem_filterBlock.mp (hrows ▸ mem_cons_self)
    rw [h.blockSkippable ha hb hz ht hlt he]

theorem Near.filterHits (h : a.Near b) (ha : a.metadata.WF) (hb : b.metadata.WF)
    (hz : a.Unwrapped) :
    a.filterHits pred snap = b.filterHits pred snap := by
  refine h.segs.flatMap_zipIdx 0 ?_ ?_
  · intro i s t _ ht hn
    rw [zero_add]
    exact h.filterSegment ha hb hz ht hn
  · intro s i hblank
    dsimp only [Collection.filterSegment]
    rw [hblank.nextPos]
    simp [zoneBlockSize]

end Filter

/-- Two collections answer lookups, fetches, scans and counts alike. -/
structure Alike (a b : Collection) : Prop where
  lookupID : ∀ id, a.lookupID id = b.lookupID id
  lookupPos : ∀ p, a.lookupPos p = b.lookupPos p
  fetch : ∀ p proj snap, a.fetch p proj snap = b.fetch p proj snap
  scanVectors : ∀ snap, a.scanVectors snap = b.scanVectors snap
  liveTotal : a.liveTotal = b.liveTotal

theorem Near.alike (h : a.Near b) (hb : b.WF) (hfwd : a.idmap.fwd = b.idmap.fwd) : a.Alike b where
  lookupID := h.lookupID hb hfwd
  lookupPos := h.lookupPos
  fetch := h.fetch
  scanVectors := h.scanVectors
  liveTotal := h.liveTotal

theorem Alike.fwd_none (h : a.Alike b) (hb : b.WF) {id : PointID} (ha : a.idmap.fwd id = none) :
    b.idmap.fwd id = none := by
  rcases hl : b.idmap.fwd id with _ | loc
  · rfl
  · obtain ⟨di, s, hd, -⟩ := hb.located id loc hl
    have := h.lookupID id
    simp [Collection.lookupID, IdMap.forwardLookup, ha, hl, hd] at this

end Collection

namespace Engine

/-- Two engines answer lookups, fetches, scans and counts alike. -/
structure Alike (a b : Engine) : Prop where
  lookupID : ∀ k id, a.lookupID k id = b.lookupID k id
  lookupPos : ∀ k p, a.lookupPos k p = b.lookupPos k p
  fetch : ∀ k p proj snap, a.fetch k p proj snap = b.fetch k p proj snap
  scanVectors : ∀ k snap, a.scanVectors k snap = b.scanVectors k snap
  collectionStats : ∀ k, a.collectionStats k = b.collectionStats k

/-- Two engines answer filters and the counts of the id map alike, too. Of a filter's bitmap a
reader asks what it contains. -/
structure Agree (a b : Engine) : Prop extends Alike a b where
  metadataFilter : ∀ k pred snap p,
    (a.metadataFilter k pred snap).map (fun bm => bm.contains p) =
      (b.metadataFilter k pred snap).map fun bm => bm.contains p
  idMapStats : ∀ k, a.idMapStats k = b.idMapStats k

theorem alike_iff {a b : Engine} :
    a.Alike b ↔ ∀ k, Option.Rel Collection.Alike (a.colls k) (b.colls k) := by
  constructor
  · intro h k
    have hid := h.lookupID k
    have hpos := h.lookupPos k
    have hfetch := h.fetch k
    have hscan := h.scanVectors k
    have hstats := h.collectionStats k
    unfold lookupID at hid
    unfold lookupPos at hpos
    unfold fetch at hfetch
    unfold scanVectors at hscan
    unfold collectionStats at hstats
    rcases ha : a.colls k with _ | c <;> rcases hb : b.colls k with _ | d <;>
      rw [ha, hb] at hstats
    · exact .none
    · cases hstats
    · cases hstats
    · simp only [ha, hb, Except.ok.injEq] at hid hpos hfetch hscan hstats
      exact .some ⟨hid, hpos, hfetch, hscan, hstats⟩
  · intro h
    constructor <;> intro k <;> have hk := h k <;>
      simp only [lookupID, lookupPos, fetch, scanVectors, collectionStats] <;>
      rcases ha : a.colls k with _ | c <;> rcases hb : b.colls k with _ | d <;>
      rw [ha, hb] at hk <;> cases hk
    · exact fun _ => rfl
    · exact fun id => Collection.Alike.lookupID ‹_› id
    · exact fun _ => rfl
    · exact fun p => Collection.Alike.lookupPos ‹_› p
    · exact fun _ _ _ => rfl
    · exact fun p proj snap => Collection.Alike.fetch ‹_› p proj snap
    · exact fun _ => rfl
    · exact fun snap => congrArg Except.ok (Collection.Alike.scanVectors ‹_› snap)
    · exact congrArg Except.ok (Collection.Alike.liveTotal ‹_›)

end Engine

end Storage

end VecDb

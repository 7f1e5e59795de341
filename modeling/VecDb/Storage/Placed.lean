import VecDb.Storage.Compacted
import VecDb.Storage.Contents

/-! # Where points stand

The live points of a collection by position. Adding a point leaves the others where they
are, and so do a commit and a call that fails. Compaction does so only if the points stand
densely already.
-/

namespace VecDb.Storage

open Bytes List Draft Segment

namespace Collection

def placed (c : Collection) : List (UInt32 × Vec) := c.scanVectors none

/-- The live points stand where compaction puts them. -/
def Dense (c : Collection) : Prop :=
  ∀ (j : ℕ) (lr : LiveRef), c.liveRefs[j]? = some lr → lr.oldPos.toNat = j

variable {a b c : Collection} {di slot : ℕ} {s : Segment} {x : UInt32 × Vec} {id : PointID}

theorem WF.mem_placed (hc : c.WF) : x ∈ c.placed ↔ ∃ di slot s, c.Live di slot s ∧
    x = (c.colPos di slot, c.codec.decode (s.data slot)) := by
  rw [placed, hc.mem_scanVectors]
  simp only [visibleIn, true_and]

theorem scanVectors_eq_placed {snap : Option Mvcc.Snapshot} (hvis : ∀ ver, visibleIn snap ver = true) :
    c.scanVectors snap = c.placed := by
  have hnone : ∀ ver, visibleIn none ver = true := fun _ => rfl
  simp only [placed, scanVectors, visibleLive, hvis, hnone]

theorem WF.liveAt_of_placed (hc : c.WF) (hg : c.InGrid) (hx : x ∈ c.placed) : c.LiveAt x.1 := by
  obtain ⟨di, slot, s, hl, rfl⟩ := hc.mem_placed.mp hx
  exact ⟨di, slot, s, hl, c.colPos_toNat (hg _ _ _ hl)⟩

theorem WF.length_le_live (hc : c.WF) {ids : List PointID} (hn : ids.Nodup)
    (hids : ∀ id ∈ ids, c.idmap.fwd id ≠ none) : ids.length ≤ c.liveTotal.1 := by
  have hsub : ids ⊆ (c.slots.filter fun x => !x.1.isTombstoned x.2).map fun x => x.1.backward x.2 := by
    intro id hid
    obtain ⟨loc, hl⟩ := Option.ne_none_iff_exists'.mp (hids id hid)
    obtain ⟨di, s, hd, hs, hslot, hlive, hback⟩ := hc.located id loc hl
    refine mem_map.mpr ⟨(s, loc.slotPos), mem_filter.mpr ⟨?_, ?_⟩, hback⟩
    · exact mem_flatMap.mpr ⟨s, mem_of_getElem? hs, mem_map.mpr ⟨_, mem_range.mpr hslot, rfl⟩⟩
    · rw [isTombstoned_eq (hc.segs s (mem_of_getElem? hs)) hslot, hlive]
      rfl
  rw [hc.liveTotal_eq, countP_eq_length_filter]
  simpa using (subperm_of_subset hn hsub).length_le

theorem Near.mem_placed (h : a.Near b) (ha : a.WF) (hb : b.WF) : x ∈ a.placed ↔ x ∈ b.placed := by
  have hpos : ∀ di slot, a.colPos di slot = b.colPos di slot := by
    intro di slot
    rw [Collection.colPos, Collection.colPos, h.capacity]
  rw [ha.mem_placed, hb.mem_placed, h.codec]
  constructor
  · rintro ⟨di, slot, s, hl, rfl⟩
    rcases h.segs.get_cases hl.seg with ⟨t, ht, hn⟩ | ⟨-, hblank⟩
    · have hslot : slot < t.nextPos := hn.nextPos ▸ hl.filled
      refine ⟨di, slot, t, ⟨ht, hslot, hn.tomb ▸ hl.live⟩, ?_⟩
      rw [hpos, (hn.rows slot hslot).1]
    · have := hl.filled
      rw [hblank.nextPos] at this
      exact absurd this (Nat.not_lt_zero _)
  · rintro ⟨di, slot, t, hl, rfl⟩
    obtain ⟨s, hs, hn⟩ := h.segs.get hl.seg
    refine ⟨di, slot, s, ⟨hs, hn.nextPos ▸ hl.filled, hn.tomb ▸ hl.live⟩, ?_⟩
    rw [hpos, (hn.rows slot hl.filled).1]

theorem WF.placed_insertAt (hc : c.WF) {vec : Vec} {m : MetadataStore}
    (hc' : (c.insertAt di s id vec m).WF) (hx : x ∈ c.placed) :
    x ∈ (c.insertAt di s id vec m).placed := by
  obtain ⟨k, slot, t, hl, rfl⟩ := hc.mem_placed.mp hx
  have hseg : (c.insertAt di s id vec m).segs[k]? =
      some (if k = di then t.append c.codec id vec 0 else t) := getElem?_modify_of hl.seg
  refine hc'.mem_placed.mpr ⟨k, slot, _, ⟨hseg, ?_, ?_⟩, ?_⟩
  · split
    · exact Nat.lt_succ_of_lt hl.filled
    · exact hl.filled
  · split
    · exact hl.live
    · exact hl.live
  · have hdata : (t.append c.codec id vec 0).data slot = t.data slot :=
      Function.update_of_ne (Nat.ne_of_lt hl.filled) _ _
    rw [apply_ite data, apply_ite (fun f : ℕ → Bytes => f slot), hdata, ite_self]
    rfl

theorem WF.placed_dropAt (hc : c.WF) (hg : c.InGrid) {loc : IdLoc}
    (hl : c.idmap.fwd id = some loc) (hd : c.dirOf loc.segSeq = some di) :
    ∃ x ∈ c.placed, ∀ y ∈ (c.dropAt di id loc.slotPos).placed, y.1 ≠ x.1 := by
  obtain ⟨k, s, hk, hs, hslot, hlive, -⟩ := hc.located id loc hl
  cases hk.symm.trans hd
  have hlive : c.Live di loc.slotPos s := ⟨hs, hslot, hlive⟩
  refine ⟨_, hc.mem_placed.mpr ⟨di, loc.slotPos, s, hlive, rfl⟩, fun y hy hpos => ?_⟩
  obtain ⟨k', slot', s', hl', rfl⟩ := (hc.dropAt hl hd).mem_placed.mp hy
  have hdrop := tombstone_eq (hc.segs s (mem_of_getElem? hs)) hslot hlive.live
  -- another live slot has another number
  have hne : ∀ {t : Segment}, c.Live k' slot' t → ¬ (k' = di ∧ slot' = loc.slotPos) → False := by
    intro t ht hne
    have hnum := congrArg UInt32.toNat hpos
    change (c.colPos k' slot').toNat = (c.colPos di loc.slotPos).toNat at hnum
    rw [c.colPos_toNat (hg _ _ _ ht), c.colPos_toNat (hg _ _ _ hlive)] at hnum
    exact hne (ht.number_inj hc hlive hnum)
  rcases hl'.modify_cases rfl with ⟨u, rfl, hu, rfl, hfilled, htomb⟩ | ⟨hk', hl'⟩
  · cases hs.symm.trans hu
    rw [hdrop] at hfilled htomb
    by_cases hslot' : slot' = loc.slotPos
    · rw [hslot'] at htomb
      exact Bool.noConfusion ((Function.update_self ..).symm.trans htomb)
    · have hkept : s.tomb slot' = false := (Function.update_of_ne hslot' _ _).symm.trans htomb
      exact hne ⟨hs, hfilled, hkept⟩ fun h => hslot' h.2
  · exact hne hl' fun h => hk' h.1

theorem WF.placed_of_lookupPos (hc : c.WF) {p : UInt32} (h : c.lookupPos p = .ok id) :
    ∃ y ∈ c.placed, y.1 = p := by
  obtain ⟨di, slot, s, hl, hp, -⟩ := (lookupPos_eq_ok hc).mp h
  refine ⟨_, hc.mem_placed.mpr ⟨di, slot, s, hl, rfl⟩, ?_⟩
  rw [← UInt32.toNat_inj, c.colPos_toNat (by rw [← hp]; exact p.toNat_lt), hp]

theorem placed_stampSlot (c : Collection) (seq : ℕ) (slot : ℕ × ℕ) :
    (c.stampSlot seq slot).placed = c.placed := by
  rw [placed, placed, scanVectors, scanVectors, flatMap_def, flatMap_def]
  refine congrArg List.flatten (ext_getElem? fun i => ?_)
  simp only [stampSlot, modifySeg, getElem?_map, getElem?_zipIdx, getElem?_modify]
  rcases c.segs[i]? with _ | t
  · simp
  · simp only [Option.map_some]
    split <;> rfl

theorem placed_stampAll (c : Collection) (seq : ℕ) (slots : List (ℕ × ℕ)) :
    (c.stampAll seq slots).placed = c.placed := by
  induction slots generalizing c with
  | nil => rfl
  | cons slot slots ih => exact (ih _).trans (c.placed_stampSlot seq slot)

section Compaction

theorem WF.mem_placed_iff_liveRef (hc : c.WF) :
    x ∈ c.placed ↔ ∃ lr ∈ c.liveRefs, x = (lr.oldPos, c.vectorOf lr) := by
  rw [hc.mem_placed]
  constructor
  · rintro ⟨di, slot, s, hl, rfl⟩
    obtain ⟨j, hj⟩ := hc.liveRef_live hl
    exact ⟨_, mem_of_getElem? hj, by rw [hc.vectorOf hl]⟩
  · rintro ⟨lr, hlr, rfl⟩
    obtain ⟨di, s, slot, hs, hslot, hlive, rfl⟩ := mem_liveRefs.mp hlr
    rw [isTombstoned_eq (hc.segs s (mem_of_getElem? hs)) hslot] at hlive
    have hl : c.Live di slot s := ⟨hs, hslot, hlive⟩
    exact ⟨di, slot, s, hl, by rw [hc.vectorOf hl]⟩

theorem WF.mem_placed_compact (hc : c.WF) (hlen : c.liveRefs.length ≤ 2 ^ 32) (hd : c.Dense)
    (hcodec : ∀ lr ∈ c.liveRefs, c.codec.decode (c.codec.encode (c.vectorOf lr)) = c.vectorOf lr) :
    x ∈ c.compact.placed ↔ x ∈ c.placed := by
  have hc' := hc.compact hlen
  obtain ⟨dirOf, openIdx, heq, -, -⟩ := compact_eq hc
  have hpos : ∀ {j : ℕ} {lr : LiveRef}, c.liveRefs[j]? = some lr →
      c.colPos (j / c.capacity.toNat) (j % c.capacity.toNat) = lr.oldPos := by
    intro j lr hj
    rw [← UInt32.toNat_inj, newPos_toNat hlen (List.getElem?_eq_some_iff.mp hj).1, hd j lr hj]
  rw [hc'.mem_placed, hc.mem_placed_iff_liveRef, heq]
  constructor
  · rintro ⟨k, slot, s, hl, rfl⟩
    obtain ⟨j, lr, hj, rfl, rfl⟩ := compact_live hc hl.seg hl.filled
    obtain ⟨t, ht, -, -, hdata⟩ := (repacked_packed hc).rows j lr hj
    cases ht.symm.trans hl.seg
    have hlr := mem_of_getElem? hj
    refine ⟨lr, hlr, Prod.ext (hpos hj) ?_⟩
    rw [hdata, hcodec lr hlr]
  · rintro ⟨lr, hlr, rfl⟩
    obtain ⟨j, hj⟩ := mem_iff_getElem?.mp hlr
    obtain ⟨t, ht, hslot, -, htomb, -⟩ := compact_slot hc hj
    obtain ⟨t', ht', -, -, hdata⟩ := (repacked_packed hc).rows j lr hj
    cases ht.symm.trans ht'
    refine ⟨_, _, t, ⟨ht, hslot, htomb _⟩, Prod.ext (hpos hj).symm ?_⟩
    rw [hdata, hcodec lr hlr]

end Compaction

end Collection

/-- A call that takes no point from its place. -/
def Write.Adds (c : Collection) : Write → Prop
  | .insert _ _ _ _ | .updateMeta _ _ => True
  | .upsert _ id _ _ | .delete id => c.idmap.fwd id = none

/-- A call that is refused for the point it is about. -/
def Write.Refused (c : Collection) : Write → Prop
  | .insert _ id _ _ => c.idmap.fwd id ≠ none
  | .delete id => c.idmap.fwd id = none
  | .upsert _ _ _ _ | .updateMeta _ _ => False

section Run

variable {c : Collection} {w : Write} {order : RangeOrder} {id : PointID} {vec : Vec} {row : MetaRow}
  {x : UInt32 × Vec}

theorem Draft.appendPoint_placed (hc : c.WF) (hx : x ∈ c.placed) :
    x ∈ (appendPoint { coll := c } order id vec row).1.coll.placed := by
  by_cases ha : Accepts c id vec row
  · obtain ⟨d', pos, _, _, heq', -, -, hwf, -⟩ :=
      @appendPoint_accepted { coll := c } order id vec row hc ha
    obtain ⟨di, s, m, -, -, -, heq⟩ := @appendPoint_eq { coll := c } order id vec row hc ha
    cases heq'.symm.trans heq
    rw [heq]
    exact hc.ensureOpen.placed_insertAt hwf ((hc.near_ensureOpen.mem_placed hc.ensureOpen hc).mpr hx)
  · obtain ⟨d', e, heq, hsame, hwf⟩ := @appendPoint_rejected { coll := c } order id vec row hc ha
    rw [heq]
    exact (hsame.near.mem_placed hwf hc).mpr hx

theorem Write.run_placed (hc : c.WF) (hw : w.Adds c) (hx : x ∈ c.placed) :
    x ∈ (w.run { coll := c }).1.coll.placed := by
  cases w with
  | insert order id vec row => exact appendPoint_placed hc hx
  | delete id =>
    rw [run, @delete_missing { coll := c } _ hw]
    exact hx
  | upsert order id vec row =>
    rcases @run_upsert { coll := c } id hc order vec row with ⟨-, heq⟩ | ⟨loc, di, hl, -⟩
    · rw [heq]
      exact appendPoint_placed hc hx
    · cases (show c.idmap.fwd id = none from hw).symm.trans hl
  | updateMeta id row =>
    rcases @run_updateMeta { coll := c } id hc row with ⟨-, heq⟩ | ⟨loc, log, -, -, -, -, -, -, hcoll⟩
    · rwa [heq]
    · rwa [hcoll]

theorem Write.run_refused (hw : w.Refused c) : (w.run { coll := c }).1.coll = c := by
  cases w with
  | insert order id vec row =>
    obtain ⟨loc, hl⟩ := Option.ne_none_iff_exists'.mp hw
    rw [run, appendPoint, @forwardLookup_some { coll := c } _ _ hl]
    split <;> rfl
  | delete id => rw [run, @delete_missing { coll := c } _ hw]
  | upsert | updateMeta => exact hw.elim

end Run

end VecDb.Storage

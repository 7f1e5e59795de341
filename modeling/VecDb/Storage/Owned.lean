import Mathlib.Data.UInt
import VecDb.Storage.History

/-! # Who owns a slot

Without aborts every live slot belongs to the point that the id map finds in it. Looking up a
point and looking up its position are then inverse as long as no live slot has a number past 32
bits.
-/

namespace VecDb.Storage

open List Function Nat Segment Bool Collection

namespace Collection

structure Live (c : Collection) (di slot : ℕ) (s : Segment) : Prop where
  seg : c.segs[di]? = some s
  filled : slot < s.nextPos
  live : s.tomb slot = false

def Owned (c : Collection) : Prop :=
  ∀ di slot s, c.Live di slot s → c.idmap.fwd (s.backward slot) = some ⟨s.seqNum, slot⟩

def InGrid (c : Collection) : Prop :=
  ∀ di slot s, c.Live di slot s → di * c.capacity.toNat + slot < 2 ^ 32

variable {a b c : Collection} {di slot : ℕ} {s : Segment} {id : PointID} {loc : IdLoc}
  {m : MetadataStore} {lr : LiveRef}

theorem Live.number_div (hc : c.WF) (hl : c.Live di slot s) :
    (di * c.capacity.toNat + slot) / c.capacity.toNat = di ∧
      (di * c.capacity.toNat + slot) % c.capacity.toNat = slot := by
  have hlt := hc.slot_lt hl.seg hl.filled
  rw [mul_comm, mul_add_div c.capacity_toNat_pos, div_eq_of_lt hlt, mul_add_mod, mod_eq_of_lt hlt]
  exact ⟨rfl, rfl⟩

theorem Live.number_inj (hc : c.WF) {di' slot' : ℕ} {s' : Segment} (hl : c.Live di slot s)
    (hl' : c.Live di' slot' s')
    (h : di * c.capacity.toNat + slot = di' * c.capacity.toNat + slot') :
    di = di' ∧ slot = slot' := by
  refine ⟨?_, ?_⟩
  · rw [← (hl.number_div hc).1, h, (hl'.number_div hc).1]
  · rw [← (hl.number_div hc).2, h, (hl'.number_div hc).2]

theorem Near.owned (h : a.Near b) (hfwd : a.idmap.fwd = b.idmap.fwd) (hb : b.Owned) : a.Owned := by
  intro di slot s hl
  rcases h.segs.get_cases hl.seg with ⟨t, ht, hn⟩ | ⟨-, hblank⟩
  · have hslot : slot < t.nextPos := hn.nextPos ▸ hl.filled
    rw [hfwd, hn.seqNum, (hn.rows slot hslot).2.2]
    exact hb di slot t ⟨ht, hslot, hn.tomb ▸ hl.live⟩
  · have := hl.filled
    have := hblank.nextPos
    omega

theorem Live.modify_cases {f : Segment → Segment} (h : a.Live di slot s) {k : ℕ}
    (ha : a.segs = c.segs.modify k f) :
    (∃ t, di = k ∧ c.segs[k]? = some t ∧ s = f t ∧ slot < (f t).nextPos ∧
      (f t).tomb slot = false) ∨ di ≠ k ∧ c.Live di slot s := by
  have hs := h.seg
  rw [ha] at hs
  obtain ⟨t, ht, rfl⟩ := getElem?_modify_cases hs
  have hfilled := h.filled
  have hlive := h.live
  split at hfilled <;> rename_i hk
  · rw [if_pos hk] at hlive ⊢
    exact .inl ⟨t, hk, hk ▸ ht, rfl, hfilled, hlive⟩
  · rw [if_neg hk] at hlive ⊢
    exact .inr ⟨hk, ht, hfilled, hlive⟩

theorem Owned.insertAt (h : c.Owned) (hs : c.segs[di]? = some s) (hnew : c.idmap.fwd id = none)
    (vec : Vec) (m : MetadataStore) : (c.insertAt di s id vec m).Owned := by
  have hother : ∀ {k slot : ℕ} {t : Segment}, c.Live k slot t →
      (c.insertAt di s id vec m).idmap.fwd (t.backward slot) = some ⟨t.seqNum, slot⟩ := by
    intro k slot t hl
    have ht := h k slot t hl
    refine (update_of_ne ?_ _ _).trans ht
    intro heq
    rw [heq, hnew] at ht
    cases ht
  intro k slot t hl
  rcases hl.modify_cases rfl with ⟨u, rfl, hu, rfl, hfilled, hlive⟩ | ⟨-, hl⟩
  · cases hs.symm.trans hu
    by_cases hslot : slot = s.nextPos
    · subst hslot
      simp [insertAt, Segment.append]
    · have hlt : slot < s.nextPos := by
        dsimp only [Segment.append] at hfilled
        omega
      have := hother ⟨hs, hlt, hlive⟩
      simpa only [Segment.append, update_of_ne hslot] using this
  · exact hother hl

theorem Owned.dropAt (hc : c.WF) (h : c.Owned) (hl : c.idmap.fwd id = some loc)
    (hd : c.dirOf loc.segSeq = some di) : (c.dropAt di id loc.slotPos).Owned := by
  obtain ⟨k, s, hk, hs, hslot, htomb, -⟩ := hc.located id loc hl
  cases hd.symm.trans hk
  have hdrop := tombstone_eq (hc.segs s (mem_of_getElem? hs)) hslot htomb
  -- a live slot of the rest was live before and is not the one of the point
  have hother : ∀ {k slot : ℕ} {t : Segment}, c.Live k slot t → (k = di → slot ≠ loc.slotPos) →
      (c.dropAt di id loc.slotPos).idmap.fwd (t.backward slot) = some ⟨t.seqNum, slot⟩ := by
    intro k slot t hlive hne
    have ht := h k slot t hlive
    refine (update_of_ne ?_ _ _).trans ht
    intro heq
    rw [heq, hl] at ht
    obtain rfl := Option.some.inj ht
    exact hne (Option.some.inj ((hc.seqs k t hlive.seg).symm.trans hd)) rfl
  intro k slot t hl'
  rcases hl'.modify_cases rfl with ⟨u, rfl, hu, rfl, hfilled, hlive⟩ | ⟨hk, hl'⟩
  · cases hs.symm.trans hu
    rw [hdrop] at hfilled hlive ⊢
    dsimp only at hfilled hlive ⊢
    have hne : slot ≠ loc.slotPos := by
      rintro rfl
      rw [update_self] at hlive
      cases hlive
    rw [update_of_ne hne] at hlive
    exact hother ⟨hs, hfilled, hlive⟩ fun _ => hne
  · exact hother hl' fun h => absurd h hk

theorem Owned.stampSlot (h : c.Owned) (seq : ℕ) (slot : ℕ × ℕ) : (c.stampSlot seq slot).Owned := by
  intro k p t hl
  rcases hl.modify_cases rfl with ⟨u, rfl, hu, rfl, hfilled, hlive⟩ | ⟨-, hl⟩
  · exact h _ p u ⟨hu, hfilled, hlive⟩
  · exact h k p t hl

theorem Owned.stampAll (h : c.Owned) (seq : ℕ) (slots : List (ℕ × ℕ)) :
    (c.stampAll seq slots).Owned := by
  induction slots generalizing c with
  | nil => exact h
  | cons slot slots ih => exact ih (h.stampSlot seq slot)

theorem Owned.liveRef (hc : c.WF) (h : c.Owned) (hlr : lr ∈ c.liveRefs) :
    c.idmap.fwd lr.id = some lr.loc := by
  obtain ⟨di, s, slot, hs, hslot, hlive, rfl⟩ := mem_liveRefs.mp hlr
  rw [isTombstoned_eq (hc.segs s (mem_of_getElem? hs)) hslot] at hlive
  exact h di slot s ⟨hs, hslot, hlive⟩

theorem Owned.liveRefs_inj (hc : c.WF) (h : c.Owned) {i j : ℕ} {x y : LiveRef}
    (hx : c.liveRefs[i]? = some x) (hy : c.liveRefs[j]? = some y) (hid : x.id = y.id) : i = j := by
  have hloc : x.loc = y.loc := by
    have := h.liveRef hc (mem_of_getElem? hx)
    rw [hid, h.liveRef hc (mem_of_getElem? hy)] at this
    exact (Option.some.inj this).symm
  obtain ⟨hi, rfl⟩ := List.getElem?_eq_some_iff.mp hx
  obtain ⟨hj, rfl⟩ := List.getElem?_eq_some_iff.mp hy
  have hsorted := pairwise_iff_getElem.mp hc.liveRefs_pairwise
  rcases lt_trichotomy i j with hlt | rfl | hlt
  · have := hsorted i j hi hj hlt
    rw [hloc] at this
    exact absurd this (lt_irrefl _)
  · rfl
  · have := hsorted j i hj hi hlt
    rw [hloc] at this
    exact absurd this (lt_irrefl _)

theorem Owned.compact_fwd (hc : c.WF) (h : c.Owned) (hlen : c.liveRefs.length ≤ 2 ^ 32) {j : ℕ}
    (hj : c.liveRefs[j]? = some lr) :
    (c.idmap.applyRepoint c.packed.repoint c.packedLoc).fwd lr.id =
      some ⟨c.nextSeq + j / c.capacity.toNat, j % c.capacity.toNat⟩ := by
  have hsome := c.idmap.applyRepoint_isSome c.packed.repoint c.packedLoc lr.id
  rw [h.liveRef hc (mem_of_getElem? hj)] at hsome
  obtain ⟨loc, hloc⟩ := Option.isSome_iff_exists.mp hsome
  rw [hloc]
  rcases (IdMap.applyRepoint_fwd hloc).2 with ⟨r, hr, hid, rfl⟩ | hnone
  · obtain ⟨i, lr', hi, rfl⟩ := (mem_repoint hc).mp hr
    obtain rfl := h.liveRefs_inj hc hi hj hid
    rw [packedLoc_eq hc hlen (List.getElem?_eq_some_iff.mp hi).1]
  · exact absurd rfl (hnone _ ((mem_repoint hc).mpr ⟨j, lr, hj, rfl⟩))

theorem compact_live (hw : c.WF) {k slot : ℕ} {s : Segment}
    (hs : c.packed.segs[k]? = some s) (hslot : slot < s.nextPos) :
    ∃ j lr, c.liveRefs[j]? = some lr ∧ j / c.capacity.toNat = k ∧ j % c.capacity.toNat = slot := by
  have hpos := c.capacity_toNat_pos
  obtain ⟨-, -, -, hnext, -⟩ := (repacked_packed hw).segs k s hs
  have hlt : k * c.capacity.toNat + slot < c.liveRefs.length := by omega
  refine ⟨k * c.capacity.toNat + slot, _, getElem?_eq_getElem hlt, ?_, ?_⟩
  · rw [mul_comm, mul_add_div hpos, div_eq_of_lt (by omega), add_zero]
  · rw [mul_comm, mul_add_mod, mod_eq_of_lt (by omega)]

theorem Owned.compact (hc : c.WF) (h : c.Owned) (hlen : c.liveRefs.length ≤ 2 ^ 32) :
    c.compact.Owned := by
  obtain ⟨dirOf, openIdx, heq, -, -⟩ := compact_eq hc
  rw [heq]
  intro k slot s hl
  obtain ⟨j, lr, hj, rfl, rfl⟩ := compact_live hc hl.seg hl.filled
  obtain ⟨t, ht, -, hseq, -, hback⟩ := compact_slot hc hj
  cases ht.symm.trans hl.seg
  rw [hback, hseq]
  exact h.compact_fwd hc hlen hj

end Collection

namespace Draft

variable {d : Draft}

theorem appendPoint_owned (hc : d.coll.WF) (h : d.coll.Owned) (order : RangeOrder) (id : PointID)
    (vec : Vec) (row : MetaRow) : (d.appendPoint order id vec row).1.coll.Owned := by
  by_cases ha : Accepts d.coll id vec row
  · obtain ⟨di, s, m, hs, -, -, heq⟩ := @appendPoint_eq d order id vec row hc ha
    have hidmap := (ensureOpen_keeps d.coll).2.1
    rw [heq]
    refine Owned.insertAt (hc.near_ensureOpen.owned ?_ h) hs ?_ vec m
    · rw [hidmap]
    · rw [hidmap, ha.new]
  · obtain ⟨d', e, heq, hsame, -⟩ := @appendPoint_rejected d order id vec row hc ha
    rw [heq]
    exact hsame.near.owned (by rw [hsame.idmap]) h

end Draft

theorem Write.run_owned {d : Draft} (hc : d.coll.WF) (h : d.coll.Owned) (w : Write) :
    (w.run d).1.coll.Owned := by
  cases w with
  | insert order id vec row => exact Draft.appendPoint_owned hc h order id vec row
  | delete id =>
    rcases @run_delete d id hc with ⟨-, heq⟩ | ⟨loc, di, hl, hd, heq⟩ <;> rw [heq]
    · exact h
    · exact h.dropAt hc hl hd
  | upsert order id vec row =>
    rcases @run_upsert d id hc order vec row with ⟨-, heq⟩ | ⟨loc, di, hl, hd, heq⟩ <;> rw [heq]
    · exact Draft.appendPoint_owned hc h order id vec row
    · exact Draft.appendPoint_owned (hc.dropAt hl hd) (h.dropAt hc hl hd) order id vec row
  | updateMeta id row =>
    rcases @run_updateMeta d id hc row with ⟨-, heq⟩ | ⟨loc, log, -, -, -, -, -, -, hcoll⟩
    · rwa [heq]
    · rw [hcoll]
      exact fun di slot s hs => h di slot s ⟨hs.seg, hs.filled, hs.live⟩

namespace Collection

variable {c : Collection} {id : PointID} {p : UInt32} {snap : Option Mvcc.Snapshot}

section

variable (hc : c.WF)
include hc

theorem Live.locate (hl : c.Live di slot s)
    (hp : p.toNat = di * c.capacity.toNat + slot) : c.locate p = some (di, slot) := by
  rw [Collection.locate, hp, (hl.number_div hc).1, (hl.number_div hc).2,
    if_neg (Nat.not_le.mpr (List.getElem?_eq_some_iff.mp hl.seg).1)]

theorem Live.isTombstoned (hl : c.Live di slot s) : s.isTombstoned slot = false := by
  rw [isTombstoned_eq (hc.segs s (mem_of_getElem? hl.seg)) hl.filled, hl.live]

theorem lookupPos_eq_ok : c.lookupPos p = .ok id ↔ ∃ di slot s, c.Live di slot s ∧
    p.toNat = di * c.capacity.toNat + slot ∧ s.backward slot = id := by
  constructor
  · intro h
    unfold lookupPos locate at h
    rcases lt_or_ge (p.toNat / c.capacity.toNat) c.segs.length with hlt | hge
    · have hs := getElem?_eq_getElem hlt
      rw [if_neg (Nat.not_le.mpr hlt)] at h
      dsimp only at h
      rw [seg_eq hs] at h
      split at h
      · cases h
      · rename_i hslot
        have hslot := Nat.not_le.mp hslot
        split at h
        · cases h
        · rename_i hlive
          rw [isTombstoned_eq (hc.segs _ (mem_of_getElem? hs)) hslot, not_eq_true] at hlive
          rw [Segment.backwardMapLookup, if_neg (Nat.not_le.mpr hslot)] at h
          exact ⟨_, _, _, ⟨hs, hslot, hlive⟩, (div_add_mod' ..).symm, Except.ok.inj h⟩
    · rw [if_pos hge] at h
      cases h
  · rintro ⟨di, slot, s, hl, hp, rfl⟩
    unfold lookupPos
    rw [hl.locate hc hp]
    dsimp only
    rw [seg_eq hl.seg, if_neg (Nat.not_le.mpr hl.filled), hl.isTombstoned hc,
      Segment.backwardMapLookup, if_neg (Nat.not_le.mpr hl.filled)]
    rfl

theorem Live.fetchVector (hl : c.Live di slot s)
    (hp : p.toNat = di * c.capacity.toNat + slot) {bufLen : ℕ}
    (hbuf : UInt32.ofNat bufLen = c.dims) :
    c.fetchVector p bufLen = .ok (c.codec.decode (s.data slot)) := by
  unfold Collection.fetchVector
  rw [hl.locate hc hp]
  dsimp only
  rw [seg_eq hl.seg, hl.isTombstoned hc, if_neg Bool.false_ne_true, if_neg (not_not.mpr hbuf),
    Segment.fetchVector, if_neg (Nat.not_le.mpr hl.filled)]

theorem Live.fetch (hl : c.Live di slot s)
    (hp : p.toNat = di * c.capacity.toNat + slot) (proj : Option (List ColID))
    (hvis : visibleIn snap (s.version slot) = true) :
    c.fetch p proj snap = .ok ⟨p, s.backward slot, c.codec.decode (s.data slot),
      c.projectMeta s.seqNum slot proj⟩ := by
  unfold Collection.fetch
  rw [hl.locate hc hp]
  dsimp only
  rw [seg_eq hl.seg, if_neg (Nat.not_le.mpr hl.filled), hl.isTombstoned hc,
    if_neg Bool.false_ne_true, hvis, Bool.not_true, if_neg Bool.false_ne_true]

theorem Live.visible_of_fetch (hl : c.Live di slot s)
    (hp : p.toNat = di * c.capacity.toNat + slot) {proj : Option (List ColID)}
    {record : PointRecord} (h : c.fetch p proj snap = .ok record) :
    visibleIn snap (s.version slot) = true := by
  by_contra hvis
  unfold Collection.fetch at h
  rw [hl.locate hc hp] at h
  dsimp only at h
  rw [seg_eq hl.seg, if_neg (Nat.not_le.mpr hl.filled), hl.isTombstoned hc,
    if_neg Bool.false_ne_true, Bool.eq_false_iff.mpr hvis, Bool.not_false, if_pos rfl] at h
  cases h

theorem Owned.lookupID_eq_ok (h : c.Owned) : c.lookupID id = .ok p ↔
    ∃ di slot s, c.Live di slot s ∧ p = c.colPos di slot ∧ s.backward slot = id := by
  constructor
  · intro hp
    unfold lookupID IdMap.forwardLookup at hp
    rcases hl : c.idmap.fwd id with _ | loc <;> rw [hl] at hp
    · cases hp
    · obtain ⟨di, s, hd, hs, hslot, hlive, hback⟩ := hc.located id loc hl
      dsimp only at hp
      rw [hd] at hp
      exact ⟨di, loc.slotPos, s, ⟨hs, hslot, hlive⟩, (Except.ok.inj hp).symm, hback⟩
  · rintro ⟨di, slot, s, hlive, rfl, rfl⟩
    unfold lookupID IdMap.forwardLookup
    rw [h di slot s hlive]
    dsimp only
    rw [hc.seqs di s hlive.seg]

theorem Owned.unique (h : c.Owned) {di di' slot slot' : ℕ} {s s' : Segment}
    (hl : c.Live di slot s) (hl' : c.Live di' slot' s')
    (hid : s.backward slot = s'.backward slot') : di = di' ∧ slot = slot' := by
  have hloc := h di slot s hl
  rw [hid, h di' slot' s' hl'] at hloc
  obtain ⟨hseq, rfl⟩ := IdLoc.mk.inj (Option.some.inj hloc)
  refine ⟨?_, rfl⟩
  have := hc.seqs di s hl.seg
  rw [← hseq, hc.seqs di' s' hl'.seg] at this
  exact (Option.some.inj this).symm

theorem Owned.lookups_iff (h : c.Owned) :
    (∀ id p, c.lookupID id = .ok p ↔ c.lookupPos p = .ok id) ↔ c.InGrid := by
  simp only [h.lookupID_eq_ok hc, lookupPos_eq_ok hc]
  constructor
  · intro hiff di slot s hl
    obtain ⟨di', slot', s', hl', hp, hid⟩ := (hiff _ _).mp ⟨di, slot, s, hl, rfl, rfl⟩
    obtain ⟨rfl, rfl⟩ := h.unique hc hl' hl hid
    rw [← hp]
    exact UInt32.toNat_lt _
  · intro hgrid id p
    refine exists_congr fun di => exists_congr fun slot => exists_congr fun s => ?_
    refine and_congr_right fun hl => and_congr_left fun _ => ?_
    rw [← UInt32.toNat_inj, c.colPos_toNat (hgrid di slot s hl)]

end

def LiveAt (c : Collection) (p : UInt32) : Prop :=
  ∃ di slot s, c.Live di slot s ∧ p.toNat = di * c.capacity.toNat + slot

def slots (c : Collection) : List (Segment × ℕ) :=
  c.segs.flatMap fun s => (List.range s.nextPos).map fun slot => (s, slot)

theorem count_eq_countP (f : ℕ → Bool) (n : ℕ) :
    Nat.count (fun slot => f slot = true) n = (List.range n).countP f := by
  induction n with
  | zero => rfl
  | succ n ih =>
    rw [count_succ, ih, range_succ, countP_append, countP_singleton]

theorem WF.liveTotal_eq (hc : c.WF) : c.liveTotal = (c.slots.countP fun x => !x.1.isTombstoned x.2,
      c.slots.countP fun x => x.1.isTombstoned x.2) := by
  have hseg : ∀ s ∈ c.segs,
      s.liveCount = (List.range s.nextPos).countP (fun slot => !s.isTombstoned slot) ∧
        s.deadCount = (List.range s.nextPos).countP fun slot => s.isTombstoned slot := by
    intro s hs
    have hwf := hc.segs s hs
    have hdead : s.deadCount = (List.range s.nextPos).countP fun slot => s.isTombstoned slot := by
      rw [hwf.dead, count_eq_countP]
      refine countP_congr fun slot hslot => ?_
      rw [isTombstoned_eq hwf (mem_range.mp hslot)]
    refine ⟨?_, hdead⟩
    have htotal := hwf.total
    have hlen := @List.length_eq_countP_add_countP _ (fun slot => s.isTombstoned slot)
      (List.range s.nextPos)
    simp only [length_range, not_eq_true, decide_eq_false] at hlen
    omega
  unfold liveTotal slots
  rw [countP_flatMap, countP_flatMap]
  congr 2
  · refine map_congr_left fun s hs => ?_
    rw [(hseg s hs).1, comp_apply, countP_map]
    rfl
  · refine map_congr_left fun s hs => ?_
    rw [(hseg s hs).2, comp_apply, countP_map]
    rfl

end Collection

namespace Sys

variable {s s' : Sys}

def Owned (s : Sys) : Prop := ∀ k c, s.engine.colls k = some c → c.Owned

theorem owned_modify {k : UInt64} {f : Collection → Collection} (h : s.Owned)
    (hf : ∀ c, s.engine.colls k = some c → c.Owned → (f c).Owned) (k' : UInt64) (c : Collection)
    (hc : (s.engine.modifyColl k f).colls k' = some c) : c.Owned := by
  dsimp only [Engine.modifyColl] at hc
  rw [update_apply] at hc
  split at hc
  · obtain ⟨c₀, hc₀, rfl⟩ := Option.map_eq_some_iff.mp hc
    exact hf c₀ hc₀ (h k c₀ hc₀)
  · exact h k' c hc

theorem Owned.step (hi : s.Inv) (h : s.Owned) {ev : Event} (hn : s.Numbered ev)
    (hev : ev ≠ .abort) (hs : s.step ev = .ok s') : s'.Owned := by
  cases takes_of_step hs with
  | @created d e hd =>
    intro k c hc
    unfold Engine.createCollection at hd
    split at hd
    · cases hd
    · rcases hk : s.engine.colls d.id with _ | c' <;> rw [hk] at hd <;> cases hd
      dsimp only at hc
      rw [update_apply] at hc
      split at hc
      · cases hc
        exact fun _ _ _ hl => nomatch hl.seg
      · exact h k c hc
  | refused | begin => exact h
  | @call t k w ht =>
    intro k' c hc
    rcases hk : s.engine.colls k with _ | c₀
    · rw [Engine.call_none hk] at hc
      exact h k' c hc
    · dsimp only at hc
      rw [(Engine.call_some hk).1, update_apply] at hc
      split at hc
      · cases hc
        exact Write.run_owned (hi.wf hk) (h k c₀ hk) w
      · exact h k' c hc
  | drawSeq => exact h
  | publish =>
    intro k c hc
    rw [Engine.publish_colls] at hc
    obtain ⟨c₀, hc₀, rfl⟩ := Option.map_eq_some_iff.mp hc
    exact (h k c₀ hc₀).stampAll _ _
  | abort => exact absurd rfl hev
  | sealSegment =>
    refine owned_modify h fun c hc ho => ?_
    refine (Collection.near_sealOpen (hi.wf hc).toFramed).owned ?_ ho
    rw [Collection.sealOpen_idmap]
  | compact => exact owned_modify h fun c hc ho => ho.compact (hi.wf hc) (hn c hc)

theorem owned_of_run {events : List Event} (hcommit : ∀ ev ∈ events, ev ≠ .abort)
    (hn : Along Sys.step Numbered {} events) (hs : exec Sys.step {} events = .ok s) :
    s.Inv ∧ s.Owned := by
  have hnew : Inv {} ∧ Owned {} := by
    refine ⟨inv_idle fun _ _ hc => ?_, fun _ _ hc => ?_⟩ <;> cases hc
  have halong := hn.and (Along.of_forall fun ev hev _ => hcommit ev hev)
  refine halong.visited (I := fun s => s.Inv ∧ s.Owned) (fun _ _ _ hi hP hstep => ?_) hnew s
    (mem_visited hs)
  exact ⟨hi.1.step hP.1 hstep, hi.2.step hi.1 hP.1 hP.2 hstep⟩

/-- Without aborts, the lookups by point and by position are inverse just if positions have room
for the live slots. A point has at most one live slot, and the counters are right in any case. -/
theorem lookups_inverse_iff {events : List Event} (hcommit : ∀ ev ∈ events, ev ≠ .abort)
    (hn : Along Sys.step Numbered {} events) (hs : exec Sys.step {} events = .ok s) {k : UInt64}
    {c : Collection} (hc : s.engine.colls k = some c) :
    ((∀ id p, s.engine.lookupID k id = .ok p ↔ c.LiveAt p ∧ s.engine.lookupPos k p = .ok id) ↔
        c.InGrid) ∧
      (∀ di di' slot slot' s s', c.Live di slot s → c.Live di' slot' s' →
        s.backward slot = s'.backward slot' → di = di' ∧ slot = slot') ∧
      s.engine.collectionStats k = .ok (c.slots.countP fun x => !x.1.isTombstoned x.2,
        c.slots.countP fun x => x.1.isTombstoned x.2) := by
  obtain ⟨hi, ho⟩ := owned_of_run hcommit hn hs
  have hwf := hi.wf hc
  have howned := ho k c hc
  have hlive : ∀ id p, c.lookupPos p = .ok id → c.LiveAt p := by
    intro id p hp
    obtain ⟨di, slot, s, hl, hp, -⟩ := (Collection.lookupPos_eq_ok hwf).mp hp
    exact ⟨di, slot, s, hl, hp⟩
  simp only [Engine.lookupID, Engine.lookupPos, Engine.collectionStats, hc]
  refine ⟨?_, fun _ _ _ _ _ _ hl hl' => howned.unique hwf hl hl', congrArg _ hwf.liveTotal_eq⟩
  rw [← howned.lookups_iff hwf]
  refine forall_congr' fun id => forall_congr' fun p => iff_congr Iff.rfl ?_
  exact and_iff_right_of_imp (hlive id p)

theorem spread_live {di slot : ℕ} {s : Segment}
    (hl : Collection.Live (((after spread).engine.colls 1).get rfl) di slot s) :
    (di = 0 ∨ di = 1) ∧ slot = 0 := by
  have hdi : di < 2 := (List.getElem?_eq_some_iff.mp hl.seg).1
  obtain rfl | rfl : di = 0 ∨ di = 1 := by omega
  · refine ⟨.inl rfl, ?_⟩
    obtain ⟨hs, hslot, hlive⟩ := hl
    cases hs
    have hslot : slot < 2 := hslot
    obtain rfl | rfl : slot = 0 ∨ slot = 1 := by omega
    · rfl
    · cases hlive
  · refine ⟨.inr rfl, ?_⟩
    obtain ⟨hs, hslot, -⟩ := hl
    cases hs
    have hslot : slot < 1 := hslot
    omega

theorem lookups_inverse_spread : ∃ c, (after spread).engine.colls 1 = some c ∧ c.InGrid ∧
    ∀ id p, (after spread).engine.lookupID 1 id = .ok p ↔
      c.LiveAt p ∧ (after spread).engine.lookupPos 1 p = .ok id := by
  refine ⟨_, rfl, ?_⟩
  have hgrid : Collection.InGrid (((after spread).engine.colls 1).get rfl) := by
    intro di slot s hl
    obtain ⟨rfl | rfl, rfl⟩ := spread_live hl <;> decide
  refine ⟨hgrid, ?_⟩
  exact (@lookups_inverse_iff (after spread) spread (by simp [spread]) (by decide) rfl 1 _
    rfl).1.mpr hgrid

def threeSegments : List Event :=
  [.create { plainDef with segmentCapacity := 2 ^ 31 }, .begin,
    .call 1 (.insert .id 5 [0] ⟨[], List.nodup_nil⟩), .drawSeq, .publish, .sealSegment 1, .begin,
    .call 1 (.insert .id 6 [0] ⟨[], List.nodup_nil⟩), .drawSeq, .publish, .sealSegment 1, .begin,
    .call 1 (.insert .id 7 [0] ⟨[], List.nodup_nil⟩), .drawSeq, .publish]

/-- The position of the third point is that of the first one. -/
theorem lookups_wrap : (∀ ev ∈ threeSegments, ev ≠ .abort) ∧
    Along Sys.step Numbered {} threeSegments ∧
    exec Sys.step {} threeSegments = .ok (after threeSegments) ∧
    (after threeSegments).engine.lookupID 1 7 = .ok 0 ∧
    (after threeSegments).engine.lookupPos 1 0 = .ok 5 :=
  ⟨by simp [threeSegments], by decide, rfl, by decide, by decide⟩

end Sys

end VecDb.Storage

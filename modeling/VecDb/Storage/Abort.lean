import VecDb.Storage.History
import VecDb.Storage.Observe

/-! # Aborting a transaction

Undoing the log of a transaction brings every reading back, but for three things: a point that an
upsert replaced is lost, a deleted point that was inserted anew is not deleted again, and a bitmap
grows with the directory. The counters of the zone maps must not wrap either.
-/

namespace VecDb.Storage

open Mvcc Function Collection

/-- The call replaces a point in the slot that it had in the first collection. -/
def Write.Overwrites (c₀ c : Collection) : Write → Prop
  | .upsert _ id _ _ => c₀.idmap.fwd id ≠ none ∧ c.idmap.fwd id = c₀.idmap.fwd id
  | _ => False

/-- The call brings back a point that was deleted in the first collection. -/
def Write.Recalls (c₀ c : Collection) (w : Write) : Prop :=
  c₀.idmap.dead w.id = true ∧ w.Brings c

namespace Collection

variable {c₀ c c' : Collection} {log log' : List Undo} {w : Write} {p : UInt32}
  {pred : Predicate} {snap : Option Snapshot}

/-- Undoing the log puts every point back. -/
def Intact (c₀ c : Collection) (log : List Undo) : Prop :=
  ∀ id, undoFwd log c.idmap.fwd id = c₀.idmap.fwd id

/-- Undoing the log takes no point off the list of deleted ones. -/
def Unburied (c₀ : Collection) (log : List Undo) : Prop :=
  ∀ u ∈ log, ∀ id, u.about = some id → c₀.idmap.dead id = false

theorem replaces_of_overwrites (h : w.Overwrites c₀ c) : w.Replaces c := by
  cases w with
  | upsert order id vec row => exact fun hnone => h.1 (h.2 ▸ hnone)
  | insert | delete | updateMeta => exact h

theorem Opened.overwrites_iff (h : Opened c₀ c log) (hr : w.Replaces c) :
    w.Overwrites c₀ c ↔ ∀ u ∈ log, u.about ≠ some w.id := by
  cases w with
  | insert | delete | updateMeta => exact hr.elim
  | upsert order id vec row =>
    constructor
    · rintro ⟨hlive, hsame⟩
      rcases h.placed id with ⟨-, hlog⟩ | hnone | ⟨loc, hloc, hfresh⟩
      · exact hlog
      · exact absurd hnone hr
      · exact absurd (h.base.located id loc (hsame ▸ hloc)) hfresh.not_lives
    · intro hlog
      rcases hloc : c.idmap.fwd id with _ | loc
      · exact absurd hloc hr
      · have hbase := h.undone id loc ((undoFwd_other hlog).trans hloc)
        rw [Write.Overwrites, hbase]
        exact ⟨fun h => (nomatch h), hloc⟩

theorem Opened.intact_effect (h : Opened c₀ c log) (he : w.Effect c c' log') :
    Intact c₀ c' (log' ++ log) ↔ Intact c₀ c log ∧ ¬ w.Overwrites c₀ c := by
  by_cases hover : w.Overwrites c₀ c
  · -- the log is not about the point, so nothing brings it back
    have hr := replaces_of_overwrites hover
    have hlog := (h.overwrites_iff hr).mp hover
    refine iff_of_false (fun hall => ?_) fun hall => hall.2 hover
    have hlost := hall w.id
    rw [undoFwd_append, undoFwd_other hlog, he.lost hr] at hlost
    cases w with
    | upsert order id vec row => exact hover.1 hlost.symm
    | insert | delete | updateMeta => exact hr
  · have hsame : ∀ id, undoFwd (log' ++ log) c'.idmap.fwd id = undoFwd log c.idmap.fwd id := by
      intro id
      rcases @undoFwd_effect _ _ log _ _ he id with heq | ⟨rfl, hr, hlog, -⟩
      · exact heq
      · exact absurd ((h.overwrites_iff hr).mpr hlog) hover
    simp only [Intact, hsame, hover, not_false_eq_true, and_true]

theorem Opened.unburied_effect (h : Opened c₀ c log) (he : w.Effect c c' log') :
    Unburied c₀ (log' ++ log) ↔ Unburied c₀ log ∧ ¬ w.Recalls c₀ c := by
  constructor
  · intro hall
    refine ⟨fun u hu => hall u (List.mem_append_right _ hu), fun ⟨hdead, hb⟩ => ?_⟩
    obtain ⟨u, hu, habout⟩ := he.brings hb
    exact Bool.true_eq_false_eq_False (hdead.symm.trans (hall u (List.mem_append_left _ hu) _ habout))
  · rintro ⟨hall, hrecalls⟩ u hu id habout
    rcases List.mem_append.mp hu with hu | hu
    · obtain rfl := he.about u hu id habout
      rcases he.entered u hu habout with hl | hb
      · -- a live point was live before, unless the log is about it already
        by_cases hlog : ∀ u ∈ log, u.about ≠ some w.id
        · obtain ⟨loc, hloc⟩ := Option.ne_none_iff_exists'.mp (h.was_live hl hlog)
          exact h.base.alive _ loc hloc
        · push Not at hlog
          obtain ⟨v, hv, habout'⟩ := hlog
          exact hall v hv _ habout'
      · exact Bool.eq_false_iff.mpr fun hdead => hrecalls ⟨hdead, hb⟩
    · exact hall u hu id habout

theorem Opened.stats_iff (h : Opened c₀ c log) (hi : Intact c₀ c log) :
    (c.undoAll log).idmap.stats = c₀.idmap.stats ↔ Unburied c₀ log := by
  have hfwd : (c.undoAll log).idmap.fwd = c₀.idmap.fwd := by
    rw [undoAll_fwd]
    exact funext hi
  have hother : ∀ id, (∀ u ∈ log, u.about ≠ some id) →
      (c.undoAll log).idmap.dead id = c₀.idmap.dead id := fun id hlog =>
    (undoAll_dead_other c hlog).trans ((h.dead id hlog).resolve_right fun hne => hne (hi id))
  have hsub : {id | (c.undoAll log).idmap.dead id = true} ⊆ {id | c₀.idmap.dead id = true} := by
    intro id hid
    by_cases hlog : ∀ u ∈ log, u.about ≠ some id
    · exact (hother id hlog).symm.trans hid
    · push Not at hlog
      obtain ⟨u, hu, habout⟩ := hlog
      exact absurd hid (Bool.eq_false_iff.mp (undoAll_dead_about c hu habout))
  simp only [IdMap.stats, hfwd, IdMapStats.mk.injEq, true_and]
  constructor
  · intro hcard u hu id habout
    have : Finite PointID := .of_injective UInt64.toFin fun _ _ => UInt64.toFin_inj.mp
    have heq := Set.eq_of_subset_of_ncard_le hsub hcard.ge
    refine Bool.eq_false_iff.mpr fun hdead => ?_
    have hid : id ∈ {id | (c.undoAll log).idmap.dead id = true} := heq ▸ hdead
    exact absurd hid (Bool.eq_false_iff.mp (undoAll_dead_about c hu habout))
  · intro hall
    refine congrArg Set.ncard (hsub.antisymm fun id hdead => ?_)
    refine (hother id fun u hu habout => ?_).trans hdead
    exact absurd hdead (Bool.eq_false_iff.mp (hall u hu id habout))

theorem undo_frame (c : Collection) (u : Undo) :
    (c.undo u).segs.length = c.segs.length ∧ (c.undo u).capacity = c.capacity := by
  cases u with
  | append | delete | replace => simp [undo, modifySeg]
  | cell col seq slot prev =>
    rw [undo]
    split <;> exact ⟨rfl, rfl⟩

theorem undoAll_frame (c : Collection) (log : List Undo) :
    (c.undoAll log).segs.length = c.segs.length ∧ (c.undoAll log).capacity = c.capacity := by
  induction log generalizing c with
  | nil => exact ⟨rfl, rfl⟩
  | cons u log ih =>
    obtain ⟨hlen, hcap⟩ := ih (c.undo u)
    exact ⟨hlen.trans (c.undo_frame u).1, hcap.trans (c.undo_frame u).2⟩

theorem undoAll_gridSize (c : Collection) (log : List Undo) :
    (c.undoAll log).gridSize = c.gridSize := by
  rw [gridSize, gridSize, (c.undoAll_frame log).1, (c.undoAll_frame log).2]

theorem filterHits_always (h : p ∈ c.filterHits pred snap) : p ∈ c.filterHits .always none := by
  simp only [filterHits, filterSegment, List.mem_flatMap] at h ⊢
  obtain ⟨entry, hentry, block, hblock, hp⟩ := h
  refine ⟨entry, hentry, block, hblock, ?_⟩
  split at hp
  · cases hp
  · obtain ⟨slot, hslot, hb, hlive, -, hpos⟩ := mem_filterBlock.mp hp
    rw [blockSkippable, if_neg Bool.false_ne_true]
    refine mem_filterBlock.mpr ⟨slot, hslot, hb, ?_, by simp [Predicate.eval], hpos⟩
    unfold Segment.visibleLive at hlive ⊢
    split at hlive
    · cases hlive
    · rename_i htomb
      rw [if_neg htomb]
      rfl

/-- Bitmaps of both sizes mark the same slots. -/
def Unclipped (c₀ c : Collection) : Prop :=
  ∀ p ∈ c₀.filterHits .always none, p < c₀.gridSize ↔ p < c.gridSize

end Collection

namespace Engine

def transact (e : Engine) (t : Txn) : List (UInt64 × Write) → Engine × Txn
  | [] => (e, t)
  | (k, w) :: calls => transact (e.call t k w).1 (e.call t k w).2.1 calls

/-- No call replaces a point in the slot that it had when the transaction began, or brings back one
that was deleted then. -/
def Careful (e₀ e : Engine) (t : Txn) : List (UInt64 × Write) → Prop
  | [] => True
  | (k, w) :: calls =>
    (∀ c₀ c, e₀.colls k = some c₀ → e.colls k = some c →
        ¬ w.Overwrites c₀ c ∧ ¬ w.Recalls c₀ c) ∧
      Careful e₀ (e.call t k w).1 (e.call t k w).2.1 calls

/-- The bitmaps mark the same slots before and after the calls of a transaction. -/
def Unclipped (e₀ e : Engine) : Prop :=
  ∀ k c₀ c, e₀.colls k = some c₀ → e.colls k = some c → c₀.Unclipped c

/-- An engine under an open transaction, and what it was when the transaction began. -/
def Tracks (e₀ e : Engine) (t : Txn) : Prop :=
  ∀ k, Option.Rel (fun c₀ c => Collection.Opened c₀ c (t.log k)) (e₀.colls k) (e.colls k)

def Each (P : Collection → Collection → List Undo → Prop) (e₀ e : Engine) (t : Txn) : Prop :=
  ∀ k c₀ c, e₀.colls k = some c₀ → e.colls k = some c → P c₀ c (t.log k)

def Intact : Engine → Engine → Txn → Prop := Each Collection.Intact

def Unwrapped (e : Engine) : Prop := ∀ k c, e.colls k = some c → c.Unwrapped

variable {e₀ e : Engine} {t : Txn} {k : UInt64} {c₀ c : Collection}

theorem Tracks.opened (h : Tracks e₀ e t) (h₀ : e₀.colls k = some c₀) (hc : e.colls k = some c) :
    Collection.Opened c₀ c (t.log k) := by
  have := h k
  rw [h₀, hc] at this
  cases this with
  | some h => exact h

theorem Tracks.base (h : Tracks e₀ e t) (hc : e.colls k = some c) :
    ∃ c₀, e₀.colls k = some c₀ ∧ Collection.Opened c₀ c (t.log k) := by
  rcases rel_cases (h k) with ⟨-, hn⟩ | ⟨c₀, c', h₀, hc', ho⟩
  · cases hn.symm.trans hc
  · cases hc'.symm.trans hc
    exact ⟨c₀, h₀, ho⟩

theorem tracks_begin (h : ∀ k c, e.colls k = some c → c.WF) : Tracks e e.begin.1 e.begin.2 := by
  intro k
  rw [show e.begin.1.colls k = e.colls k from rfl]
  rcases hc : e.colls k with _ | c
  · exact .none
  · exact .some (.refl (h k c hc))

theorem Tracks.call (h : Tracks e₀ e t) (k : UInt64) (w : Write) :
    Tracks e₀ (e.call t k w).1 (e.call t k w).2.1 := by
  rcases hc : e.colls k with _ | c
  · rw [call_none hc]
    exact h
  · obtain ⟨c₀, h₀, ho⟩ := h.base hc
    obtain ⟨log, hundo, he⟩ := @Write.run_effect { coll := c } ho.wf w
    obtain ⟨hcolls, hlog, -, -, -⟩ := @call_some e t k c w hc
    rw [List.append_nil] at hundo
    intro k'
    rw [hcolls, hlog, hundo, update_apply]
    split
    · rename_i hk
      rw [hk, h₀]
      exact .some (ho.effect he)
    · exact h k'

/-- What a call does to a property of the collections is what it does to the one it is made on. -/
theorem Tracks.each_call {P : Collection → Collection → List Undo → Prop}
    {Q : Collection → Collection → Prop} (h : Tracks e₀ e t) (k : UInt64) {w : Write}
    (hstep : ∀ {c₀ c c' log log'}, Opened c₀ c log → w.Effect c c' log' →
      (P c₀ c' (log' ++ log) ↔ P c₀ c log ∧ Q c₀ c)) :
    Each P e₀ (e.call t k w).1 (e.call t k w).2.1 ↔ Each P e₀ e t ∧
      ∀ c₀ c, e₀.colls k = some c₀ → e.colls k = some c → Q c₀ c := by
  rcases hc : e.colls k with _ | c
  · rw [call_none hc]
    simp
  · obtain ⟨c₀, h₀, ho⟩ := h.base hc
    obtain ⟨log, hundo, he⟩ := @Write.run_effect { coll := c } ho.wf w
    obtain ⟨hcolls, hlog, -, -, -⟩ := @call_some e t k c w hc
    rw [List.append_nil] at hundo
    rw [hundo] at hlog
    constructor
    · intro hall
      have hk := hall k c₀ _ h₀ (by rw [hcolls, update_self])
      rw [hlog, if_pos rfl, hstep ho he] at hk
      refine ⟨fun k' a b ha hb => ?_, fun a b ha hb => ?_⟩
      · by_cases hkk : k' = k
        · subst hkk
          cases h₀.symm.trans ha
          cases hc.symm.trans hb
          exact hk.1
        · have := hall k' a b ha (by rw [hcolls, update_of_ne hkk, hb])
          rwa [hlog, if_neg hkk] at this
      · cases h₀.symm.trans ha
        cases hb
        exact hk.2
    · rintro ⟨hall, hover⟩ k' a b ha hb
      rw [hcolls, update_apply] at hb
      rw [hlog]
      split at hb
      · rename_i hkk
        subst hkk
        cases h₀.symm.trans ha
        cases hb
        rw [if_pos rfl, hstep ho he]
        exact ⟨hall k' c₀ c h₀ hc, hover c₀ c h₀ rfl⟩
      · rename_i hkk
        rw [if_neg hkk]
        exact hall k' a b ha hb

theorem Tracks.intact_call (h : Tracks e₀ e t) (k : UInt64) (w : Write) :
    Intact e₀ (e.call t k w).1 (e.call t k w).2.1 ↔ Intact e₀ e t ∧
      ∀ c₀ c, e₀.colls k = some c₀ → e.colls k = some c → ¬ w.Overwrites c₀ c :=
  h.each_call k fun ho he => ho.intact_effect he

/-- The log puts every point back, and takes none off the deleted ones. -/
def Restored : Engine → Engine → Txn → Prop :=
  Each fun c₀ c log => Collection.Intact c₀ c log ∧ Unburied c₀ log

theorem Tracks.transact (h : Tracks e₀ e t) (calls : List (UInt64 × Write)) :
    Tracks e₀ (e.transact t calls).1 (e.transact t calls).2 ∧
      (Restored e₀ (e.transact t calls).1 (e.transact t calls).2 ↔
        Restored e₀ e t ∧ Careful e₀ e t calls) := by
  induction calls generalizing e t with
  | nil => exact ⟨h, by simp [Engine.transact, Careful]⟩
  | cons call calls ih =>
    obtain ⟨k, w⟩ := call
    obtain ⟨htracks, hrestored⟩ := ih (h.call k w)
    refine ⟨htracks, hrestored.trans ?_⟩
    have hcall : Restored e₀ (e.call t k w).1 (e.call t k w).2.1 ↔ _ := h.each_call k fun ho he => by
      rw [ho.intact_effect he, ho.unburied_effect he, and_and_and_comm]
    rw [hcall, Careful, and_assoc]
    rfl

theorem mem_metadataFilter {a : Engine} {pred : Predicate} {snap : Option Snapshot} {p : UInt32}
    (ha : a.colls k = some c) : (a.metadataFilter k pred snap).map (fun bm => bm.contains p) =
      .ok (decide (p < c.gridSize ∧ p ∈ c.filterHits pred snap)) := by
  rw [metadataFilter, ha]
  simp only [Except.map, Except.ok.injEq]
  rw [Bool.eq_iff_iff, metadataFilter_contains, decide_eq_true_iff]

theorem Tracks.agree_abort_iff (h : Tracks e₀ e t) (hz : (e.abort t).Unwrapped) :
    (e.abort t).Agree e₀ ↔ Restored e₀ e t ∧ Unclipped e₀ e := by
  have hu : ∀ {k c}, e.colls k = some c → (e.abort t).colls k = some (c.undoAll (t.log k)) := by
    intro k c hc
    rw [abort_colls, hc, Option.map_some]
  constructor
  · intro hagree
    have halike := alike_iff.mp hagree.toAlike
    constructor
    · intro k c₀ c h₀ hc
      have ho := h.opened h₀ hc
      have hk := halike k
      rw [hu hc, h₀] at hk
      have hintact : Collection.Intact c₀ c (t.log k) := by
        intro id
        cases hk with
        | some hk =>
          rw [← undoAll_fwd]
          rcases hl : (c.undoAll (t.log k)).idmap.fwd id with _ | loc
          · exact (hk.fwd_none ho.base hl).symm
          · rw [undoAll_fwd] at hl
            exact (ho.undone id loc hl).symm
      have hstats := hagree.idMapStats k
      rw [idMapStats, idMapStats, hu hc, h₀] at hstats
      exact ⟨hintact, (ho.stats_iff hintact).mp (Except.ok.inj hstats)⟩
    · intro k c₀ c h₀ hc p hp
      have ho := h.opened h₀ hc
      have hk := hagree.metadataFilter k .always none p
      rw [mem_metadataFilter (hu hc), mem_metadataFilter h₀, undoAll_gridSize,
        ho.reverts.near.filterHits ho.undoAll_wf.metadata ho.base.metadata (hz k _ (hu hc))] at hk
      simpa [hp, iff_comm] using hk
  · rintro ⟨hintact, hclip⟩
    have hnear : ∀ k c₀ c, e₀.colls k = some c₀ → e.colls k = some c →
        (c.undoAll (t.log k)).Near c₀ := fun k c₀ c h₀ hc => (h.opened h₀ hc).reverts.near
    refine ⟨alike_iff.mpr fun k => ?_, fun k pred snap p => ?_, fun k => ?_⟩
    · rw [abort_colls]
      rcases rel_cases (h k) with ⟨h₀, hc⟩ | ⟨c₀, c, h₀, hc, ho⟩ <;> rw [h₀, hc]
      · exact .none
      · refine .some ((hnear k c₀ c h₀ hc).alike ho.base ?_)
        rw [undoAll_fwd]
        exact funext (hintact k c₀ c h₀ hc).1
    · rcases rel_cases (h k) with ⟨h₀, hc⟩ | ⟨c₀, c, h₀, hc, ho⟩
      · rw [metadataFilter, metadataFilter, abort_colls, hc, h₀, Option.map_none]
      · rw [mem_metadataFilter (hu hc), mem_metadataFilter h₀, undoAll_gridSize,
          ho.reverts.near.filterHits ho.undoAll_wf.metadata ho.base.metadata (hz k _ (hu hc))]
        congr 2
        refine propext (and_congr_left fun hp => ?_)
        exact (hclip k c₀ c h₀ hc p (filterHits_always hp)).symm
    · rcases rel_cases (h k) with ⟨h₀, hc⟩ | ⟨c₀, c, h₀, hc, ho⟩
      · rw [idMapStats, idMapStats, abort_colls, hc, h₀, Option.map_none]
      · obtain ⟨hi, hb⟩ := hintact k c₀ c h₀ hc
        rw [idMapStats, idMapStats, hu hc, h₀]
        exact congrArg Except.ok ((ho.stats_iff hi).mpr hb)

end Engine

namespace Sys

/-- With no open transaction, one that is aborted after some calls leaves every reading as it was,
just if the calls were careful and clip no bitmap; no counter of a zone map may wrap. -/
theorem abort_agree_iff {s : Sys} (hs : s.Reachable) (calls : List (UInt64 × Write)) :
    let e₀ := s.engine
    let (e, t) := e₀.begin.1.transact e₀.begin.2 calls
    (e.abort t).Unwrapped → ((e.abort t).Agree e₀ ↔
      Engine.Careful e₀ e₀.begin.1 e₀.begin.2 calls ∧ e₀.Unclipped e) := by
  dsimp only
  intro hz
  obtain ⟨htracks, hintact⟩ :=
    (Engine.tracks_begin fun _ _ hc => hs.inv.wf hc).transact calls
  have hstart : Engine.Restored s.engine s.engine.begin.1 s.engine.begin.2 := by
    intro k c₀ c h₀ hc
    cases h₀.symm.trans hc
    exact ⟨fun _ => rfl, fun _ hu => nomatch hu⟩
  rw [htracks.agree_abort_iff hz, hintact]
  simp only [hstart, true_and]

theorem abort_agree_deleted :
    let e₀ := (after onePoint).engine
    let calls := [(1, .delete 5), (1, .upsert .id 5 [7] ⟨[(1, .int 4)], by decide⟩)]
    let (e, t) := e₀.begin.1.transact e₀.begin.2 calls
    e.lookupID 1 5 = .ok 1 ∧ (e.abort t).lookupID 1 5 = .ok 0 ∧ (e.abort t).Agree e₀ := by
  have hs : (after onePoint).Reachable := reachable_after (by decide)
  intro e₀ calls
  refine ⟨rfl, rfl, (abort_agree_iff hs calls ?_).mpr ⟨⟨?_, ?_, trivial⟩, ?_⟩⟩
  · intro k c hc
    by_cases hk : k = 1
    · subst hk
      cases hc
      intro col seq block
      change ZoneBlock.written (if _ then ZoneBlock.fold (if _ then ZoneBlock.fold {} _ else {}) _
        else if _ then ZoneBlock.fold {} _ else {}) < _
      split <;> split <;> decide
    · rw [Engine.abort_colls] at hc
      cases hc.symm.trans (congrArg _ ((update_of_ne hk _ _).trans
        ((update_of_ne hk _ _).trans (onePoint_colls hk))))
  · exact fun _ _ _ _ => ⟨fun h => h, fun h => h.2⟩
  · rintro c₀ c h₀ hc
    cases h₀
    cases hc
    exact ⟨fun h => (nomatch h.2), fun h => (nomatch h.1)⟩
  · intro k c₀ c h₀ hc
    by_cases hk : k = 1
    · subst hk
      cases h₀
      cases hc
      exact fun _ _ => Iff.rfl
    · rw [onePoint_colls hk] at h₀
      cases h₀

/-- An upsert of the point 5 that is aborted loses it. -/
theorem abort_loses_replaced_point :
    (after onePoint).Reachable ∧ (after onePoint).writer = none ∧
      let e₀ := (after onePoint).engine
      let (e, t) := e₀.begin.1.transact e₀.begin.2 [(1, .upsert .id 5 [7] ⟨[], by decide⟩)]
      e₀.lookupID 1 5 = .ok 0 ∧ (e.abort t).lookupID 1 5 = .error .notFound ∧
        (e.abort t).lookupPos 1 0 = .ok 5 ∧ ¬ (e.abort t).Agree e₀ := by
  refine ⟨reachable_after (by decide), rfl, rfl, rfl, rfl, fun h => ?_⟩
  exact nomatch h.lookupID 1 5

end Sys

end VecDb.Storage

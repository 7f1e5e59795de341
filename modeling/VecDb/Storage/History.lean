import VecDb.Storage.Effect
import VecDb.Storage.Engine
import VecDb.Storage.Repack

/-! # Engine histories

Every state an engine comes to is well formed, and while a write transaction is open
its log leads back to a well-formed state, up to leftovers and to points that undoing
the log loses.
-/

namespace VecDb.Storage

open List Function Collection

namespace Collection

/-- A collection under an open transaction, and what it was when the transaction began. -/
structure Opened (c₀ c : Collection) (log : List Undo) : Prop where
  base : c₀.WF
  wf : c.WF
  reverts : c₀.Reverts c log
  grows : c₀.Extends c
  /-- Undoing the log puts a point back where it was, or nowhere. -/
  undone : ∀ id loc, undoFwd log c.idmap.fwd id = some loc → c₀.idmap.fwd id = some loc
  /-- A point is where it was and the log is not about it, or it is nowhere or in a new slot. -/
  placed : ∀ id, (c.idmap.fwd id = c₀.idmap.fwd id ∧ ∀ u ∈ log, u.about ≠ some id) ∨
    c.idmap.fwd id = none ∨ ∃ loc, c.idmap.fwd id = some loc ∧ c₀.Fresh loc
  /-- A point the log is not about is deleted just if it was, or it is lost. -/
  dead : ∀ id, (∀ u ∈ log, u.about ≠ some id) →
    c.idmap.dead id = c₀.idmap.dead id ∨ undoFwd log c.idmap.fwd id ≠ c₀.idmap.fwd id

variable {c₀ c c' : Collection} {log log' : List Undo} {w : Write}

theorem Opened.refl (h : c.WF) : Opened c c [] where
  base := h
  wf := h
  reverts := .refl c
  grows := (Near.refl c).extends
  undone _ _ hl := hl
  placed _ := .inl ⟨rfl, fun _ hu => nomatch hu⟩
  dead _ _ := .inl rfl

theorem undoFwd_effect (he : w.Effect c c' log') (id : PointID) :
    undoFwd (log' ++ log) c'.idmap.fwd id = undoFwd log c.idmap.fwd id ∨
      id = w.id ∧ w.Replaces c ∧ (∀ u ∈ log, u.about ≠ some id) ∧
        undoFwd (log' ++ log) c'.idmap.fwd id = none := by
  rw [undoFwd_append]
  by_cases hid : id = w.id
  · subst hid
    by_cases hr : w.Replaces c
    · by_cases hlog : ∀ u ∈ log, u.about ≠ some w.id
      · exact .inr ⟨rfl, hr, hlog, (undoFwd_other hlog).trans (he.lost hr)⟩
      · push Not at hlog
        obtain ⟨u, hu, habout⟩ := hlog
        exact .inl (undoFwd_about hu habout)
    · exact .inl (undoFwd_congr (he.undone hr))
  · refine .inl (undoFwd_congr ?_)
    rw [undoFwd_other fun u hu habout => hid (he.about u hu id habout), he.others id hid]

theorem Opened.was_live (h : Opened c₀ c log) {id : PointID} (hl : c.idmap.fwd id ≠ none)
    (hlog : ∀ u ∈ log, u.about ≠ some id) : c₀.idmap.fwd id ≠ none := by
  obtain ⟨loc, hloc⟩ := Option.ne_none_iff_exists'.mp hl
  rw [h.undone id loc ((undoFwd_other hlog).trans hloc)]
  exact Option.some_ne_none loc

theorem Opened.effect (h : Opened c₀ c log) (he : w.Effect c c' log') :
    Opened c₀ c' (log' ++ log) where
  base := h.base
  wf := he.wf
  reverts := h.reverts.trans he.reverts
  grows := h.grows.trans he.grows
  undone id loc hl := by
    rcases @undoFwd_effect _ _ log _ _ he id with heq | ⟨-, -, -, hnone⟩
    · exact h.undone id loc (heq ▸ hl)
    · rw [hnone] at hl
      cases hl
  placed id := by
    by_cases hid : id = w.id
    · subst hid
      rcases he.self with ⟨hsame, -, hlog'⟩ | hnone | ⟨loc, hloc, hfresh⟩
      · rw [hsame]
        refine (h.placed w.id).imp_left fun ⟨heq, hlog⟩ => ⟨heq, fun u hu => ?_⟩
        rcases mem_append.mp hu with hu | hu
        · rw [hlog' u hu]
          exact fun h => nomatch h
        · exact hlog u hu
      · exact .inr (.inl hnone)
      · exact .inr (.inr ⟨loc, hloc, hfresh.mono h.grows⟩)
    · rw [he.others id hid]
      refine (h.placed id).imp_left fun ⟨heq, hlog⟩ => ⟨heq, fun u hu habout => ?_⟩
      rcases mem_append.mp hu with hu | hu
      · exact hid (he.about u hu id habout)
      · exact hlog u hu habout
  dead id hlog := by
    obtain ⟨hlog₁, hlog₂⟩ := forall_mem_append.mp hlog
    rcases he.dead id hlog₁ with hd | ⟨rfl, hr⟩
    · rw [hd]
      refine (h.dead id hlog₂).imp_right fun hne => ?_
      rcases @undoFwd_effect _ _ log _ _ he id with heq | ⟨rfl, hr, -, hnone⟩
      · rwa [heq]
      · rw [hnone]
        exact (h.was_live hr.live hlog₂).symm
    · rw [undoFwd_append, undoFwd_other hlog₂, he.lost hr]
      exact .inr (h.was_live hr.live hlog₂).symm

theorem Opened.near (h : Opened c₀ c log) (hn : c'.Near c) (hwf : c'.WF)
    (hmap : c'.idmap = c.idmap) : Opened c₀ c' log where
  base := h.base
  wf := hwf
  reverts := by simpa using h.reverts.trans hn.reverts
  grows := h.grows.trans hn.extends
  undone := by rw [hmap]; exact h.undone
  placed := by rw [hmap]; exact h.placed
  dead := by rw [hmap]; exact h.dead

theorem Framed.undo (h : c.Framed) (u : Undo) : (c.undo u).Framed := by
  cases u with
  | append di slot id | delete di slot id seq =>
    apply Framed.withIdmap
    exact h.modifySeg fun _ _ => ⟨rfl, rfl⟩
  | replace di slot => exact h.modifySeg fun _ _ => ⟨rfl, rfl⟩
  | cell col seq slot prev =>
    by_cases hf : c.metadata.Fits col prev
    · rw [undo_cell hf]
      exact ⟨h.seqs, h.dirs, h.openIdx, h.capacity, (MetadataStore.writes_put hf).wf h.metadata⟩
    · obtain ⟨e, he⟩ := @MetadataStore.writeAt_misfit c.metadata seq slot _ _ hf
      rw [Collection.undo, he]
      exact h

theorem Framed.undoAll (h : c.Framed) (log : List Undo) : (c.undoAll log).Framed := by
  induction log generalizing c with
  | nil => exact h
  | cons u log ih => exact ih (h.undo u)

theorem Opened.undoAll_wf (h : Opened c₀ c log) : (c.undoAll log).WF := by
  refine h.reverts.near.wf h.base (h.wf.toFramed.undoAll log) ?_ fun id loc hl => ?_
  · rw [undoAll_fwd]
    exact h.undone
  · by_cases hlog : ∀ u ∈ log, u.about ≠ some id
    · rw [undoAll_fwd, undoFwd_other hlog] at hl
      rw [undoAll_dead_other c hlog]
      exact h.wf.alive id loc hl
    · push Not at hlog
      obtain ⟨u, hu, habout⟩ := hlog
      exact undoAll_dead_about c hu habout

theorem near_sealOpen (h : c.Framed) : c.sealOpen.Near c := by
  unfold sealOpen
  split
  · rename_i di _
    have hn : (c.modifySeg di fun s => { s with sealed := true }).Near c :=
      h.near_modifySeg fun s => ⟨rfl, rfl, rfl, rfl, rfl, rfl, fun _ _ => ⟨rfl, rfl, rfl⟩⟩
    exact ⟨hn.dims, hn.capacity, hn.codec, hn.columns, hn.segs, hn.dirOf, hn.vals, hn.zone⟩
  · exact .refl c

theorem sealOpen_idmap (c : Collection) : c.sealOpen.idmap = c.idmap := by
  unfold sealOpen
  split <;> rfl

theorem WF.sealOpen (h : c.WF) : c.sealOpen.WF := by
  refine (near_sealOpen h.toFramed).wf h ?_ (fun _ _ hl => by rwa [sealOpen_idmap] at hl)
    (by rw [sealOpen_idmap]; exact h.alive)
  unfold Collection.sealOpen
  split
  · rename_i di _
    have hf : (c.modifySeg di fun s => { s with sealed := true }).Framed :=
      h.modifySeg fun _ _ => ⟨rfl, rfl⟩
    exact ⟨hf.seqs, hf.dirs, fun _ hi => (nomatch hi), hf.capacity, hf.metadata⟩
  · exact h.toFramed

theorem WF.stampSlot (h : c.WF) (seq : ℕ) (slot : ℕ × ℕ) : (c.stampSlot seq slot).WF where
  toFramed := h.modifySeg fun _ _ => ⟨rfl, rfl⟩
  segs := h.segs_modify fun s hs => (h.segs s (mem_of_getElem? hs)).stamp seq
  located id loc hl :=
    (h.located id loc hl).modify _ fun _ _ _ hslot htomb _ _ => ⟨hslot, htomb, rfl⟩
  alive := h.alive

theorem WF.stampAll (h : c.WF) (seq : ℕ) (slots : List (ℕ × ℕ)) : (c.stampAll seq slots).WF := by
  induction slots generalizing c with
  | nil => exact h
  | cons slot slots ih => exact ih (h.stampSlot seq slot)

theorem stampAll_keeps (c : Collection) (seq : ℕ) (slots : List (ℕ × ℕ)) :
    ∃ segs : List Segment, c.stampAll seq slots = { c with segs := segs } := by
  induction slots generalizing c with
  | nil => exact ⟨c.segs, rfl⟩
  | cons slot slots ih => exact ih (c.stampSlot seq slot)

end Collection

namespace Txn

def log (t : Txn) (k : UInt64) : List Undo :=
  t.undo.filterMap fun e => if e.1 = k then some e.2 else none

def slots (t : Txn) (k : UInt64) : List (ℕ × ℕ) :=
  t.stamp.filterMap fun e => if e.1 = k then some e.2 else none

end Txn

namespace Engine

variable {e : Engine} {t : Txn} {k : UInt64} {c : Collection} {w : Write}

theorem foldl_modifyColl {α : Type} (f : α → Collection → Collection) (l : List (UInt64 × α))
    (e : Engine) (k : UInt64) : (l.foldl (fun e x => e.modifyColl x.1 (f x.2)) e).colls k =
      (e.colls k).map fun c =>
        (l.filterMap fun x => if x.1 = k then some x.2 else none).foldl (fun c x => f x c) c := by
  induction l generalizing e with
  | nil => simp
  | cons x l ih =>
    rw [foldl_cons, ih, modifyColl]
    by_cases hk : x.1 = k
    · subst hk
      simp only [update_self, filterMap_cons, if_true, foldl_cons, Option.map_map]
      rfl
    · simp only [update_of_ne (Ne.symm hk), filterMap_cons, if_neg hk]

theorem abort_colls (e : Engine) (t : Txn) (k : UInt64) :
    (e.abort t).colls k = (e.colls k).map fun c => c.undoAll (t.log k) :=
  foldl_modifyColl (fun u c => c.undo u) t.undo e k

theorem publish_colls (e : Engine) (t : Txn) (seq : ℕ) (k : UInt64) :
    (e.publish t seq).colls k = (e.colls k).map fun c => c.stampAll seq (t.slots k) :=
  foldl_modifyColl (fun slot c => c.stampSlot seq slot) t.stamp e k

theorem call_some (h : e.colls k = some c) :
    (e.call t k w).1.colls = Function.update e.colls k (some (w.run { coll := c }).1.coll) ∧
      (∀ k', (e.call t k w).2.1.log k' =
        (if k' = k then (w.run { coll := c }).1.undo else []) ++ t.log k') ∧
      (∀ k', (e.call t k w).2.1.slots k' =
        t.slots k' ++ if k' = k then (w.run { coll := c }).1.stamp else []) ∧
      (e.call t k w).1.clock = e.clock ∧ (e.call t k w).2.2 = (w.run { coll := c }).2 := by
  unfold call
  rw [h]
  refine ⟨rfl, fun k' => ?_, fun k' => ?_, rfl, rfl⟩
  · simp only [Txn.log, filterMap_append, filterMap_map]
    by_cases hk : k' = k
    · subst hk
      simp
    · simp [hk, Ne.symm hk]
  · simp only [Txn.slots, filterMap_append, filterMap_map]
    by_cases hk : k' = k
    · subst hk
      simp
    · simp [hk, Ne.symm hk]

theorem call_none (h : e.colls k = none) : e.call t k w = (e, t, some .unknownCollection) := by
  rw [call, h]

end Engine

namespace Sys

/-- A collection is well formed, and the log of the open transaction leads back to a
well-formed one; there is no log without a collection. -/
def Sound (log : Option (List Undo)) : Option Collection → Prop
  | none => log.getD [] = []
  | some c => c.WF ∧ ∀ l, log = some l → ∃ c₀, Collection.Opened c₀ c l

def Inv (s : Sys) : Prop := ∀ k, Sound (s.writer.map fun t => t.log k) (s.engine.colls k)

variable {s s' : Sys} {t : Txn} {k : UInt64} {c : Collection} {e : Engine} {ev : Event}

theorem Inv.wf (hi : s.Inv) (h : s.engine.colls k = some c) : c.WF := by
  have := hi k
  rw [h] at this
  exact this.1

theorem Inv.opened (hi : s.Inv) (ht : s.writer = some t)
    (h : s.engine.colls k = some c) : ∃ c₀, Collection.Opened c₀ c (t.log k) := by
  have := hi k
  rw [h, ht] at this
  exact this.2 _ rfl

theorem inv_idle (h : ∀ k c, e.colls k = some c → c.WF) : Inv { engine := e } := by
  intro k
  rcases hc : e.colls k with _ | c
  · exact rfl
  · exact ⟨h k c hc, fun _ hl => nomatch hl⟩

theorem Inv.create (hi : s.Inv) {d : CollectionDef}
    (h : s.engine.createCollection d = .ok e) : Inv { s with engine := e } := by
  unfold Engine.createCollection at h
  split at h
  · cases h
  · rcases hd : s.engine.colls d.id with _ | c <;> rw [hd] at h
    · cases h
      intro k
      have hk := hi k
      dsimp only
      rw [update_apply]
      split
      · subst_vars
        refine ⟨wf_newCollection d, fun l hl => ?_⟩
        rw [hl, hd] at hk
        obtain rfl : l = [] := hk
        exact ⟨_, .refl (wf_newCollection d)⟩
      · exact hk
    · cases h

theorem Inv.begin (hi : s.Inv) :
    Inv { engine := s.engine.begin.1, writer := some s.engine.begin.2 } := by
  intro k
  rcases hc : s.engine.begin.1.colls k with _ | c
  · exact rfl
  · have hwf := hi.wf hc
    refine ⟨hwf, fun l hl => ⟨c, ?_⟩⟩
    cases hl
    exact .refl hwf

theorem Inv.call (hi : s.Inv) (ht : s.writer = some t) (k : UInt64) (w : Write) : Inv { s with
      engine := (s.engine.call t k w).1
      writer := some (s.engine.call t k w).2.1 } := by
  rcases hc : s.engine.colls k with _ | c
  · rw [Engine.call_none hc]
    simpa only [Inv, ht] using hi
  · obtain ⟨hcolls, hlog, -, -, -⟩ := @Engine.call_some s.engine t k c w hc
    obtain ⟨log, hundo, he⟩ := @Write.run_effect { coll := c } (hi.wf hc) w
    rw [append_nil] at hundo
    intro k'
    have hk := hi k'
    rw [hcolls, Option.map_some, hlog, update_apply]
    rw [ht, Option.map_some] at hk
    split
    · rename_i hkk
      subst hkk
      obtain ⟨c₀, ho⟩ := hi.opened ht hc
      refine ⟨he.wf, fun l hl => ⟨c₀, ?_⟩⟩
      rw [← Option.some.inj hl, hundo]
      exact ho.effect he
    · exact hk

theorem Inv.modify (hi : s.Inv) {f : Collection → Collection}
    (hf : ∀ c, s.engine.colls k = some c → (f c).WF ∧ ∀ t, s.writer = some t →
      ∀ c₀, Collection.Opened c₀ c (t.log k) → Collection.Opened c₀ (f c) (t.log k)) :
    Inv { s with engine := s.engine.modifyColl k f } := by
  intro k'
  have hk := hi k'
  dsimp only [Engine.modifyColl]
  rw [update_apply]
  split
  · subst_vars
    rcases hc : s.engine.colls k' with _ | c <;> rw [hc] at hk
    · exact hk
    · refine ⟨(hf c hc).1, fun l hl => ?_⟩
      obtain ⟨t, ht, rfl⟩ := Option.map_eq_some_iff.mp hl
      obtain ⟨c₀, ho⟩ := hi.opened ht hc
      exact ⟨c₀, (hf c hc).2 t ht c₀ ho⟩
  · exact hk

theorem Inv.step (hi : s.Inv) (hn : s.Numbered ev) (h : s.step ev = .ok s') : s'.Inv := by
  cases takes_of_step h with
  | created hd => exact hi.create hd
  | refused => exact hi
  | begin => exact hi.begin
  | call ht => exact hi.call ht _ _
  | drawSeq => exact hi
  | @publish t seq ht =>
    refine inv_idle fun k c hc => ?_
    rw [Engine.publish_colls] at hc
    obtain ⟨c', hc', rfl⟩ := Option.map_eq_some_iff.mp hc
    exact (hi.wf hc').stampAll seq _
  | @abort t ht =>
    refine inv_idle fun k c hc => ?_
    rw [Engine.abort_colls] at hc
    obtain ⟨c', hc', rfl⟩ := Option.map_eq_some_iff.mp hc
    obtain ⟨c₀, ho⟩ := hi.opened ht hc'
    exact ho.undoAll_wf
  | sealSegment =>
    refine hi.modify fun c hc => ⟨(hi.wf hc).sealOpen, fun t _ c₀ ho => ?_⟩
    refine ho.near (near_sealOpen ho.wf.toFramed) ho.wf.sealOpen ?_
    rw [sealOpen_idmap]
  | compact ht =>
    refine hi.modify fun c hc => ⟨(hi.wf hc).compact (hn c hc), fun t ht' => ?_⟩
    exact nomatch ht.symm.trans ht'

theorem Reachable.inv (h : s.Reachable) : s.Inv := by
  obtain ⟨events, halong, hexec⟩ := h
  have hnew : Inv {} := inv_idle fun _ _ hc => by cases hc
  exact halong.visited (fun _ _ _ hi hn h => Inv.step hi hn h) hnew s (mem_visited hexec)

theorem reachable_new : Reachable {} := ⟨[], trivial, rfl⟩

theorem Reachable.step (h : s.Reachable) (hn : s.Numbered ev)
    (hs : s.step ev = .ok s') : s'.Reachable := by
  obtain ⟨events, halong, hexec⟩ := h
  refine ⟨events ++ [ev], (along_append hexec).mpr ⟨halong, hn, fun _ _ => trivial⟩, ?_⟩
  rw [exec_append hexec, exec_cons hs, exec_nil]

def after (events : List Event) : Sys :=
  match exec Sys.step {} events with
  | .ok s => s
  | .error _ => {}

instance (s : Sys) : ∀ ev, Decidable (s.Numbered ev)
  | .compact k => inferInstanceAs (Decidable (∀ c, s.engine.colls k = some c →
      c.liveRefs.length ≤ 2 ^ 32))
  | .create _ | .begin | .call _ _ | .drawSeq | .publish | .abort | .sealSegment _ => .isTrue trivial

theorem reachable_after {events : List Event} (h : Along Sys.step Numbered {} events) :
    (after events).Reachable := by
  unfold after
  rcases he : exec Sys.step {} events with _ | s
  · exact ⟨[], trivial, rfl⟩
  · exact ⟨events, h, he⟩

def plainDef : CollectionDef :=
  { id := 1, dims := 1, codec := fp32Codec 1, columns := [⟨1, .int64⟩], segmentCapacity := 4 }

def onePoint : List Event :=
  [.create plainDef, .begin, .call 1 (.insert .id 5 [0] ⟨[(1, .int 3)], by decide⟩), .drawSeq,
    .publish]

theorem onePoint_colls {k : UInt64} (h : k ≠ 1) : (after onePoint).engine.colls k = none :=
  (update_of_ne h _ _).trans
    ((update_of_ne h _ _).trans (update_of_ne h _ _))

/-- Three points in two segments, the second one of them deleted. -/
def spread : List Event :=
  [.create { plainDef with segmentCapacity := 2 }, .begin,
    .call 1 (.insert .id 5 [0] ⟨[(1, .int 3)], by decide⟩),
    .call 1 (.insert .id 6 [1] ⟨[(1, .int 4)], by decide⟩),
    .call 1 (.insert .id 7 [2] ⟨[(1, .int 5)], by decide⟩), .drawSeq, .publish, .begin,
    .call 1 (.delete 6), .drawSeq, .publish]

end Sys

end VecDb.Storage

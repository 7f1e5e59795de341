import VecDb.Storage.Revert

/-! # The effect of a call on the id map

A call changes the place of its own point only, to none or to a slot that was free. What it
registers puts the point back where it was, unless the call replaced a live point. Undoing an entry
takes its point off the list of deleted ones.
-/

namespace VecDb.Storage

open List Function Undo

namespace Undo

/-- The point whose place in the id map an entry restores. -/
def about : Undo → Option PointID
  | .append _ _ id | .delete _ _ id _ => some id
  | .replace _ _ | .cell _ _ _ _ => none

/-- The places of the points after undoing an entry. -/
def fwd (m : PointID → Option IdLoc) : Undo → PointID → Option IdLoc
  | .append _ _ id => update m id none
  | .delete _ slotPos id segSeq => update m id (some ⟨segSeq, slotPos⟩)
  | .replace _ _ | .cell _ _ _ _ => m

end Undo

def undoFwd (log : List Undo) (m : PointID → Option IdLoc) : PointID → Option IdLoc :=
  log.foldl Undo.fwd m

section UndoFwd

variable {u : Undo} {log : List Undo} {m m' : PointID → Option IdLoc} {id : PointID}

theorem undoFwd_cons (u : Undo) (log : List Undo) (m : PointID → Option IdLoc) :
    undoFwd (u :: log) m = undoFwd log (u.fwd m) := rfl

theorem undoFwd_append (log log' : List Undo) (m : PointID → Option IdLoc) :
    undoFwd (log ++ log') m = undoFwd log' (undoFwd log m) := foldl_append ..

theorem Undo.fwd_other (h : u.about ≠ some id) : u.fwd m id = m id := by
  cases u with
  | append di slot id' | delete di slot id' seq =>
    exact update_of_ne (fun heq => h (congrArg some heq.symm)) _ _
  | replace | cell => rfl

theorem Undo.fwd_about (h : u.about = some id) : u.fwd m id = u.fwd m' id := by
  cases u with
  | append di slot id' | delete di slot id' seq => cases h; simp [fwd]
  | replace | cell => cases h

theorem undoFwd_congr (h : m id = m' id) : undoFwd log m id = undoFwd log m' id := by
  induction log generalizing m m' with
  | nil => exact h
  | cons u log ih =>
    refine ih ?_
    by_cases hu : u.about = some id
    · exact fwd_about hu
    · rw [fwd_other hu, fwd_other hu, h]

theorem undoFwd_other (h : ∀ u ∈ log, u.about ≠ some id) : undoFwd log m id = m id := by
  induction log generalizing m with
  | nil => rfl
  | cons u log ih =>
    rw [forall_mem_cons] at h
    exact (ih h.2).trans (fwd_other h.1)

theorem undoFwd_about (h : u ∈ log) (hu : u.about = some id) :
    undoFwd log m id = undoFwd log m' id := by
  induction log generalizing m m' with
  | nil => cases h
  | cons w log ih =>
    rcases mem_cons.mp h with rfl | h
    · rw [undoFwd_cons, undoFwd_cons]
      exact undoFwd_congr (fwd_about hu)
    · exact ih h

end UndoFwd

namespace Collection

theorem undo_fwd (c : Collection) (u : Undo) : (c.undo u).idmap.fwd = u.fwd c.idmap.fwd := by
  cases u with
  | append di slot id =>
    simp only [undo, IdMap.forget, IdMap.tombstone, fwd]
    rcases hid : c.idmap.fwd id with _ | loc
    · exact (update_eq_self_iff.mpr hid.symm).symm
    · rfl
  | delete di slot id seq | replace di slot => rfl
  | cell col seq slot prev =>
    rw [undo]
    split <;> rfl

theorem undoAll_fwd (c : Collection) (log : List Undo) :
    (c.undoAll log).idmap.fwd = undoFwd log c.idmap.fwd := by
  induction log generalizing c with
  | nil => rfl
  | cons u log ih =>
    rw [undoFwd_cons, ← undo_fwd]
    exact ih (c.undo u)

theorem undo_dead (c : Collection) (u : Undo) (id : PointID) :
    (c.undo u).idmap.dead id = if u.about = some id then false else c.idmap.dead id := by
  cases u with
  | append di slot id' =>
    simp only [undo, IdMap.forget, IdMap.tombstone, about, Option.some.injEq]
    rcases c.idmap.fwd id' with _ | loc <;> simp only [update_apply] <;> split <;>
      simp_all [eq_comm]
  | delete di slot id' seq =>
    simp only [undo, IdMap.reassign, about, Option.some.injEq, update_apply, eq_comm]
  | replace di slot => rfl
  | cell col seq slot prev =>
    rw [undo]
    split <;> rfl

theorem undoAll_dead_about {log : List Undo} {u : Undo} {id : PointID} (c : Collection)
    (h : u ∈ log) (hu : u.about = some id) : (c.undoAll log).idmap.dead id = false := by
  -- once an entry about the point is undone, later entries do not bury it again
  have hkeep : ∀ (log : List Undo) (c : Collection), c.idmap.dead id = false →
      (c.undoAll log).idmap.dead id = false := by
    intro log
    induction log with
    | nil => exact fun _ h => h
    | cons u log ih =>
      intro c h
      refine ih (c.undo u) ?_
      rw [undo_dead, h, ite_self]
  induction log generalizing c with
  | nil => cases h
  | cons v log ih =>
    rcases mem_cons.mp h with rfl | h
    · exact hkeep log _ (by rw [undo_dead, if_pos hu])
    · exact ih (c.undo v) h

theorem undoAll_dead_other {log : List Undo} {id : PointID} (c : Collection)
    (h : ∀ u ∈ log, u.about ≠ some id) : (c.undoAll log).idmap.dead id = c.idmap.dead id := by
  induction log generalizing c with
  | nil => rfl
  | cons u log ih =>
    rw [forall_mem_cons] at h
    exact (ih (c.undo u) h.2).trans (by rw [undo_dead, if_neg h.1])

end Collection

namespace Write

def id : Write → PointID
  | .insert _ id _ _ | .delete id | .upsert _ id _ _ | .updateMeta id _ => id

def Replaces (c : Collection) : Write → Prop
  | .upsert _ id _ _ => c.idmap.fwd id ≠ none
  | _ => False

/-- The call puts a point into the collection that was not there. -/
def Brings (c : Collection) : Write → Prop
  | .insert _ id vec row | .upsert _ id vec row => Draft.Accepts c id vec row
  | .delete _ | .updateMeta _ _ => False

/-- What a call does to a collection, with the entries it registers. -/
structure Effect (w : Write) (c c' : Collection) (log : List Undo) : Prop where
  wf : c'.WF
  reverts : c.Reverts c' log
  grows : c.Extends c'
  others : ∀ id, id ≠ w.id → c'.idmap.fwd id = c.idmap.fwd id
  about : ∀ u ∈ log, ∀ id, u.about = some id → id = w.id
  self : c'.idmap.fwd w.id = c.idmap.fwd w.id ∧ ¬ w.Replaces c ∧ (∀ u ∈ log, u.about = none) ∨
    c'.idmap.fwd w.id = none ∨ ∃ loc, c'.idmap.fwd w.id = some loc ∧ c.Fresh loc
  undone : ¬ w.Replaces c → undoFwd log c'.idmap.fwd w.id = c.idmap.fwd w.id
  lost : w.Replaces c → undoFwd log c'.idmap.fwd w.id = none
  dead : ∀ id, (∀ u ∈ log, u.about ≠ some id) →
    c'.idmap.dead id = c.idmap.dead id ∨ id = w.id ∧ w.Replaces c
  brings : w.Brings c → ∃ u ∈ log, u.about = some w.id
  entered : ∀ u ∈ log, u.about = some w.id → c.idmap.fwd w.id ≠ none ∨ w.Brings c

end Write

namespace Draft

variable {d : Draft} {order : RangeOrder} {id : PointID} {vec : Vec} {row : MetaRow}

theorem appendPoint_effect (hc : d.coll.WF) (order : RangeOrder) (id : PointID) (vec : Vec)
    (row : MetaRow) :
    let d' := (d.appendPoint order id vec row).1
    ∃ log, d'.undo = log ++ d.undo ∧ d.coll.Reverts d'.coll log ∧ d'.coll.WF ∧
      d.coll.Extends d'.coll ∧
      (log = [] ∧ d'.coll.idmap = d.coll.idmap ∧ ¬ Accepts d.coll id vec row ∨
        ∃ di loc, log = [.append di loc.slotPos id] ∧ d.coll.Fresh loc ∧
          Accepts d.coll id vec row ∧ d'.coll.idmap =
            ⟨update d.coll.idmap.fwd id (some loc), update d.coll.idmap.dead id false⟩) := by
  by_cases h : Accepts d.coll id vec row
  · obtain ⟨d', pos, di, loc, heq, hundo, hrev, hwf, hmap, hfresh, hext⟩ :=
      @appendPoint_accepted d order id vec row hc h
    rw [heq]
    exact ⟨_, hundo, hrev, hwf, hext, .inr ⟨di, loc, rfl, hfresh, h, hmap⟩⟩
  · obtain ⟨d', e, heq, hsame, hwf⟩ := @appendPoint_rejected d order id vec row hc h
    rw [heq]
    exact ⟨[], hsame.undo, hsame.near.reverts, hwf, hsame.near.extends,
      .inl ⟨rfl, hsame.idmap, h⟩⟩

end Draft

namespace Write

variable {c c' : Collection} {log : List Undo} {w : Write}

theorem Effect.same (hwf : c'.WF) (hrev : c.Reverts c' log) (hext : c.Extends c')
    (hmap : c'.idmap = c.idmap) (hlog : ∀ u ∈ log, u.about = none)
    (hw : ¬ w.Replaces c) (hb : ¬ w.Brings c) : Effect w c c' log where
  wf := hwf
  reverts := hrev
  grows := hext
  others _ _ := by rw [hmap]
  about u hu id hid := by rw [hlog u hu] at hid; cases hid
  self := .inl ⟨by rw [hmap], hw, hlog⟩
  undone _ := by
    rw [undoFwd_other (fun u hu => by rw [hlog u hu]; exact fun h => nomatch h), hmap]
  lost h := absurd h hw
  dead _ _ := .inl (by rw [hmap])
  brings h := absurd h hb
  entered u hu hid := by rw [hlog u hu] at hid; cases hid

theorem Effect.add {di : ℕ} {loc : IdLoc} (hwf : c'.WF)
    (hrev : c.Reverts c' [.append di loc.slotPos w.id]) (hext : c.Extends c')
    (hfresh : c.Fresh loc) (hnew : c.idmap.fwd w.id = none) (hb : w.Brings c)
    (hmap : c'.idmap = ⟨update c.idmap.fwd w.id (some loc), update c.idmap.dead w.id false⟩)
    (hw : ¬ w.Replaces c) : Effect w c c' [.append di loc.slotPos w.id] where
  wf := hwf
  reverts := hrev
  grows := hext
  others id hid := by rw [hmap]; exact update_of_ne hid _ _
  about u hu id hid := by
    rw [mem_singleton.mp hu] at hid
    exact (Option.some.inj hid).symm
  self := .inr (.inr ⟨loc, by rw [hmap]; exact update_self .., hfresh⟩)
  undone _ := by
    rw [undoFwd_cons, undoFwd, foldl_nil, fwd, update_self, hnew]
  lost h := absurd h hw
  dead id hid := by
    rw [hmap]
    refine .inl (update_of_ne (fun heq => ?_) _ _)
    exact hid _ (mem_singleton_self _) (congrArg some heq.symm)
  brings _ := ⟨_, mem_singleton_self _, rfl⟩
  entered _ _ _ := .inr hb

theorem Replaces.live (h : w.Replaces c) : c.idmap.fwd w.id ≠ none := by
  cases w with
  | upsert order id vec row => exact h
  | insert | delete | updateMeta => exact h.elim

theorem Brings.new (h : w.Brings c) : c.idmap.fwd w.id = none := by
  cases w with
  | insert order id vec row | upsert order id vec row => exact Draft.Accepts.new h
  | delete | updateMeta => exact h.elim

theorem Effect.replace {c₁ : Collection} {di slot : ℕ} (hw : w.Replaces c)
    (hrev : c.Reverts c₁ [.replace di slot]) (hext : c.Extends c₁)
    (hmap : c₁.idmap = ⟨update c.idmap.fwd w.id none, update c.idmap.dead w.id true⟩)
    (hwf : c'.WF) (hrev' : c₁.Reverts c' log) (hext' : c₁.Extends c')
    (hlog : log = [] ∧ c'.idmap = c₁.idmap ∨
      ∃ di' loc, log = [.append di' loc.slotPos w.id] ∧ c₁.Fresh loc ∧ c'.idmap =
        ⟨update c₁.idmap.fwd w.id (some loc), update c₁.idmap.dead w.id false⟩) :
    Effect w c c' (log ++ [.replace di slot]) := by
  -- in both cases the point has no place or a fresh one, and undoing the append takes it away
  obtain ⟨x, dead, hmap', hx, habout, hundone⟩ : ∃ x dead,
      c'.idmap = ⟨update c.idmap.fwd w.id x, update c.idmap.dead w.id dead⟩ ∧
      (x = none ∨ ∃ loc, x = some loc ∧ c.Fresh loc) ∧
      (∀ u ∈ log, ∀ id, u.about = some id → id = w.id) ∧
      undoFwd log c'.idmap.fwd w.id = none := by
    rcases hlog with ⟨rfl, hsame⟩ | ⟨di', loc, rfl, hfresh, hput⟩
    · refine ⟨none, true, hsame.trans hmap, .inl rfl, fun _ h => (nomatch h), ?_⟩
      rw [hsame, hmap]
      exact update_self ..
    · refine ⟨some loc, false, ?_, .inr ⟨loc, rfl, hfresh.mono hext⟩, ?_, ?_⟩
      · rw [hput, hmap, update_idem, update_idem]
      · intro u hu id hid
        rw [mem_singleton.mp hu] at hid
        exact (Option.some.inj hid).symm
      · exact update_self ..
  refine ⟨hwf, hrev.trans hrev', hext.trans hext', ?_, ?_, .inr ?_, fun h => absurd hw h, ?_, ?_,
    fun h => absurd h.new hw.live, fun _ _ _ => .inl hw.live⟩
  · intro id hid
    rw [hmap']
    exact update_of_ne hid _ _
  · intro u hu id hid
    rcases mem_append.mp hu with hu | hu
    · exact habout u hu id hid
    · rw [mem_singleton.mp hu] at hid
      cases hid
  · have hat : c'.idmap.fwd w.id = x := by rw [hmap']; exact update_self ..
    rw [hat]
    exact hx
  · intro _
    rw [undoFwd_append]
    exact hundone
  · intro id _
    rw [hmap']
    by_cases hid : id = w.id
    · exact .inr ⟨hid, hw⟩
    · exact .inl (update_of_ne hid _ _)

theorem run_effect {d : Draft} (hc : d.coll.WF) (w : Write) :
    ∃ log, (w.run d).1.undo = log ++ d.undo ∧ Effect w d.coll (w.run d).1.coll log := by
  cases w with
  | insert order id vec row =>
    obtain ⟨log, hundo, hrev, hwf, hext, ⟨rfl, hmap, hb⟩ | ⟨di, loc, rfl, hfresh, hb, hmap⟩⟩ :=
      d.appendPoint_effect hc order id vec row
    · exact ⟨[], hundo, .same hwf hrev hext hmap (fun _ h => absurd h not_mem_nil) (fun h => h) hb⟩
    · exact ⟨_, hundo, .add hwf hrev hext hfresh hb.new hb hmap fun h => h⟩
  | delete id =>
    rcases @run_delete d id hc with ⟨-, heq⟩ | ⟨loc, di, hl, hd, heq⟩ <;> rw [heq]
    · exact ⟨[], rfl, .same hc (.refl _) (Collection.Near.refl _).extends rfl
        (fun _ h => absurd h not_mem_nil) (fun h => h) fun h => h⟩
    · refine ⟨[_], rfl, hc.dropAt hl hd, hc.reverts_dropAt (hc.located id loc hl) hd _ rfl fun _ h => h,
        Collection.extends_dropAt _ _ _ _, fun _ hid => update_of_ne hid _ _, ?_, ?_, ?_,
        fun h => h.elim, ?_, fun h => h.elim, ?_⟩
      · intro u hu id' hid
        rw [mem_singleton.mp hu] at hid
        exact (Option.some.inj hid).symm
      · exact .inr (.inl (update_self ..))
      · intro _
        rw [undoFwd_cons, undoFwd, foldl_nil, fwd]
        exact (update_self ..).trans hl.symm
      · intro id' hid
        refine .inl (update_of_ne (fun heq => ?_) _ _)
        exact hid _ (mem_singleton_self _) (congrArg some heq.symm)
      · refine fun _ _ _ => .inl ?_
        rw [Write.id, hl]
        exact Option.some_ne_none loc
  | upsert order id vec row =>
    rcases @run_upsert d id hc order vec row with ⟨hl, heq⟩ | ⟨loc, di, hl, hd, heq⟩ <;> rw [heq]
    · obtain ⟨log, hundo, hrev, hwf, hext, ⟨rfl, hmap, hb⟩ | ⟨di, loc, rfl, hfresh, hb, hmap⟩⟩ :=
        d.appendPoint_effect hc order id vec row
      · exact ⟨[], hundo, .same hwf hrev hext hmap (fun _ h => absurd h not_mem_nil)
          (fun h => h hl) hb⟩
      · exact ⟨_, hundo, .add hwf hrev hext hfresh hb.new hb hmap fun h => h hl⟩
    · obtain ⟨log, hundo, hrev, hwf, hext, hlog⟩ := @Draft.appendPoint_effect
        ⟨d.coll.dropAt di id loc.slotPos, d.stamp, .replace di loc.slotPos :: d.undo⟩
        (hc.dropAt hl hd) order id vec row
      have hreplaces : Replaces d.coll (.upsert order id vec row) := by
        rw [Replaces, hl]
        exact Option.some_ne_none loc
      refine ⟨log ++ [replace di loc.slotPos], ?_, .replace hreplaces
        (hc.reverts_dropAt (hc.located id loc hl) hd _ rfl fun _ h => h)
        (Collection.extends_dropAt _ _ _ _) rfl hwf hrev hext ?_⟩
      · rw [run, hundo, append_assoc, singleton_append]
      · refine hlog.imp (fun h => ⟨h.1, h.2.1⟩) ?_
        rintro ⟨di, loc, h, hfresh, -, hmap⟩
        exact ⟨di, loc, h, hfresh, hmap⟩
  | updateMeta id row =>
    rcases @run_updateMeta d id hc row with ⟨-, heq⟩ | ⟨loc, log, -, hundo, hrev, hwf, -, hcells, hcoll⟩
    · rw [heq]
      exact ⟨[], rfl, .same hc (.refl _) (Collection.Near.refl _).extends rfl
        (fun _ h => absurd h not_mem_nil) (fun h => h) fun h => h⟩
    · refine ⟨log, hundo, .same hwf hrev ?_ (by rw [hcoll]) ?_ (fun h => h) fun h => h⟩
      · rw [hcoll]
        exact fun seq di s hd hs => ⟨hd, s, hs, le_refl _⟩
      · intro u hu
        obtain ⟨_, _, _, _, rfl⟩ := hcells u hu
        rfl

end Write

end VecDb.Storage

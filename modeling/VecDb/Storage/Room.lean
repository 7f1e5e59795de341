import VecDb.Storage.Owned

/-! # Room for more points

Positions are 32-bit numbers. Every call fills at most one slot more, so a collection has room for
as many calls as there are positions behind its directory.
-/

namespace VecDb.Storage

open List Nat Segment

namespace Collection

/-- The filled slots, and the one that is filled next, are numbered below a bound. -/
structure Within (c : Collection) (n : ℕ) : Prop where
  filled : ∀ di s, c.segs[di]? = some s → s.nextPos = 0 ∨ di * c.capacity.toNat + s.nextPos ≤ n
  next : c.segs.length * c.capacity.toNat ≤ n ∨
    ∃ di, c.openIdx = some di ∧ di + 1 = c.segs.length ∧ di * c.capacity.toNat ≤ n

variable {a c : Collection} {n : ℕ} {di : ℕ} {s : Segment} {f : Segment → Segment}

theorem Within.inGrid (h : c.Within n) (hn : n ≤ 2 ^ 32) : c.InGrid := by
  intro di slot s hl
  have hfilled := h.filled di s hl.seg
  have hslot := hl.filled
  omega

theorem WF.within (hc : c.WF) : c.Within (c.segs.length * c.capacity.toNat) where
  filled di s hs := by
    have hmem := mem_of_getElem? hs
    have hfits := (hc.segs s hmem).fits
    rw [hc.capacity s hmem] at hfits
    have hlt := (List.getElem?_eq_some_iff.mp hs).1
    have hmul := mul_le_mul_right c.capacity.toNat (succ_le_of_lt hlt)
    rw [succ_mul] at hmul
    omega
  next := .inl (le_refl _)

section

variable (h : c.Within n)
include h

theorem Within.mono {m : ℕ} (hm : n ≤ m) : c.Within m where
  filled di s hs := (h.filled di s hs).imp_right fun hle => hle.trans hm
  next := by
    rcases h.next with hle | ⟨di, hopen, hlast, hle⟩
    · exact .inl (hle.trans hm)
    · exact .inr ⟨di, hopen, hlast, hle.trans hm⟩

theorem Within.modify (hf : ∀ s, (f s).nextPos ≤ s.nextPos) {c' : Collection}
    (hsegs : c'.segs = c.segs.modify di f) (hcap : c'.capacity = c.capacity)
    (hopen : c'.openIdx = c.openIdx) : c'.Within n where
  filled k t ht := by
    rw [hsegs] at ht
    obtain ⟨s, hs, rfl⟩ := getElem?_modify_cases ht
    have hfilled := h.filled k s hs
    have hle := hf s
    rw [hcap]
    split <;> omega
  next := by
    rw [hsegs, hcap, hopen, length_modify]
    exact h.next

theorem Within.undo (u : Undo) : (c.undo u).Within n := by
  cases u with
  | append di slot id =>
    refine @Within.modify c n di (fun s => s.unappend slot) h ?_ _ rfl rfl rfl
    intro s
    dsimp only [unappend]
    split <;> omega
  | delete di slot id seq | replace di slot =>
    exact @Within.modify c n di (fun s => s.revive slot) h (fun _ => le_refl _) _ rfl rfl rfl
  | cell col seq slot prev =>
    rw [Collection.undo]
    split <;> exact ⟨h.filled, h.next⟩

theorem Within.undoAll (log : List Undo) : (c.undoAll log).Within n := by
  induction log generalizing c with
  | nil => exact h
  | cons u log ih => exact ih (h.undo u)

theorem Within.stampAll (seq : ℕ) (slots : List (ℕ × ℕ)) : (c.stampAll seq slots).Within n := by
  induction slots generalizing c with
  | nil => exact h
  | cons slot slots ih =>
    apply ih
    exact @Within.modify c n slot.1 (fun s => s.stamp slot.2 seq) h (fun _ => le_refl _) _ rfl rfl rfl

theorem Within.openSegment (hlast : c.segs.length * c.capacity.toNat ≤ n) :
    c.openSegment.Within n where
  filled di s hs := by
    rcases getElem?_concat_cases hs with hs | ⟨-, rfl⟩
    · exact h.filled di s hs
    · exact .inl rfl
  next := .inr ⟨c.segs.length, rfl, by simp [Collection.openSegment], hlast⟩

theorem Within.ensureOpen (hc : c.WF) : c.ensureOpen.Within n ∧
    ∀ di s, c.ensureOpen.openIdx = some di → c.ensureOpen.segs[di]? = some s →
      s.full = false → di * c.capacity.toNat + s.nextPos ≤ n := by
  have hnew : ∀ c' : Collection, c'.Within n → c'.capacity = c.capacity →
      c'.segs.length * c'.capacity.toNat ≤ n → c'.openSegment.Within n ∧
      ∀ di s, c'.openSegment.openIdx = some di → c'.openSegment.segs[di]? = some s →
        s.full = false → di * c.capacity.toNat + s.nextPos ≤ n := by
    intro c' h' hcap hlast
    refine ⟨h'.openSegment hlast, fun di s hopen hs _ => ?_⟩
    cases hopen
    rcases getElem?_concat_cases hs with hs | ⟨-, rfl⟩
    · exact absurd (List.getElem?_eq_some_iff.mp hs).1 (lt_irrefl _)
    · rw [hcap] at hlast
      exact hlast
  unfold Collection.ensureOpen
  split
  · rename_i di hopen
    have hs := getElem?_eq_getElem (hc.openIdx di hopen)
    have hcap := hc.capacity _ (mem_of_getElem? hs)
    split
    · -- the open segment is full: a new one follows the directory
      rename_i hfull
      rw [seg_eq hs, full, decide_eq_true_eq, hcap] at hfull
      refine hnew _ (@Within.modify c n di (fun s => { s with sealed := true }) h
        (fun _ => le_refl _) _ rfl rfl rfl) rfl ?_
      dsimp only [Collection.modifySeg]
      rw [length_modify]
      rcases h.next with hle | ⟨k, hk, hlast, hle⟩
      · exact hle
      · cases hopen.symm.trans hk
        have hpos := c.capacity_toNat_pos
        have hfilled := h.filled di _ hs
        rw [← hlast, succ_mul]
        omega
    · refine ⟨h, fun k s hk hks hfull => ?_⟩
      cases hopen.symm.trans hk
      have hlt : s.nextPos < c.capacity.toNat := by
        rw [full, decide_eq_false_iff_not, not_le] at hfull
        rwa [hc.capacity s (mem_of_getElem? hks)] at hfull
      rcases h.next with hle | ⟨j, hj, hlast, hle⟩
      · have hdi := (List.getElem?_eq_some_iff.mp hks).1
        have hmul := mul_le_mul_right c.capacity.toNat (succ_le_of_lt hdi)
        rw [succ_mul] at hmul
        omega
      · cases hopen.symm.trans hj
        have hfilled := h.filled di s hks
        omega
  · rename_i hopen
    refine hnew c h rfl ?_
    rcases h.next with hle | ⟨k, hk, -⟩
    · exact hle
    · rw [hopen] at hk
      cases hk

theorem Within.append (hs : c.segs[di]? = some s)
    (hnext : di * c.capacity.toNat + s.nextPos ≤ n) (hf : ∀ s, (f s).nextPos ≤ s.nextPos + 1)
    {c' : Collection} (hsegs : c'.segs = c.segs.modify di f) (hcap : c'.capacity = c.capacity)
    (hopen : c'.openIdx = c.openIdx) : c'.Within (n + 1) where
  filled k t ht := by
    rw [hsegs] at ht
    obtain ⟨s', hs', rfl⟩ := getElem?_modify_cases ht
    have hfilled := h.filled k s' hs'
    rw [hcap]
    split
    · subst_vars
      cases hs.symm.trans hs'
      have hle := hf s
      omega
    · omega
  next := by
    rw [hsegs, hcap, hopen, length_modify]
    exact (h.mono (le_succ n)).next

theorem Within.appendSlot (hs : c.segs[di]? = some s)
    (hnext : di * c.capacity.toNat + s.nextPos ≤ n) (order : RangeOrder) (id : PointID) (vec : Vec)
    (row : MetaRow) : (c.appendSlot order di id vec row).1.Within (n + 1) := by
  unfold Collection.appendSlot
  dsimp only [Collection.modifySeg]
  split
  · refine @Within.append c n di s (rollBack ∘ fun s => s.append c.codec id vec 0) h hs hnext
      ?_ _ ?_ rfl rfl
    · exact fun s => le_succ _
    · rw [modify_modify_eq]
  · exact @Within.append c n di s (fun s => s.append c.codec id vec 0) h hs hnext
      (fun _ => le_refl _) _ rfl rfl rfl

end

end Collection

namespace Draft

open Collection

variable {d : Draft} {n : ℕ} {order : RangeOrder} {id : PointID} {vec : Vec} {row : MetaRow}

theorem appendPoint_within (hc : d.coll.WF) (h : d.coll.Within n) :
    (d.appendPoint order id vec row).1.coll.Within (n + 1) := by
  unfold appendPoint
  split
  · exact h.mono (le_succ n)
  · rcases hid : d.coll.idmap.fwd id with _ | loc
    · obtain ⟨hopen, hnext⟩ := h.ensureOpen hc
      obtain ⟨di, s, hdi, hs, hfull⟩ := hc.open_ensureOpen
      have hcap : d.coll.ensureOpen.capacity = d.coll.capacity := hc.near_ensureOpen.capacity
      have hslot := hopen.appendSlot hs (by rw [hcap]; exact hnext di s hdi hs hfull) order id vec row
      rw [forwardLookup_none hid]
      dsimp only
      rw [show d.coll.ensureOpen.openIdx.getD 0 = di by rw [hdi, Option.getD_some]]
      rcases hr : d.coll.ensureOpen.appendSlot order di id vec row with ⟨c', e | _⟩ <;>
        rw [hr] at hslot
      · exact hslot
      · dsimp only
        split
        · exact @Within.modify c' _ di rollBack hslot (fun _ => sub_le _ _) _ rfl rfl rfl
        · exact ⟨hslot.filled, hslot.next⟩
    · rw [forwardLookup_some hid]
      exact h.mono (le_succ n)

end Draft

theorem Write.run_within {c : Collection} {n : ℕ} (hc : c.WF) (h : c.Within n) (w : Write) :
    (w.run { coll := c }).1.coll.Within (n + 1) := by
  have hdrop : ∀ di id slot, (c.dropAt di id slot).Within n := by
    intro di id slot
    refine @Collection.Within.modify c n di (fun s => s.tombstone slot) h ?_ _ rfl rfl rfl
    exact fun s => (s.tombstone_keeps slot).2.2.le
  cases w with
  | insert order id vec row => exact @Draft.appendPoint_within { coll := c } n _ _ _ _ hc h
  | delete id =>
    apply Collection.Within.mono _ (le_succ n)
    rcases @run_delete { coll := c } id hc with ⟨-, heq⟩ | ⟨loc, di, -, -, heq⟩ <;> rw [heq]
    · exact h
    · exact hdrop _ _ _
  | upsert order id vec row =>
    rcases @run_upsert { coll := c } id hc order vec row with ⟨-, heq⟩ | ⟨loc, di, hl, hd, heq⟩ <;>
      rw [heq]
    · exact @Draft.appendPoint_within { coll := c } n _ _ _ _ hc h
    · exact Draft.appendPoint_within (hc.dropAt hl hd) (hdrop _ _ _)
  | updateMeta id row =>
    apply Collection.Within.mono _ (le_succ n)
    rcases @run_updateMeta { coll := c } id hc row with ⟨-, heq⟩ | ⟨loc, log, -, -, -, -, -, -, hcoll⟩
    · rwa [heq]
    · rw [hcoll]
      exact ⟨h.filled, h.next⟩

end VecDb.Storage

import VecDb.Pager.Evict

/-! # The shape of the pool

Every frame holds one page of bytes and the index names frames of the pool. No
call between two checkpoints changes the header, and only allocating and freeing
change the freelist and the page count.
-/

namespace VecDb.Pager

open Bytes Vfs Format

structure Shaped (p : Pager) : Prop where
  frames : ∀ fr ∈ p.pool, fr.data.length = p.pageSize
  slots : ∀ pgno slot, p.index pgno = some slot → slot < p.pool.length
  hand : p.hand < p.pool.length
  text : p.header.textEncoding = 0

/-- The header, the freelist, the page count and the shape are kept. -/
structure Quiet (p q : Pager) : Prop where
  header : q.header = p.header
  free : q.free = p.free
  dbSize : q.dbSize = p.dbSize
  shaped : p.Shaped → q.Shaped

variable {p q : Pager} {slot : ℕ} {fr : Frame} {pgno : UInt32}

theorem Quiet.refl (p : Pager) : Quiet p p := ⟨rfl, rfl, rfl, id⟩

theorem Quiet.trans {r : Pager} (h : Quiet p q) (h' : Quiet q r) : Quiet p r :=
  ⟨h'.header.trans h.header, h'.free.trans h.free, h'.dbSize.trans h.dbSize,
    fun hs => h'.shaped (h.shaped hs)⟩

theorem Quiet.pageSize (h : Quiet p q) : q.pageSize = p.pageSize := by
  rw [Pager.pageSize, h.header]; rfl

theorem Shaped.length_frame (h : p.Shaped) (hs : slot < p.pool.length) :
    (p.frame slot).data.length = p.pageSize := h.frames _ (frame_mem hs)

theorem four_le_pageSize (p : Pager) : 4 ≤ p.pageSize :=
  le_trans (by omega) p.header.pageSize.ge

theorem quiet_setFrame (h : p.Shaped → slot < p.pool.length → fr.data.length = p.pageSize) :
    Quiet p (p.setFrame slot fr) := by
  refine ⟨rfl, rfl, rfl, fun hs => ⟨fun fr' hfr => ?_, ?_, ?_, hs.text⟩⟩
  · rcases List.mem_or_eq_of_mem_set hfr with hmem | rfl
    · exact hs.frames fr' hmem
    · by_cases hl : slot < p.pool.length
      · exact h hs hl
      · have hset : p.pool.set slot fr' = p.pool := List.set_eq_of_length_le (not_lt.mp hl)
        exact hs.frames fr' (hset ▸ hfr)
  · intro n i hi
    rw [length_setFrame]
    exact hs.slots n i hi
  · rw [length_setFrame]
    exact hs.hand

theorem quiet_writePage (p : Pager) (pgno : UInt32) (data : Bytes) :
    Quiet p (p.writePage pgno data) :=
  ⟨rfl, rfl, rfl, fun hs => ⟨hs.frames, hs.slots, hs.hand, hs.text⟩⟩

theorem quiet_index {index : UInt32 → Option ℕ}
    (h : p.Shaped → ∀ n i, index n = some i → i < p.pool.length) :
    Quiet p { p with index := index } :=
  ⟨rfl, rfl, rfl, fun hs => ⟨hs.frames, h hs, hs.hand, hs.text⟩⟩

theorem quiet_unindex (p : Pager) (pgno : UInt32) :
    Quiet p { p with index := Function.update p.index pgno none } := by
  refine quiet_index fun hs n i hi => ?_
  by_cases hn : n = pgno
  · subst hn; simp at hi
  · rw [Function.update_of_ne hn] at hi
    exact hs.slots n i hi

theorem Turned.pageSize (h : Turned p q) : q.pageSize = p.pageSize := by
  rw [Pager.pageSize, h.header]; rfl

theorem Turned.quiet (h : Turned p q) : Quiet p q := by
  refine ⟨h.header, h.free, h.dbSize, fun hs => ⟨fun fr hfr => ?_, ?_, h.hand hs.hand, ?_⟩⟩
  · obtain ⟨i, hi, rfl⟩ := List.mem_iff_getElem.mp hfr
    have hf := congrArg Frame.data (h.frame i)
    have hq : q.frame i = q.pool[i] := by simp [Pager.frame, List.getD, hi]
    rw [h.pageSize, ← hs.length_frame (h.length ▸ hi), ← hq]
    exact congrArg List.length hf
  · intro n i hi
    rw [h.length]
    exact hs.slots n i (h.index ▸ hi)
  · rw [h.header]; exact hs.text

theorem quiet_writeBack (p : Pager) (slot : ℕ) : Quiet p (p.writeBack slot) := by
  refine (quiet_writePage ..).trans (quiet_setFrame fun hs hl => ?_)
  have hlen := Shaped.length_frame hs hl
  have hfr : (p.frame slot).data.length = p.pageSize := hlen
  split
  · rw [length_writePageChecksum _ (hfr ▸ four_le_pageSize p)]; exact hfr
  · exact hfr

theorem quiet_release (p : Pager) (slot : ℕ) : Quiet p (p.release slot) := by
  have hwb : Quiet p (if (p.frame slot).dirty then p.writeBack slot else p) := by
    split
    · exact quiet_writeBack p slot
    · exact .refl p
  refine hwb.trans ((quiet_setFrame fun hs hl => ?_).trans (quiet_unindex _ _))
  exact Shaped.length_frame hs hl

theorem evict_quiet (p : Pager) (hs : p.Shaped) :
    Quiet p p.evict.1 ∧ ∀ slot, p.evict.2 = some slot → slot < p.evict.1.pool.length := by
  rcases evict_spec p hs.hand with ⟨q, he, ht⟩ | ⟨slot, he, hl, _⟩ | ⟨q, slot, he, ht, hl, _⟩
  · simp [he, ht.quiet]
  · rw [he]
    exact ⟨.refl p, fun i hi => by cases hi; exact hl⟩
  · rw [he]
    refine ⟨ht.quiet.trans (quiet_release q slot), fun i hi => ?_⟩
    cases hi
    simp only [release, length_setFrame]
    split
    · simpa [writeBack, writePage] using hl
    · exact hl

theorem quiet_bindFrame (pgno : UInt32) (hl : slot < p.pool.length) :
    Quiet p (p.bindFrame slot pgno) := by
  have hset : Quiet p (p.setFrame slot { p.frame slot with
      pgno := pgno, dirty := false, ref := false }) :=
    quiet_setFrame fun hs hl => hs.length_frame hl
  refine hset.trans (quiet_index fun hs n i hi => ?_)
  by_cases hn : n = pgno
  · subst hn
    rw [Function.update_self] at hi
    cases hi
    rwa [length_setFrame]
  · rw [Function.update_of_ne hn] at hi
    exact hs.slots n i hi

theorem admit_quiet (p : Pager) (pgno : UInt32) (hs : p.Shaped) : Quiet p (p.admitPage pgno).1 ∧
      ∀ slot, (p.admitPage pgno).2 = .ok slot → slot < (p.admitPage pgno).1.pool.length := by
  obtain ⟨hq, hl⟩ := evict_quiet p hs
  unfold admitPage
  rcases he : p.evict with ⟨q, _ | slot⟩ <;> rw [he] at hq hl
  · exact ⟨hq, fun i hi => nomatch hi⟩
  · have hslot : slot < q.pool.length := hl slot rfl
    refine ⟨hq.trans (quiet_bindFrame pgno hslot), fun i hi => ?_⟩
    cases hi
    simpa [bindFrame] using hslot

theorem quiet_pin (p : Pager) (slot : ℕ) : Quiet p (p.pin slot) :=
  quiet_setFrame fun hs hl => hs.length_frame hl

theorem quiet_unpin (p : Pager) (slot : ℕ) (dirty : Bool) : Quiet p (p.unpin slot dirty) :=
  quiet_setFrame fun hs hl => hs.length_frame hl

theorem quiet_poke (p : Pager) (slot off : ℕ) (bytes : Bytes) :
    Quiet p (p.poke slot off bytes) := by
  refine quiet_setFrame fun hs hl => ?_
  rw [length_overlay]
  exact hs.length_frame hl

theorem length_load (p : Pager) (pgno : UInt32) : (p.load pgno).length = p.pageSize := by
  unfold load MemData.readAt
  dsimp only
  split
  · simp
  · rename_i h
    have hlen : ¬ (slice p.file.live (p.offset pgno) p.pageSize).length < p.pageSize := by
      simp only [decide_eq_true_eq, not_or] at h
      exact h.2
    have hle : (slice p.file.live (p.offset pgno) p.pageSize).length ≤ p.pageSize := by
      simp [slice]
    omega

theorem get_quiet (p : Pager) (pgno : UInt32) (hs : p.Shaped) : Quiet p (p.get pgno).1 := by
  unfold get
  split
  · exact .refl p
  · split
    · exact quiet_pin p _
    · obtain ⟨hq, _⟩ := admit_quiet p pgno hs
      rcases ha : p.admitPage pgno with ⟨q, e | slot⟩ <;> rw [ha] at hq
      · exact hq
      · exact hq.trans ((quiet_setFrame fun _ _ => length_load ..).trans (quiet_pin _ _))

theorem shaped_nextPage (hs : p.Shaped) : p.nextPage.1.Shaped ∧ p.nextPage.1.header = p.header := by
  unfold nextPage
  split <;> exact ⟨⟨hs.frames, hs.slots, hs.hand, hs.text⟩, rfl⟩

theorem allocate_quiet (p : Pager) (hs : p.Shaped) : Quiet p.nextPage.1 p.allocate.1 ∧
      ∀ pgno slot, p.allocate.2 = .ok (pgno, slot) → pgno = p.nextPage.2 := by
  obtain ⟨hq, _⟩ := admit_quiet p.nextPage.1 p.nextPage.2 (shaped_nextPage hs).1
  unfold allocate
  rcases ha : p.nextPage.1.admitPage p.nextPage.2 with ⟨q, e | slot⟩ <;> rw [ha] at hq
  · exact ⟨hq, fun n i h => nomatch h⟩
  · refine ⟨hq.trans ((quiet_setFrame fun _ _ => by simp).trans (quiet_pin _ _)), fun n i h => ?_⟩
    cases h
    rfl

theorem quiet_dropFrame (p : Pager) (pgno : UInt32) : Quiet p (p.dropFrame pgno) := by
  unfold dropFrame
  split
  · rename_i slot _
    have hset : Quiet p (p.setFrame slot { p.frame slot with
        pgno := 0, dirty := false, ref := false }) :=
      quiet_setFrame fun hs hl => hs.length_frame hl
    exact hset.trans (quiet_unindex _ pgno)
  · exact .refl p

end VecDb.Pager

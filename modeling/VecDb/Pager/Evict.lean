import VecDb.Pager.State

/-! # What an eviction does

A sweep turns the CLOCK hand and clears reference bits; apart from that it releases the victim, or
changes nothing when every frame is pinned. An allocation that finds no frame has already taken
its page.
-/

namespace VecDb.Pager

open Bytes Vfs Format List

variable {p q : Pager} {slot i : ℕ} {fr : Frame}

section Frames

@[simp] theorem frame_setFrame (h : slot < p.pool.length) :
    (p.setFrame slot fr).frame slot = fr := by
  simp [setFrame, frame, List.getD, h]

theorem frame_setFrame_ne (h : i ≠ slot) : (p.setFrame slot fr).frame i = p.frame i := by
  simp [setFrame, frame, List.getD, getElem?_set_ne h.symm]

@[simp] theorem length_setFrame : (p.setFrame slot fr).pool.length = p.pool.length := by
  simp [setFrame]

theorem frame_mem (h : slot < p.pool.length) : p.frame slot ∈ p.pool := by
  simp [frame, List.getD, h]

/-- The frame, whatever its reference bit. -/
def Frame.unref (fr : Frame) : Frame := { fr with ref := false }

end Frames

/-- The hand and the reference bits aside, the two pagers are the same. -/
structure Turned (p q : Pager) : Prop where
  file : q.file = p.file
  header : q.header = p.header
  index : q.index = p.index
  dbSize : q.dbSize = p.dbSize
  free : q.free = p.free
  length : q.pool.length = p.pool.length
  frame : ∀ i, (q.frame i).unref = (p.frame i).unref
  hand : p.hand < p.pool.length → q.hand < q.pool.length

theorem Turned.refl (p : Pager) : Turned p p := ⟨rfl, rfl, rfl, rfl, rfl, rfl, fun _ => rfl, id⟩

theorem Turned.trans {r : Pager} (h : Turned p q) (h' : Turned q r) : Turned p r :=
  ⟨h'.file.trans h.file, h'.header.trans h.header, h'.index.trans h.index,
    h'.dbSize.trans h.dbSize, h'.free.trans h.free, h'.length.trans h.length,
    fun i => (h'.frame i).trans (h.frame i), fun hh => h'.hand (h.hand hh)⟩

theorem Turned.pgno (h : Turned p q) (i : ℕ) : (q.frame i).pgno = (p.frame i).pgno :=
  congrArg (fun fr => fr.pgno) (h.frame i)

theorem Turned.pins (h : Turned p q) (i : ℕ) : (q.frame i).pins = (p.frame i).pins :=
  congrArg (fun fr => fr.pins) (h.frame i)

theorem Turned.dirty (h : Turned p q) (i : ℕ) : (q.frame i).dirty = (p.frame i).dirty :=
  congrArg (fun fr => fr.dirty) (h.frame i)

def pass (p : Pager) : Pager := { p with hand := (p.hand + 1) % p.pool.length }

/-- The sweep clears a reference bit and goes on. -/
def clear (p : Pager) : Pager := p.pass.setFrame p.hand { p.frame p.hand with ref := false }

/-- The sweep fails to write a frame back and goes on. -/
def fail (p : Pager) : Pager :=
  p.pass.setFrame p.hand { p.frame p.hand with data := p.stamped (p.frame p.hand) }

theorem sweep_succ (takes : ℕ → Bool) (p : Pager) (n : ℕ) :
    p.sweep takes (n + 1) = if (p.frame p.hand).pins ≠ 0 then p.pass.sweep takes n
      else if (p.frame p.hand).ref then p.clear.sweep takes n
      else if (p.frame p.hand).dirty ∧ takes n = false then p.fail.sweep takes n
      else (p.pass.release p.hand, some p.hand) := rfl

theorem turned_pass (p : Pager) : Turned p p.pass :=
  ⟨rfl, rfl, rfl, rfl, rfl, rfl, fun _ => rfl,
    fun h => Nat.mod_lt _ (Nat.lt_of_le_of_lt (Nat.zero_le _) h)⟩

theorem turned_clear (p : Pager) : Turned p p.clear := by
  refine ⟨rfl, rfl, rfl, rfl, rfl, length_setFrame, fun i => ?_, fun h => ?_⟩
  · by_cases hi : i = p.hand
    · subst hi
      by_cases hl : p.hand < p.pool.length
      · rw [clear, frame_setFrame (show p.hand < p.pass.pool.length from hl)]
        rfl
      · simp [clear, pass, setFrame, Pager.frame, List.getD,
          getElem?_eq_none (not_lt.mp hl), set_eq_of_length_le (not_lt.mp hl)]
    · rw [clear, frame_setFrame_ne hi]
      rfl
  · rw [clear, length_setFrame]
    exact (turned_pass p).hand h

theorem sweep_spec (p : Pager) (n : ℕ) (hh : p.hand < p.pool.length) :
    (∃ q, p.sweep (fun _ => true) n = (q, none) ∧ Turned p q) ∨
      ∃ q slot, p.sweep (fun _ => true) n = (q.release slot, some slot) ∧ Turned p q ∧
        slot < q.pool.length ∧ (q.frame slot).pins = 0 := by
  induction n generalizing p with
  | zero => exact .inl ⟨p, rfl, .refl p⟩
  | succ n ih =>
    have hpass := turned_pass p
    have hclear := turned_clear p
    rw [sweep_succ]
    split
    · -- pinned: passed over
      rcases ih _ (hpass.hand hh) with ⟨q, hq, ht⟩ | ⟨q, slot, hq, ht, hrest⟩
      · exact .inl ⟨q, hq, hpass.trans ht⟩
      · exact .inr ⟨q, slot, hq, hpass.trans ht, hrest⟩
    · rename_i hpin
      split
      · -- recently used: its reference bit is cleared
        rcases ih _ (hclear.hand hh) with ⟨q, hq, ht⟩ | ⟨q, slot, hq, ht, hrest⟩
        · exact .inl ⟨q, hq, hclear.trans ht⟩
        · exact .inr ⟨q, slot, hq, hclear.trans ht, hrest⟩
      · rw [if_neg (by simp)]
        exact .inr ⟨_, p.hand, rfl, hpass, hh, not_not.mp hpin⟩

/-- An eviction finds an unbound frame, releases an unpinned one, or finds none. -/
theorem evict_spec (p : Pager) (hh : p.hand < p.pool.length) :
    (∃ q, p.evict = (q, none) ∧ Turned p q) ∨
      (∃ slot, p.evict = (p, some slot) ∧ slot < p.pool.length ∧ (p.frame slot).pgno = 0 ∧
        (p.frame slot).pins = 0) ∨
      ∃ q slot, p.evict = (q.release slot, some slot) ∧ Turned p q ∧ slot < q.pool.length ∧
        (q.frame slot).pins = 0 ∧ (q.frame slot).pgno ≠ 0 := by
  unfold evict
  split
  · rename_i slot hfind
    obtain ⟨hlt, hp, _⟩ := findIdx?_eq_some_iff_getElem.mp hfind
    refine .inr (.inl ⟨slot, rfl, hlt, ?_⟩)
    simpa [frame, List.getD, hlt] using hp
  · rename_i hnone
    rcases sweep_spec p (2 * p.pool.length) hh with h | ⟨q, slot, hq, ht, hlt, hpins⟩
    · exact .inl h
    · refine .inr (.inr ⟨q, slot, hq, ht, hlt, hpins, fun h0 => ?_⟩)
      have hbound := findIdx?_eq_none_iff.mp hnone (p.frame slot)
        (frame_mem (ht.length ▸ hlt))
      simp [← ht.pgno, ← ht.pins, h0, hpins] at hbound

section Turn

/-- The slot the hand reaches in `k` steps. -/
def ahead (p : Pager) (k : ℕ) : ℕ := (p.hand + k) % p.pool.length

/-- The sweep takes the frame that it reaches in `k` steps: one that is not pinned, whose reference
bit is clear by then, and which is written back if it is dirty. -/
def Yields (p : Pager) (takes : Bool) (k : ℕ) : Prop :=
  (p.frame (p.ahead k)).pins = 0 ∧ ((p.frame (p.ahead k)).ref = true → p.pool.length ≤ k) ∧
    ((p.frame (p.ahead k)).dirty = true → takes = true)

instance (p : Pager) (takes : Bool) (k : ℕ) : Decidable (p.Yields takes k) :=
  inferInstanceAs (Decidable (_ ∧ _))

/-- The frame whose turn it is: the first that holds no page, or else the first the sweep takes. -/
def turn (p : Pager) (takes : ℕ → Bool) : Option ℕ :=
  (p.pool.findIdx? fun fr => fr.pgno = 0 ∧ fr.pins = 0).or
    (((List.range (2 * p.pool.length)).find? fun k =>
      p.Yields (takes (2 * p.pool.length - 1 - k)) k).map p.ahead)

/-- Where the hand is after one step, the frame ahead yields just if it did before. -/
theorem yields_step (hh : p.hand < p.pool.length) (hlen : q.pool.length = p.pool.length)
    (hhand : q.hand = (p.hand + 1) % p.pool.length)
    (hpins : ∀ i, (q.frame i).pins = (p.frame i).pins)
    (hdirty : ∀ i, (q.frame i).dirty = (p.frame i).dirty)
    (href : ∀ i, i ≠ p.hand → (q.frame i).ref = (p.frame i).ref)
    (hself : (p.frame p.hand).pins ≠ 0 ∨ (q.frame p.hand).ref = false) (k : ℕ) :
    q.ahead k = p.ahead (k + 1) ∧ ∀ b, q.Yields b k ↔ p.Yields b (k + 1) := by
  have hahead : q.ahead k = p.ahead (k + 1) := by
    rw [ahead, ahead, hlen, hhand, Nat.mod_add_mod]
    congr 1
    omega
  refine ⟨hahead, fun b => ?_⟩
  unfold Yields
  rw [hahead, hpins, hdirty, hlen]
  refine and_congr_right fun hp => and_congr_left fun _ => ?_
  by_cases hi : p.ahead (k + 1) = p.hand
  · -- the hand is back at this frame, after a whole turn
    have hturn : p.pool.length ≤ k + 1 := by
      by_contra hlt
      unfold ahead at hi
      rcases Nat.lt_or_ge (p.hand + (k + 1)) p.pool.length with h | h
      · rw [Nat.mod_eq_of_lt h] at hi
        omega
      · rw [Nat.mod_eq_sub_mod h, Nat.mod_eq_of_lt (by omega)] at hi
        omega
    rw [hi] at hp ⊢
    have hclear := hself.resolve_left (not_not.mpr hp)
    simp [hclear, hturn]
  · rw [href _ hi]
    refine imp_congr_right fun _ => ⟨fun h => by omega, fun h => ?_⟩
    have hne : k + 1 ≠ p.pool.length := by
      intro heq
      rw [ahead, heq, Nat.add_mod_right, Nat.mod_eq_of_lt hh] at hi
      exact hi rfl
    omega

/-- One step further, the frames ahead are one step nearer. -/
theorem find_ahead_succ {takes : ℕ → Bool} {n : ℕ}
    (hstep : ∀ k, q.ahead k = p.ahead (k + 1) ∧ ∀ b, q.Yields b k ↔ p.Yields b (k + 1))
    (hnot : ¬ p.Yields (takes n) 0) :
    ((List.range n).find? fun k => q.Yields (takes (n - 1 - k)) k).map q.ahead =
      ((List.range (n + 1)).find? fun k => p.Yields (takes (n + 1 - 1 - k)) k).map p.ahead := by
  rw [range_succ_eq_map, find?_cons_of_neg (by simpa using hnot), find?_map, Option.map_map]
  have hfind : (fun k => decide (q.Yields (takes (n - 1 - k)) k)) =
      (fun k => decide (p.Yields (takes (n + 1 - 1 - k)) k)) ∘ Nat.succ := by
    funext k
    simp only [(hstep k).2]
    rw [show n - 1 - k = n + 1 - 1 - (k + 1) by omega]
    rfl
  rw [hfind]
  exact congrArg (Option.map · _) (funext fun k => (hstep k).1)

theorem frame_pass_setFrame (hh : p.hand < p.pool.length) (fr : Frame) :
    (p.pass.setFrame p.hand fr).frame p.hand = fr :=
  frame_setFrame (show p.hand < p.pass.pool.length from hh)

/-- A failing write-back changes no field of a frame but its data. -/
theorem fail_keeps (hh : p.hand < p.pool.length) {α : Type} {f : Frame → α}
    (hf : ∀ d, f { p.frame p.hand with data := d } = f (p.frame p.hand)) (i : ℕ) :
    f (p.fail.frame i) = f (p.frame i) := by
  by_cases hi : i = p.hand
  · rw [hi, fail, frame_pass_setFrame hh, hf]
  · exact congrArg f (frame_setFrame_ne hi)

theorem sweep_turn (takes : ℕ → Bool) (p : Pager) (hh : p.hand < p.pool.length) (n : ℕ) :
    (p.sweep takes n).2 =
      ((List.range n).find? fun k => p.Yields (takes (n - 1 - k)) k).map p.ahead := by
  induction n generalizing p with
  | zero => rfl
  | succ n ih =>
    have h0 : p.ahead 0 = p.hand := Nat.mod_eq_of_lt hh
    have hmod : (p.hand + 1) % p.pool.length < p.pool.length := Nat.mod_lt _ (by omega)
    rw [sweep_succ]
    split
    · rename_i hpin
      exact (ih _ hmod).trans (find_ahead_succ (yields_step hh rfl rfl (fun _ => rfl) (fun _ => rfl)
        (fun _ _ => rfl) (.inl hpin)) fun h => hpin (h0 ▸ h.1))
    · rename_i hpin
      split
      · rename_i href
        refine (ih _ (by rwa [clear, length_setFrame])).trans (find_ahead_succ
          (yields_step hh length_setFrame rfl ?_ ?_ ?_ ?_) fun h => ?_)
        · exact fun i => (turned_clear p).pins i
        · exact fun i => (turned_clear p).dirty i
        · exact fun i hi => congrArg Frame.ref (frame_setFrame_ne hi)
        · exact .inr (by rw [clear, frame_pass_setFrame hh])
        · have := h.2.1 (h0 ▸ href)
          omega
      · rename_i href
        split
        · rename_i hfail
          refine (ih _ (by rwa [fail, length_setFrame])).trans (find_ahead_succ
            (yields_step hh length_setFrame rfl (fail_keeps hh fun _ => rfl)
              (fail_keeps hh fun _ => rfl) (fun i _ => fail_keeps hh (fun _ => rfl) i) (.inr ?_))
            fun h => ?_)
          · exact (fail_keeps hh (fun _ => rfl) _).trans (Bool.eq_false_iff.mpr href)
          · have := h.2.2 (h0 ▸ hfail.1)
            simp [hfail.2] at this
        · rename_i hfail
          have hyields : p.Yields (takes (n + 1 - 1 - 0)) 0 := by
            refine ⟨h0 ▸ not_not.mp hpin, fun h => absurd (h0 ▸ h) href, fun h => ?_⟩
            by_contra ht
            exact hfail ⟨h0 ▸ h, Bool.eq_false_iff.mpr ht⟩
          rw [range_succ_eq_map, find?_cons_of_pos (by simpa using hyields), Option.map_some, h0]

theorem evict_turn (takes : ℕ → Bool) (hh : p.hand < p.pool.length) :
    (p.evict takes).2 = p.turn takes := by
  rcases hfind : p.pool.findIdx? fun fr => fr.pgno = 0 ∧ fr.pins = 0 with _ | slot <;>
    rw [evict, turn, hfind]
  · exact sweep_turn takes p hh _
  · rfl

theorem evict_none (p : Pager) (hh : p.hand < p.pool.length) (he : p.evict.2 = none) :
    ∀ i < p.pool.length, (p.frame i).pins ≠ 0 := by
  intro i hi hpin
  rw [evict_turn _ hh, turn, Option.or_eq_none_iff, Option.map_eq_none_iff, find?_eq_none] at he
  -- on its second turn the hand comes to the frame
  let k := (i + p.pool.length - p.hand) % p.pool.length + p.pool.length
  have hahead : p.ahead k = i := by
    rw [ahead, ← Nat.add_assoc, Nat.add_mod_right, Nat.add_mod_mod, ← Nat.add_sub_assoc (by omega),
      Nat.add_sub_cancel_left, Nat.add_mod_right, Nat.mod_eq_of_lt hi]
  have hlt := Nat.mod_lt (i + p.pool.length - p.hand) (show 0 < p.pool.length by omega)
  refine he.2 k (mem_range.mpr (by omega)) (decide_eq_true ⟨?_, fun _ => ?_, fun _ => rfl⟩)
  · rw [hahead, hpin]
  · exact Nat.le_add_left _ _

end Turn

section Victim

theorem index_release (ht : Turned p q) : (q.release slot).index =
    Function.update p.index (p.frame slot).pgno none := by
  rw [← ht.index, ← ht.pgno, release]
  split <;> rfl

/-- The frame was taken from its page, and nothing else changed in the pool. -/
structure Evicts (p q : Pager) (slot : ℕ) : Prop where
  unpinned : (q.frame slot).pins = 0
  unindexed : ∀ n, q.index n ≠ some slot
  written : (p.frame slot).dirty = true → (p.frame slot).pgno ≠ 0 →
    slice q.file.live (p.offset (p.frame slot).pgno) (p.stamped (p.frame slot)).length =
      p.stamped (p.frame slot)
  others : ∀ i, i ≠ slot → (q.frame i).unref = (p.frame i).unref

/-- What the release of a frame does, but for other entries of the index that name it. -/
theorem Evicts.release (hb : ∀ n, p.index n = some slot → n = (p.frame slot).pgno)
    (ht : Turned p q) (hlt : slot < q.pool.length) (hpin : (q.frame slot).pins = 0) :
    Evicts p (q.release slot) slot := by
  have hfr := ht.frame slot
  refine ⟨?_, fun n hn => ?_, fun hdirty _ => ?_, fun i hi => ?_⟩
  · rw [← hpin, Pager.release]
    split <;> simp [writeBack, writePage, setFrame, frame, List.getD, hlt]
  · rw [index_release ht] at hn
    by_cases he : n = (p.frame slot).pgno
    · rw [he, Function.update_self] at hn
      cases hn
    · rw [Function.update_of_ne he] at hn
      exact he (hb n hn)
  · have hdata : (p.frame slot).data = (q.frame slot).data := (congrArg Frame.data hfr).symm
    have hd : (q.frame slot).dirty = true := (congrArg Frame.dirty hfr).trans hdirty
    rw [stamped, offset, pageSize, ← ht.pgno, hdata, ← ht.header, Pager.release, hd, if_pos rfl]
    exact slice_writeAt_self ..
  · rw [← ht.frame i, Pager.release]
    split <;> simp [writeBack, writePage, setFrame, frame, List.getD, getElem?_set_ne hi.symm]

/-- An eviction with an unpinned frame in the pool is right just if the index names the frame whose
turn it is for no page but the one it holds. -/
theorem evict_finds_victim_iff (hh : p.hand < p.pool.length) :
    ((∃ i < p.pool.length, (p.frame i).pins = 0) →
      ∃ slot < p.pool.length, p.evict.2 = some slot ∧ Evicts p p.evict.1 slot) ↔
    ∀ slot, p.turn (fun _ => true) = some slot → ∀ n, p.index n = some slot →
      n = (p.frame slot).pgno ∧ n ≠ 0 := by
  rw [← evict_turn _ hh]
  rcases evict_spec p hh with ⟨q, he, -⟩ | ⟨slot, he, hl, h0, hp⟩ | ⟨q, slot, he, ht, hl, hp, h0⟩
  · refine iff_of_true (fun ⟨i, hi, hpin⟩ => absurd hpin ?_) ?_
    · exact evict_none p hh (by rw [he]) i hi
    · rw [he]
      exact fun _ h => nomatch h
  · rw [he]
    constructor
    · rintro h _ ⟨⟩ n hn
      obtain ⟨_, -, ⟨⟩, hev⟩ := h ⟨slot, hl, hp⟩
      exact absurd hn (hev.unindexed n)
    · refine fun h _ => ⟨slot, hl, rfl, hp, fun n hn => ?_, fun _ h => absurd h0 h, fun _ _ => rfl⟩
      obtain ⟨heq, hne⟩ := h slot rfl n hn
      exact hne (heq.trans h0)
  · rw [he]
    rw [ht.pgno] at h0
    have hl' := ht.length ▸ hl
    constructor
    · rintro h _ ⟨⟩ n hn
      obtain ⟨_, -, ⟨⟩, hev⟩ := h ⟨slot, hl', ht.pins slot ▸ hp⟩
      have hunindexed := hev.unindexed n
      rw [index_release ht] at hunindexed
      by_cases heq : n = (p.frame slot).pgno
      · exact ⟨heq, heq ▸ h0⟩
      · rw [Function.update_of_ne heq] at hunindexed
        exact absurd hn hunindexed
    · exact fun h _ => ⟨slot, hl', rfl, .release (fun n hn => (h slot rfl n hn).1) ht hl hp⟩

def oneFrame : Pager := newPager .empty (newHeader ⟨4096, rfl⟩ 0) 1 1

/-- Three frames: one is pinned, the other two are dirty and have been used. -/
def fullPool : Pager :=
  let p := newPager .empty (newHeader ⟨4096, rfl⟩ 0) 3 1
  (p.allocate.1.allocate.1.unpin 1 true).allocate.1.unpin 2 true

theorem fullPool_index {n : UInt32} {slot : ℕ} (h : fullPool.index n = some slot) :
    n = (fullPool.frame slot).pgno ∧ n ≠ 0 := by
  change Function.update (Function.update (Function.update (fun _ => none) 2 (some 0)) 3 (some 1)) 4
    (some 2) n = _ at h
  simp only [Function.update_apply] at h
  split_ifs at h <;> cases h <;> subst_vars <;> exact ⟨rfl, by decide⟩

theorem evict_finds_victim_full :
    (fullPool.frame 1).dirty = true ∧ (fullPool.frame 1).pgno = 3 ∧ fullPool.evict.2 = some 1 ∧
      Evicts fullPool fullPool.evict.1 1 := by
  obtain ⟨slot, -, hs, h⟩ := (evict_finds_victim_iff (p := fullPool) (by decide)).mpr
    (fun _ _ _ h => fullPool_index h) ⟨1, by decide, rfl⟩
  obtain rfl : 1 = slot := Option.some.inj ((show fullPool.evict.2 = some 1 from rfl).symm.trans hs)
  exact ⟨rfl, rfl, hs, h⟩

/-- Page 0 was freed and handed out again: its frame comes back from `evict` still indexed. -/
theorem null_page_stays_indexed :
    ((oneFrame.freePage 0).allocate.1.unpin 0 false).evict.2 = some 0 ∧
      ((oneFrame.freePage 0).allocate.1.unpin 0 false).evict.1.index 0 = some 0 :=
  ⟨rfl, rfl⟩

end Victim

section Allocate

theorem nextPage_takes (p : Pager) : p.nextPage.1.pool = p.pool ∧ p.nextPage.1.hand = p.hand ∧
    ¬ (p.nextPage.1.free = p.free ∧ p.nextPage.1.dbSize = p.dbSize) := by
  unfold nextPage
  split
  · rename_i hlast
    refine ⟨rfl, rfl, fun h => ?_⟩
    have hlen := congrArg List.length h.1
    rw [length_dropLast] at hlen
    have := length_pos_of_mem (mem_of_getLast? hlast)
    omega
  · exact ⟨rfl, rfl, fun h => by simp at h⟩

theorem sweep_keeps (takes : ℕ → Bool) (p : Pager) (n : ℕ) :
    (p.sweep takes n).1.free = p.free ∧ (p.sweep takes n).1.dbSize = p.dbSize := by
  induction n generalizing p with
  | zero => exact ⟨rfl, rfl⟩
  | succ n ih =>
    rw [sweep_succ]
    split_ifs
    · exact ih p.pass
    · exact ih p.clear
    · exact ih p.fail
    · rw [release]
      split <;> exact ⟨rfl, rfl⟩

/-- Whatever writes fail, a failed allocation keeps the freelist and the page count just if an
unpinned frame holds no page, or is clean or written back when the sweep takes it. -/
theorem failed_allocate_keeps_iff (takes : ℕ → Bool) (hh : p.hand < p.pool.length) :
    (∀ e, (p.allocate takes).2 = .error e →
      (p.allocate takes).1.free = p.free ∧ (p.allocate takes).1.dbSize = p.dbSize) ↔
    (∃ i < p.pool.length, (p.frame i).pgno = 0 ∧ (p.frame i).pins = 0) ∨
      ∃ k < 2 * p.pool.length, p.Yields (takes (2 * p.pool.length - 1 - k)) k := by
  obtain ⟨hpool, hhand, htakes⟩ := nextPage_takes p
  have hturn : (p.nextPage.1.evict takes).2 = p.turn takes := by
    have hahead : p.nextPage.1.ahead = p.ahead := by
      funext k
      rw [ahead, ahead, hpool, hhand]
    have hyields : ∀ b k, p.nextPage.1.Yields b k ↔ p.Yields b k := fun b k => by
      rw [Yields, Yields, hahead, frame, frame, hpool]
    rw [evict_turn _ (by rwa [hpool, hhand]), turn, turn]
    simp only [hyields, hahead, hpool]
  have hright : (∃ i < p.pool.length, (p.frame i).pgno = 0 ∧ (p.frame i).pins = 0) ∨
      (∃ k < 2 * p.pool.length, p.Yields (takes (2 * p.pool.length - 1 - k)) k) ↔
      p.turn takes ≠ none := by
    rw [turn, Ne, Option.or_eq_none_iff, not_and_or, Option.map_eq_none_iff, find?_eq_none,
      findIdx?_eq_none_iff]
    refine or_congr ?_ (by simp)
    constructor
    · rintro ⟨i, hi, h⟩ hall
      simpa [h] using hall _ (frame_mem hi)
    · intro h
      push Not at h
      obtain ⟨fr, hfr, h⟩ := h
      obtain ⟨i, hi, rfl⟩ := mem_iff_getElem.mp hfr
      exact ⟨i, hi, by simpa [frame, List.getD, hi] using h⟩
  rw [hright, ← hturn]
  unfold allocate admitPage
  have hkeep : (p.nextPage.1.evict takes).2 = none →
      (p.nextPage.1.evict takes).1.free = p.nextPage.1.free ∧
      (p.nextPage.1.evict takes).1.dbSize = p.nextPage.1.dbSize := by
    unfold evict
    split
    · exact fun h => nomatch h
    · exact fun _ => sweep_keeps takes _ _
  rcases he : p.nextPage.1.evict takes with ⟨q, _ | slot⟩ <;> rw [he] at hkeep
  · obtain ⟨hfree, hdb⟩ := hkeep rfl
    refine iff_of_false (fun h => htakes ?_) fun h => h rfl
    rw [← hfree, ← hdb]
    exact h _ rfl
  · exact iff_of_true (fun _ h => nomatch h) fun h => nomatch h

/-- With a write-back that succeeds the allocation takes a frame; with writes that fail it takes
none, and the page count has grown. -/
theorem failed_allocate_keeps_full :
    (∀ e, fullPool.allocate.2 = .error e → fullPool.allocate.1.free = fullPool.free ∧
      fullPool.allocate.1.dbSize = fullPool.dbSize) ∧
    (fullPool.allocate fun _ => false).2 = .error .exhausted ∧
    ¬ ∀ e, (fullPool.allocate fun _ => false).2 = .error e →
      (fullPool.allocate fun _ => false).1.free = fullPool.free ∧
      (fullPool.allocate fun _ => false).1.dbSize = fullPool.dbSize := by
  refine ⟨?_, rfl, ?_⟩
  · exact (failed_allocate_keeps_iff (p := fullPool) (fun _ => true) (by decide)).mpr
      (.inr ⟨4, by decide, by decide +kernel⟩)
  · rw [failed_allocate_keeps_iff (p := fullPool) _ (by decide)]
    decide +kernel

/-- The only frame is pinned: the second call fails, and its page is gone. -/
theorem failed_allocate_leaks : oneFrame.allocate.1.allocate.2 = .error .exhausted ∧
    oneFrame.allocate.1.dbSize = 2 ∧ oneFrame.allocate.1.allocate.1.dbSize = 3 :=
  ⟨rfl, rfl, rfl⟩

end Allocate

end VecDb.Pager

import VecDb.Base.Run
import VecDb.Pager.Image
import VecDb.Pager.Ledger

/-! # Page allocation

Runs of pager calls over one file, with closes and reopens in between. The pages handed out and
the freelist stay apart as long as the file is reopened only after a checkpoint that is still in
place, with every page of the database in the file.
-/

namespace VecDb.Pager

open Bytes Vfs Format

inductive Op
  | allocate
  | free (pgno : UInt32)
  | get (pgno : UInt32)
  | write (slot off : ℕ) (bytes : Bytes)
  | unpin (slot : ℕ) (dirty : Bool)
  | checkpoint
  /-- `Close`, which flushes nothing, and then `Open`. -/
  | reopen (cacheFrames : ℤ)
  deriving DecidableEq

/-- A pager in a run, with the pages its callers hold and the last checkpoint's file. -/
structure Run where
  pager : Pager
  alloc : List UInt32 := []
  saved : Bytes
  /-- The trunk pages that carry the freelist of the last checkpoint. -/
  trunks : List UInt32 := []
  touched : Bool := false

namespace Run

def start (p : Pager) : Run := { pager := p, saved := p.file.live }

def step (s : Run) : Op → Except Err Run
  | .allocate =>
    let (p, r) := s.pager.allocate
    .ok { s with
      pager := p
      alloc := match r with
        | .ok (pgno, _) => pgno :: s.alloc
        | .error _ => s.alloc
      touched := true }
  | .free pgno =>
    .ok { s with pager := s.pager.freePage pgno, alloc := s.alloc.erase pgno, touched := true }
  | .get pgno => .ok { s with pager := (s.pager.get pgno).1 }
  | .write slot off bytes => .ok { s with pager := s.pager.poke slot off bytes }
  | .unpin slot dirty => .ok { s with pager := s.pager.unpin slot dirty }
  | .checkpoint =>
    .ok { s with
      pager := s.pager.checkpoint
      saved := s.pager.checkpoint.file.live
      trunks := s.pager.trunkPages
      touched := false }
  | .reopen cacheFrames =>
    (openPager s.pager.file cacheFrames).map fun p => { s with pager := p }

/-- Page numbers do not run out, only pages in use are freed, and the file is reopened when the
last checkpoint describes it and it holds every page. -/
def Sound (s : Run) : Op → Prop
  | .allocate => s.pager.Roomy
  | .free pgno => pgno ∈ s.alloc
  | .reopen _ =>
    s.touched = false ∧ Kept s.pager.pageSize s.saved s.pager.file.live s.trunks ∧
      s.pager.dbSize ≤ UInt32.ofNat (s.pager.file.size / s.pager.pageSize)
  | _ => True

/-- The header page, the pages in use and the free pages are apart, and the next page
handed out is neither in use nor the header page. -/
structure Apart (s : Run) : Prop where
  header_alloc : 1 ∉ s.alloc
  header_free : 1 ∉ s.pager.free
  alloc_free : ∀ n ∈ s.alloc, n ∉ s.pager.free
  fresh : ∀ pgno slot, s.pager.allocate.2 = .ok (pgno, slot) → pgno ≠ 1 ∧ pgno ∉ s.alloc

structure Inv (s : Run) : Prop where
  shaped : s.pager.Shaped
  ledger : s.pager.Ledger s.alloc
  saved : ∃ h chain, Image s.saved h chain ∧ h.pageSize = s.pager.header.pageSize ∧
    chain.map Prod.fst = s.trunks.reverse ∧
    (s.touched = false → (listed chain).Perm s.pager.free)

variable {s t : Run} {q : Pager}

section

variable (hi : s.Inv)
include hi

theorem Inv.apart : s.Apart := by
  constructor
  · intro h
    have := hi.ledger.two_le h
    simp at this
  · exact fun h => (hi.ledger.free_ne h).2 rfl
  · exact fun n hn => hi.ledger.notMem_free hn
  · intro pgno slot h
    rw [(allocate_quiet s.pager hi.shaped).2 pgno slot h]
    exact hi.ledger.nextPage_fresh

theorem Inv.quiet (hq : Quiet s.pager q) : ({ s with pager := q } : Run).Inv := by
  obtain ⟨h, chain, himage, hps, hpages, hfree⟩ := hi.saved
  constructor
  · exact hq.shaped hi.shaped
  · exact hi.ledger.quiet hq
  · exact ⟨h, chain, himage, hps.trans (by rw [hq.header]), hpages, by
      simpa only [hq.free] using hfree⟩

theorem Inv.touch {alloc : List UInt32} (hs : q.Shaped)
    (hl : q.Ledger alloc) (hh : q.header = s.pager.header) :
    ({ s with pager := q, alloc := alloc, touched := true } : Run).Inv := by
  obtain ⟨h, chain, himage, hps, hpages, -⟩ := hi.saved
  exact ⟨hs, hl, h, chain, himage, hps.trans (by rw [hh]), hpages, fun h => nomatch h⟩

theorem Inv.allocate (hs : s.Sound .allocate) : ∃ t, s.step .allocate = .ok t ∧ t.Inv := by
  obtain ⟨hshape, hheader⟩ := shaped_nextPage hi.shaped
  obtain ⟨hq, hpage⟩ := allocate_quiet s.pager hi.shaped
  have hl := (hi.ledger.nextPage hs).quiet hq
  have hqs := hq.shaped hshape
  have hqh := hq.header.trans hheader
  rcases hr : s.pager.allocate with ⟨p, e | ⟨pgno, slot⟩⟩ <;> rw [hr] at hl hqs hqh hpage
  · exact ⟨_, by rw [step, hr], hi.touch hqs hl.lose hqh⟩
  · obtain rfl := hpage pgno slot rfl
    exact ⟨_, by rw [step, hr], hi.touch hqs hl hqh⟩

theorem Inv.free {pgno : UInt32} (hs : s.Sound (.free pgno)) :
    ∃ t, s.step (.free pgno) = .ok t ∧ t.Inv := by
  have hq := quiet_dropFrame s.pager pgno
  have hdrop := hq.shaped hi.shaped
  exact ⟨_, rfl, hi.touch ⟨hdrop.frames, hdrop.slots, hdrop.hand, hdrop.text⟩
    (hi.ledger.freePage hs) hq.header⟩

theorem Inv.checkpoint : ∃ t, s.step .checkpoint = .ok t ∧ t.Inv := by
  obtain ⟨hfree, hdb, -, hshape, chain, himage, hpages, hperm⟩ :=
    checkpoint_spec hi.shaped (fun n hn => hi.ledger.free_ne hn)
      (List.nodup_append.mp hi.ledger.nodup).2.1
  refine ⟨_, rfl, hshape, hi.ledger.perm hdb ?_, _, chain, himage, rfl, hpages, fun _ => ?_⟩
  all_goals simp only [hfree]
  · exact .refl _
  · exact hperm

theorem Inv.reopen {cacheFrames : ℤ} (hs : s.Sound (.reopen cacheFrames)) :
    ∃ t, s.step (.reopen cacheFrames) = .ok t ∧ t.Inv := by
  obtain ⟨h, chain, himage, hps, hpages, hfree⟩ := hi.saved
  obtain ⟨ht, hkept, hsize⟩ := hs
  have hnow : Image s.pager.file.live h chain := by
    apply himage.congr
    rw [hps, hpages]
    exact ⟨hkept.page1, hkept.header, fun q hq => hkept.pages q (List.mem_reverse.mp hq)⟩
  have hperm : (s.alloc ++ listed chain).Perm (s.alloc ++ s.pager.free) :=
    (hfree ht).append_left _
  have hpos := hi.ledger.pos
  have hdb : s.pager.dbSize ≤ UInt32.ofNat (s.pager.file.size / h.pageSize.val) := by
    rw [hps]; exact hsize
  have hne : UInt32.ofNat (s.pager.file.size / h.pageSize.val) ≠ 0 := by
    intro h0
    rw [h0, UInt32.le_iff_toNat_le] at hdb
    simp only [UInt32.toNat_zero] at hdb
    omega
  simp only [step, hnow.open cacheFrames, if_neg hne]
  refine ⟨_, rfl, shaped_newPager (decodeHeader_text himage.header), ⟨?_, fun n hn => ?_, ?_⟩,
    h, chain, himage, rfl, hpages, fun _ => .refl _⟩
  · exact hperm.nodup_iff.mpr hi.ledger.nodup
  · obtain ⟨h2, hle⟩ := hi.ledger.pages n (hperm.mem_iff.mp hn)
    exact ⟨h2, UInt32.le_trans hle hdb⟩
  · exact le_trans hpos (UInt32.le_iff_toNat_le.mp hdb)

theorem Inv.step (op : Op) (hs : s.Sound op) : ∃ t, s.step op = .ok t ∧ t.Inv := by
  cases op with
  | allocate => exact hi.allocate hs
  | free pgno => exact hi.free hs
  | get pgno => exact ⟨_, rfl, hi.quiet (get_quiet s.pager pgno hi.shaped)⟩
  | write slot off bytes => exact ⟨_, rfl, hi.quiet (quiet_poke ..)⟩
  | unpin slot dirty => exact ⟨_, rfl, hi.quiet (quiet_unpin ..)⟩
  | checkpoint => exact hi.checkpoint
  | reopen cacheFrames => exact hi.reopen hs

end

theorem start_inv {file : MemData} {opts : Options} {p : Pager} (h : create file opts = .ok p) :
    (start p).Inv := by
  obtain ⟨hshape, hfree, hdb, himage⟩ := create_spec h
  refine ⟨hshape, ⟨?_, ?_, ?_⟩, p.header, [], himage, rfl, rfl, fun _ => ?_⟩
  all_goals simp [start, hfree, hdb, listed]

/-- In every run whose calls are sound, the header page, the pages in use and the freelist
are pairwise apart, also after reopening. -/
theorem run_apart {file : MemData} {opts : Options} {p : Pager} {ops : List Op}
    (hc : create file opts = .ok p) (hs : Along step Sound (start p) ops) :
    ∃ s, exec step (start p) ops = .ok s ∧ s.Apart := by
  obtain ⟨s, he, hi⟩ := hs.exec (fun s op hi ho => Inv.step hi op ho) (start_inv hc)
  exact ⟨s, he, hi.apart⟩

section Evaluate

-- the pages are compared in a loop: page numbers are finitely many, and would all be tried
instance {ps : ℕ} {f g : Bytes} {pages : List UInt32} : Decidable (Kept ps f g pages) :=
  decidable_of_iff (ps ≤ g.length ∧ slice g 0 headerSize = slice f 0 headerSize ∧
      (pages.all fun q => decide (q.toNat * ps ≤ g.length) &&
        (pageAt ps g q.toNat == pageAt ps f q.toNat)) = true) <| by
    simp only [List.all_eq_true, Bool.and_eq_true, decide_eq_true_eq, beq_iff_eq]
    exact ⟨fun ⟨h1, h2, h3⟩ => ⟨h1, h2, h3⟩, fun ⟨h1, h2, h3⟩ => ⟨h1, h2, h3⟩⟩

instance (s : Run) : ∀ op, Decidable (s.Sound op)
  | .allocate => inferInstanceAs (Decidable (Roomy _))
  | .free _ => inferInstanceAs (Decidable (_ ∈ _))
  | .reopen _ => inferInstanceAs (Decidable (_ ∧ _))
  | .get _ | .write _ _ _ | .unpin _ _ | .checkpoint => .isTrue trivial

end Evaluate

theorem run_apart_reopened :
    ∃ p, create MemData.empty { pageSize := 4096, cacheFrames := 2 } = .ok p ∧
      ∃ s, exec step (start p) [.allocate, .unpin 0 true, .allocate, .unpin 1 true, .free 2,
        .checkpoint, .reopen 2, .allocate] = .ok s ∧ s.Apart := by
  have h : ∃ p, create MemData.empty { pageSize := 4096, cacheFrames := 2 } = .ok p ∧
      Along step Sound (start p) [.allocate, .unpin 0 true, .allocate, .unpin 1 true, .free 2,
        .checkpoint, .reopen 2, .allocate] := by decide +kernel
  obtain ⟨p, hc, hs⟩ := h
  exact ⟨p, hc, run_apart hc hs⟩

/-- Pages 3 and 4 are free at a checkpoint, and only page 3 is in the file: the reopened pager
hands out page 4 twice. -/
theorem reopened_hands_out_page_in_use :
    ∃ p, create MemData.empty { pageSize := 4096, cacheFrames := 3 } = .ok p ∧
      ∃ s, exec step (start p) [.allocate, .unpin 0 true, .allocate, .unpin 1 true,
        .allocate, .unpin 2 true, .free 4, .free 3, .checkpoint, .reopen 3,
        .allocate, .allocate] = .ok s ∧ s.alloc = [4, 3, 2] ∧ ¬ s.Apart := by
  have h : ∃ p, create MemData.empty { pageSize := 4096, cacheFrames := 3 } = .ok p ∧
      ∃ s, exec step (start p) [.allocate, .unpin 0 true, .allocate, .unpin 1 true,
        .allocate, .unpin 2 true, .free 4, .free 3, .checkpoint, .reopen 3,
        .allocate, .allocate] = .ok s ∧ s.alloc = [4, 3, 2] ∧
        ∃ r, s.pager.allocate.2 = .ok r ∧ r = (4, 2) := by decide +kernel
  obtain ⟨p, hc, s, hs, halloc, _, hr, rfl⟩ := h
  refine ⟨p, hc, s, hs, halloc, fun hapart => (hapart.fresh 4 2 hr).2 ?_⟩
  rw [halloc]
  exact List.mem_cons_self

end Run

end VecDb.Pager

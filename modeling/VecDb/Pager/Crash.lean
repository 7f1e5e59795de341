import VecDb.Pager.Allocation

/-! # Crashes after a checkpoint

Between two checkpoints the pager writes to the file only when it evicts a dirty
frame. As long as no such write hits a page of the persisted freelist, what a
crash leaves of the file still opens with that freelist.
-/

namespace VecDb.Pager

open Bytes Vfs Format

variable {p q : Pager} {base : Bytes} {trunks : List UInt32} {pgno : UInt32} {data : Bytes}

/-- The next eviction leaves the given pages and the header on file alone. -/
def Spares (p : Pager) (trunks : List UInt32) : Prop :=
  ∀ slot ∈ p.evict.2, (p.frame slot).dirty = true →
    (p.frame slot).pgno ∉ trunks ∧ ((p.frame slot).pgno = 1 →
      slice (p.frame slot).data 0 headerSize = slice p.file.live 0 headerSize)

namespace Run

/-- The calls between two checkpoints, none of which evicts a frame over the freelist. -/
def Spared (s : Run) : Op → Prop
  | .allocate => s.pager.nextPage.1.Spares s.trunks
  | .get pgno => s.pager.index pgno = none → s.pager.Spares s.trunks
  | .free _ | .write _ _ _ | .unpin _ _ => True
  | .checkpoint | .reopen _ => False

def files (s : Run) (ops : List Op) : List Bytes :=
  (visited step s ops).map fun t => t.pager.file.live

end Run

section WriteBack

theorem slice_writePage (h0 : pgno ≠ 0)
    (hd : data.length = p.pageSize) (hlen : p.pageSize ≤ p.file.live.length)
    (h1 : pgno = 1 → slice data 0 headerSize = slice p.file.live 0 headerSize) :
    slice (p.writePage pgno data).file.live 0 headerSize = slice p.file.live 0 headerSize := by
  have hle : headerSize ≤ p.pageSize := headerSize_le _
  simp only [writePage, MemData.live_writeAt]
  by_cases hone : pgno = 1
  · have hoff : p.offset pgno = 0 := by rw [offset_eq p h0, hone]; simp [pageOff]
    have hin : 0 + headerSize ≤ data.length := by omega
    rw [hoff, ← h1 hone, ← Nat.zero_add 0, ← slice_slice hin, Nat.zero_add, slice_writeAt_self]
  · have h2 : 1 < pgno.toNat := by
      have := one_le_toNat h0
      have : pgno.toNat ≠ 1 := fun h => hone (UInt32.toNat_inj.mp h)
      omega
    have hoff := @pageOff_le p.pageSize 1 pgno.toNat (le_refl 1) h2
    simp only [pageOff, Nat.sub_self, Nat.zero_mul] at hoff
    rw [offset_eq p h0]
    exact slice_writeAt_before (by simp only [pageOff]; omega) (by omega)

theorem kept_writePage (hk : Kept p.pageSize base p.file.live trunks)
    (ht : ∀ n ∈ trunks, n ≠ 0) (h0 : pgno ≠ 0) (hd : data.length = p.pageSize) (hne : pgno ∉ trunks)
    (h1 : pgno = 1 → slice data 0 headerSize = slice p.file.live 0 headerSize) :
    Kept p.pageSize base (p.writePage pgno data).file.live trunks := by
  have hsame := @writePage_same p pgno data trunks h0 hd hne
    fun n hn => ⟨ht n hn, (hk.pages n hn).1⟩
  constructor
  · exact hk.page1.trans (length_le_writeAt _)
  · rw [slice_writePage h0 hd hk.page1 h1]
    exact hk.header
  · exact fun n hn => ⟨(hsame n hn).1, (hsame n hn).2.trans (hk.pages n hn).2⟩

theorem kept_release {slot : ℕ} (hs : p.Shaped) (hk : Kept p.pageSize base p.file.live trunks)
    (ht : ∀ n ∈ trunks, n ≠ 0) (hslot : slot < p.pool.length) (h0 : (p.frame slot).pgno ≠ 0)
    (hsp : (p.frame slot).dirty = true → (p.frame slot).pgno ∉ trunks ∧ ((p.frame slot).pgno = 1 →
        slice (p.frame slot).data 0 headerSize = slice p.file.live 0 headerSize)) :
    Kept p.pageSize base (p.release slot).file.live trunks := by
  have hlen := hs.length_frame hslot
  unfold release
  by_cases hd : (p.frame slot).dirty = true
  · obtain ⟨hne, h1⟩ := hsp hd
    simp only [hd, if_true, writeBack, setFrame]
    apply kept_writePage hk ht h0 _ hne
    · intro hone
      rw [if_neg (not_not.mpr hone)]
      exact h1 hone
    · split
      · rw [length_writePageChecksum _ (hlen ▸ four_le_pageSize p)]
        exact hlen
      · exact hlen
  · simp only [hd, setFrame]
    exact hk

theorem kept_evict (hs : p.Shaped) (hk : Kept p.pageSize base p.file.live trunks)
    (ht : ∀ n ∈ trunks, n ≠ 0) (hsp : p.Spares trunks) :
    Kept p.pageSize base p.evict.1.file.live trunks := by
  unfold Spares at hsp
  rcases evict_spec p hs.hand with ⟨q, he, hq⟩ | ⟨slot, he, _⟩ | ⟨q, slot, he, hq, hl, _, h0⟩
  · rw [he, hq.file]
    exact hk
  · rw [he]
    exact hk
  · have hf := hq.frame slot
    simp only [Frame.unref, Frame.mk.injEq] at hf
    rw [he] at hsp ⊢
    rw [← hq.pageSize] at hk ⊢
    refine kept_release (hq.quiet.shaped hs) (hq.file ▸ hk) ht hl h0 fun hd => ?_
    rw [hf.1, hf.2.1, hq.file]
    exact hsp slot rfl (hf.2.2.2.1 ▸ hd)

end WriteBack

theorem admitPage_file (p : Pager) (pgno : UInt32) : (p.admitPage pgno).1.file = p.evict.1.file := by
  unfold admitPage
  rcases p.evict with ⟨q, _ | slot⟩ <;> rfl

theorem get_file (p : Pager) (pgno : UInt32) : (p.get pgno).1.file = p.file ∨
      p.index pgno = none ∧ (p.get pgno).1.file = p.evict.1.file := by
  unfold get
  split
  · exact .inl rfl
  · split
    · exact .inl rfl
    · rename_i hnone
      refine .inr ⟨hnone, ?_⟩
      have hfile := admitPage_file p pgno
      rcases ha : p.admitPage pgno with ⟨q, e | slot⟩ <;> rw [ha] at hfile <;> exact hfile

theorem nextPage_file (p : Pager) : p.nextPage.1.file = p.file := by
  unfold nextPage
  split <;> rfl

theorem allocate_file (p : Pager) : p.allocate.1.file = p.nextPage.1.evict.1.file := by
  have hfile := admitPage_file p.nextPage.1 p.nextPage.2
  unfold allocate
  rcases ha : p.nextPage.1.admitPage p.nextPage.2 with ⟨q, e | slot⟩ <;> rw [ha] at hfile <;> exact hfile

theorem dropFrame_file (p : Pager) (pgno : UInt32) : (p.dropFrame pgno).file = p.file := by
  unfold dropFrame
  split <;> rfl

namespace Run

variable {s t c : Run}

/-- Since the checkpointed state, the file has kept its header and its trunk pages. -/
structure Holds (c s : Run) : Prop where
  shaped : s.pager.Shaped
  pageSize : s.pager.pageSize = c.pager.pageSize
  trunks : s.trunks = c.trunks
  kept : Kept c.pager.pageSize c.saved s.pager.file.live c.trunks

theorem Holds.quiet {q : Pager} (hh : Holds c s) (hq : Quiet s.pager q)
    (hk : Kept s.pager.pageSize c.saved q.file.live c.trunks) : Holds c { s with pager := q } :=
  ⟨hq.shaped hh.shaped, hq.pageSize.trans hh.pageSize, hh.trunks, hh.pageSize ▸ hk⟩

theorem Holds.step (hh : Holds c s) (h0 : ∀ n ∈ c.trunks, n ≠ 0) {op : Op} (hs : s.Spared op)
    (ht : s.step op = .ok t) : Holds c t := by
  have hk : Kept s.pager.pageSize c.saved s.pager.file.live c.trunks := hh.pageSize ▸ hh.kept
  cases op with
  | allocate =>
    obtain ⟨hq, -⟩ := allocate_quiet s.pager hh.shaped
    obtain ⟨hshape, hheader⟩ := shaped_nextPage hh.shaped
    have hsize : s.pager.nextPage.1.pageSize = s.pager.pageSize := by
      rw [Pager.pageSize, hheader]; rfl
    have hev : Kept s.pager.pageSize c.saved s.pager.allocate.1.file.live c.trunks := by
      rw [allocate_file, ← hsize]
      exact kept_evict hshape (by rw [nextPage_file, hsize]; exact hk) h0 (hh.trunks ▸ hs)
    cases ht
    exact ⟨hq.shaped hshape, (hq.pageSize.trans hsize).trans hh.pageSize, hh.trunks,
      hh.pageSize ▸ hev⟩
  | free pgno =>
    have hq := quiet_dropFrame s.pager pgno
    have hsh := hq.shaped hh.shaped
    cases ht
    refine ⟨⟨hsh.frames, hsh.slots, hsh.hand, hsh.text⟩, hq.pageSize.trans hh.pageSize,
      hh.trunks, ?_⟩
    simp only [freePage, dropFrame_file]
    exact hh.kept
  | get pgno =>
    cases ht
    apply hh.quiet (get_quiet s.pager pgno hh.shaped)
    rcases get_file s.pager pgno with hf | ⟨hnone, hf⟩ <;> rw [hf]
    · exact hk
    · exact kept_evict hh.shaped hk h0 (hh.trunks ▸ hs hnone)
  | write slot off bytes =>
    cases ht
    exact hh.quiet (quiet_poke ..) hk
  | unpin slot dirty =>
    cases ht
    exact hh.quiet (quiet_unpin ..) hk
  | checkpoint | reopen cacheFrames => exact hs.elim

theorem kept_survives {ps : ℕ} {base f : Bytes} {versions : List Bytes} {pages : List UInt32}
    (h0 : ∀ n ∈ pages, n ≠ 0) (hps : headerSize ≤ ps) (hbase : Kept ps base base pages)
    (hv : ∀ v ∈ versions, Kept ps base v pages) (hf : Survives base versions f) :
    Kept ps base f pages := by
  have hpage1 := hbase.page1
  constructor
  · exact hpage1.trans hf.length
  · exact hf.slice (by omega) fun v hm => (hv v hm).header
  · intro n hn
    have hin := (hbase.pages n hn).1
    refine ⟨hin.trans hf.length, hf.slice ?_ fun v hm => ((hv v hm).pages n hn).2⟩
    rw [pageOff_add (one_le_toNat (h0 n hn))]
    exact hin

theorem Inv.checkpointed (hi : s.Inv) (hck : s.step .checkpoint = .ok c) :
    c.Inv ∧ c.saved = c.pager.file.live ∧ ∃ h chain, Image c.saved h chain ∧
      h.pageSize.val = c.pager.pageSize ∧ chain.map Prod.fst = c.trunks.reverse ∧
      (listed chain).Perm c.pager.free := by
  obtain ⟨c', hck', hic⟩ := hi.checkpoint
  cases hck.symm.trans hck'
  obtain ⟨h, chain, himage, hps, hpages, hperm⟩ := hic.saved
  have hsaved : c.saved = c.pager.file.live ∧ c.touched = false := by
    cases hck
    exact ⟨rfl, rfl⟩
  exact ⟨hic, hsaved.1, h, chain, himage, by rw [hps]; rfl, hpages, hperm hsaved.2⟩

/-- After a checkpoint in a sound run, and calls that evict no frame over its freelist, every file
a crash can leave opens with that freelist. -/
theorem crash_recovers_freelist {file crashed : MemData} {opts : Options} {p : Pager}
    {ops later : List Op} (hc : create file opts = .ok p) (hs : Along step Sound (start p) ops)
    (he : exec step (start p) ops = .ok s) (hck : s.step .checkpoint = .ok c)
    (hl : Along step Spared c later)
    (hf : Survives c.pager.file.live (c.files later) crashed.live) (cacheFrames : ℤ) :
    ∃ q q₀, openPager crashed cacheFrames = .ok q ∧
      openPager c.pager.file cacheFrames = .ok q₀ ∧ q.free = q₀.free ∧
      q.free.Perm c.pager.free ∧ ∀ n ∈ c.alloc, n ∉ q.free := by
  obtain ⟨s', he', hi⟩ := hs.exec (fun s op hi ho => Inv.step hi op ho) (start_inv hc)
  cases he.symm.trans he'
  obtain ⟨hic, hsaved, h, chain, himage, hval, hpages, hperm⟩ := hi.checkpointed hck
  have htrunk : ∀ n ∈ c.trunks, n ≠ 0 ∧ n.toNat * c.pager.pageSize ≤ c.saved.length := by
    intro n hn
    rw [← hval]
    exact himage.chainAt.pages n (by rw [hpages]; exact List.mem_reverse.mpr hn)
  have h0 : ∀ n ∈ c.trunks, n ≠ 0 := fun n hn => (htrunk n hn).1
  have hbase : Kept c.pager.pageSize c.saved c.saved c.trunks :=
    ⟨hval ▸ himage.page1, rfl, fun n hn => ⟨(htrunk n hn).2, rfl⟩⟩
  -- every version of the file since the checkpoint keeps the header and the trunk pages
  have hstart : Holds c c := ⟨hic.shaped, rfl, rfl, hsaved ▸ hbase⟩
  have hvisit := hl.visited (fun _ _ _ hh hsp ht => Holds.step hh h0 hsp ht) hstart
  have hkept : Kept c.pager.pageSize c.saved crashed.live c.trunks := by
    refine kept_survives h0 (headerSize_le _) hbase (fun v hv => ?_) (hsaved ▸ hf)
    obtain ⟨t, ht, rfl⟩ := List.mem_map.mp hv
    exact (hvisit t ht).kept
  have hcrash : Image crashed.live h chain := by
    apply himage.congr
    rw [hval, hpages]
    exact ⟨hkept.page1, hkept.header, fun n hn => hkept.pages n (List.mem_reverse.mp hn)⟩
  rw [hsaved] at himage
  refine ⟨_, _, hcrash.open cacheFrames, himage.open cacheFrames, ?_, hperm, fun n hn hmem => ?_⟩
  · rfl
  · exact hic.apart.alloc_free n hn (hperm.mem_iff.mp hmem)

section Evaluate

instance {p : Pager} {trunks : List UInt32} : Decidable (p.Spares trunks) :=
  inferInstanceAs (Decidable (∀ slot, p.evict.2 = some slot → ((p.frame slot).dirty = true →
    (p.frame slot).pgno ∉ trunks ∧ ((p.frame slot).pgno = 1 →
      slice (p.frame slot).data 0 headerSize = slice p.file.live 0 headerSize))))

instance (s : Run) : ∀ op, Decidable (s.Spared op)
  | .allocate => inferInstanceAs (Decidable (Spares _ _))
  | .get _ => inferInstanceAs (Decidable (_ → Spares _ _))
  | .free _ | .write _ _ _ | .unpin _ _ => .isTrue trivial
  | .checkpoint | .reopen _ => .isFalse id

end Evaluate

theorem crash_recovers_freelist_evicted :
    ∃ p, create MemData.empty { pageSize := 4096, cacheFrames := 1 } = .ok p ∧
      ∃ s, exec step (start p) [.allocate, .unpin 0 true, .allocate, .unpin 0 true, .free 3]
        = .ok s ∧ ∃ c, s.step .checkpoint = .ok c ∧
      ∃ t, exec step c [.get 2, .unpin 0 true, .get 1] = .ok t ∧
      ∃ q q₀, openPager t.pager.file 1 = .ok q ∧ openPager c.pager.file 1 = .ok q₀ ∧
        q.free = q₀.free ∧ q.free.Perm c.pager.free ∧ ∀ n ∈ c.alloc, n ∉ q.free := by
  have h : ∃ p, create MemData.empty { pageSize := 4096, cacheFrames := 1 } = .ok p ∧
      Along step Sound (start p) [.allocate, .unpin 0 true, .allocate, .unpin 0 true, .free 3] ∧
      ∃ s, exec step (start p) [.allocate, .unpin 0 true, .allocate, .unpin 0 true, .free 3]
        = .ok s ∧ ∃ c, s.step .checkpoint = .ok c ∧
      Along step Spared c [.get 2, .unpin 0 true, .get 1] ∧
      ∃ t, exec step c [.get 2, .unpin 0 true, .get 1] = .ok t ∧
        c.pager.file.live.length ≤ t.pager.file.live.length := by decide +kernel
  obtain ⟨p, hc, hs, s, he, c, hck, hl, t, ht, hlen⟩ := h
  exact ⟨p, hc, s, he, c, hck, t, ht, crash_recovers_freelist hc hs he hck hl
    (.version (List.mem_map.mpr ⟨t, mem_visited ht, rfl⟩) hlen) 1⟩

/-- The checkpoint puts page 2 on the trunk page 3, which is then reused: the file opens with a
freelist that lacks page 2. -/
theorem crash_loses_free_page :
    ∃ p, create MemData.empty { pageSize := 4096, cacheFrames := 1 } = .ok p ∧
      ∃ s, exec step (start p) [.allocate, .unpin 0 true, .allocate, .unpin 0 true, .free 2,
        .free 3] = .ok s ∧ ∃ c, s.step .checkpoint = .ok c ∧ c.pager.free = [2, 3] ∧
      ∃ t, exec step c [.allocate, .unpin 0 true, .get 1] = .ok t ∧
        Survives c.pager.file.live (c.files [.allocate, .unpin 0 true, .get 1])
          t.pager.file.live ∧
        ∃ q, openPager t.pager.file 1 = .ok q ∧ q.free = [3] := by
  have h : ∃ p, create MemData.empty { pageSize := 4096, cacheFrames := 1 } = .ok p ∧
      ∃ s, exec step (start p) [.allocate, .unpin 0 true, .allocate, .unpin 0 true, .free 2,
        .free 3] = .ok s ∧ ∃ c, s.step .checkpoint = .ok c ∧ c.pager.free = [2, 3] ∧
      ∃ t, exec step c [.allocate, .unpin 0 true, .get 1] = .ok t ∧
        c.pager.file.live.length ≤ t.pager.file.live.length ∧
        ∃ q, openPager t.pager.file 1 = .ok q ∧ q.free = [3] := by decide +kernel
  obtain ⟨p, hc, s, he, c, hck, hfree, t, ht, hlen, hq⟩ := h
  exact ⟨p, hc, s, he, c, hck, hfree, t, ht,
    .version (List.mem_map.mpr ⟨t, mem_visited ht, rfl⟩) hlen, hq⟩

end Run

end VecDb.Pager

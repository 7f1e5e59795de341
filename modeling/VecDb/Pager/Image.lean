import VecDb.Pager.Freelist
import VecDb.Pager.Shape

/-! # Checkpointed files

A checkpoint leaves a file from which opening recovers its header and, up to
order, its freelist. So does every file that agrees with it on the header page
and on the trunk pages.
-/

namespace VecDb.Pager

open Bytes Vfs Format List

/-- The file starts with a header whose freelist is the given chain. -/
structure Image (file : Bytes) (h : Header) (chain : List Link) : Prop where
  page1 : h.pageSize.val ≤ file.length
  header : decodeHeader (slice file 0 headerSize) = .ok h
  nodup : (chain.map Prod.fst).Nodup
  chainAt : ChainAt h.pageSize.val file h.freelistTrunk chain

section Open

variable {f g : Bytes} {h : Header} {chain : List Link}

theorem headerSize_le (ps : PageSize) : headerSize ≤ ps.val :=
  le_trans (by decide) ps.ge

/-- The second file keeps the header of the first and the given pages. -/
structure Kept (ps : ℕ) (f g : Bytes) (pages : List UInt32) : Prop where
  page1 : ps ≤ g.length
  header : slice g 0 headerSize = slice f 0 headerSize
  pages : SamePages ps f g pages

theorem Image.congr (hi : Image f h chain)
    (hk : Kept h.pageSize.val f g (chain.map Prod.fst)) : Image g h chain :=
  ⟨hk.page1, hk.header ▸ hi.header, hi.nodup, hi.chainAt.congr hk.pages⟩

theorem Image.length_le (hi : Image f h chain) : chain.length ≤ f.length / h.pageSize.val := by
  have hps : 0 < h.pageSize.val := lt_of_lt_of_le (by omega) h.pageSize.ge
  simpa using length_le_pages hps hi.nodup hi.chainAt.pages

theorem Image.open {file : MemData} (hi : Image file.live h chain) (cacheFrames : ℤ) :
    openPager file cacheFrames = .ok { newPager file h cacheFrames
      (if UInt32.ofNat (file.size / h.pageSize.val) = 0 then 1
        else UInt32.ofNat (file.size / h.pageSize.val)) with free := listed chain } := by
  have hps : 0 < h.pageSize.val := lt_of_lt_of_le (by omega) h.pageSize.ge
  have hlen : headerSize ≤ file.live.length := (headerSize_le _).trans hi.page1
  have hload := @loadTrunks_chain h.pageSize.val h.freelistTrunk chain file _ [] hps hi.chainAt
    hi.length_le
  rw [openPager_eq hlen hi.header]
  simp only [loadFreelist, newPager, pageSize, MemData.size]
  rw [hload]
  rfl

end Open

section Checkpoint

variable {p q : Pager}

theorem Quiet.trunkPages (h : Quiet p q) : q.trunkPages = p.trunkPages := by
  simp only [Pager.trunkPages, leafCount, trunkCap, h.free, h.header, h.pageSize]

theorem quiet_flushDirty (p : Pager) : Quiet p p.flushDirty := by
  unfold flushDirty
  generalize List.range p.pool.length = slots
  induction slots generalizing p with
  | nil => exact .refl p
  | cons slot slots ih =>
    refine Quiet.trans ?_ (ih (p.flushFrame slot))
    unfold flushFrame
    split
    · exact quiet_writeBack p slot
    · exact .refl p

theorem length_headerPage (hs : p.Shaped) : p.headerPage.length = p.pageSize := by
  unfold headerPage
  split
  · exact hs.length_frame (hs.slots _ _ ‹_›)
  · have : (p.file.readAt 0 p.pageSize).1.length ≤ p.pageSize := by simp [MemData.readAt, slice]
    simp only [length_append, length_replicate]
    omega

theorem length_nextHeader (hs : p.Shaped) :
    (p.nextHeader.encode p.headerPage).length = p.pageSize := by
  rw [Header.length_encode _ _ (by rw [length_headerPage hs]; exact headerSize_le _),
    length_headerPage hs]

theorem writeHeader_fields (header : Header) (page1 : Bytes) :
    (p.writeHeader header page1).header = header ∧ (p.writeHeader header page1).free = p.free ∧
      (p.writeHeader header page1).dbSize = p.dbSize ∧
      (p.writeHeader header page1).file.live = writeAt p.file.live 0 page1 := by
  unfold writeHeader
  dsimp only
  split <;> exact ⟨rfl, rfl, rfl, rfl⟩

theorem shaped_writeHeader {header : Header} {page1 : Bytes} (hs : p.Shaped)
    (hps : header.pageSize = p.header.pageSize) (ht : header.textEncoding = 0)
    (hl : page1.length = p.pageSize) : (p.writeHeader header page1).Shaped := by
  have hsize : ({ p with header := header } : Pager).pageSize = p.pageSize := by
    rw [pageSize, hps]; rfl
  have hs' : ({ p with header := header } : Pager).Shaped :=
    ⟨fun fr hfr => (hs.frames fr hfr).trans hsize.symm, hs.slots, hs.hand, ht⟩
  unfold writeHeader
  dsimp only
  split
  · rename_i slot _
    have hq := (@quiet_setFrame { p with header := header } slot
      { p.frame slot with data := page1, dirty := false } fun _ _ => hl.trans hsize.symm).shaped hs'
    exact ⟨hq.frames, hq.slots, hq.hand, hq.text⟩
  · exact ⟨hs'.frames, hs'.slots, hs'.hand, hs'.text⟩

theorem persisted_spec (hs : p.Shaped) (h0 : ∀ n ∈ p.free, n ≠ 0) (hn : p.free.Nodup)
    (hq : q = p.flushDirty.persistFreelist) :
    q.Shaped ∧ q.free = p.free ∧ q.dbSize = p.dbSize ∧ q.header.pageSize = p.header.pageSize ∧
      ∃ chain, ChainAt q.pageSize q.file.live q.header.freelistTrunk chain ∧
        chain.map Prod.fst = p.trunkPages.reverse ∧ (listed chain).Perm p.free := by
  have hf := quiet_flushDirty p
  obtain ⟨file, header, chain, hpers, hps, htext, hchain, hpages, hperm, -⟩ :=
    @persistFreelist_spec p.flushDirty (fun n hn => h0 n (hf.free ▸ hn)) (hf.free ▸ hn)
  have hsize : q.header.pageSize = p.header.pageSize := by
    rw [hq, hpers]
    exact hps.trans (by rw [hf.header])
  have hps' : q.pageSize = p.flushDirty.pageSize := by
    rw [pageSize, hsize, hf.pageSize]; rfl
  have hshape := hf.shaped hs
  refine ⟨?_, by rw [hq, hpers]; exact hf.free, by rw [hq, hpers]; exact hf.dbSize, hsize,
    chain, ?_, hpages.trans (by rw [hf.trunkPages]), hf.free ▸ hperm⟩
  · rw [hq, hpers] at hps' ⊢
    exact ⟨fun fr hfr => (hshape.frames fr hfr).trans hps'.symm, hshape.slots, hshape.hand,
      htext.trans hshape.text⟩
  · rw [hps', hq, hpers]
    exact hchain

theorem image_writeAt {f page : Bytes} {h : Header} {chain : List Link}
    (hpage : (h.encode page).length = h.pageSize.val) (ht : h.textEncoding = 0)
    (hchain : ChainAt h.pageSize.val f h.freelistTrunk chain) (hn : (chain.map Prod.fst).Nodup)
    (h1 : ∀ n ∈ chain.map Prod.fst, n ≠ 1) :
    Image (writeAt f 0 (h.encode page)) h.stamped chain := by
  have hone : (0 : ℕ) = pageOff h.pageSize.val (1 : UInt32).toNat := by simp [pageOff]
  have hle : 0 + headerSize ≤ (h.encode page).length := by
    rw [hpage, Nat.zero_add]; exact headerSize_le _
  constructor
  · rw [length_writeAt, hpage, Nat.zero_add]
    exact le_max_right ..
  · rw [← Nat.zero_add 0, ← slice_slice hle, Nat.zero_add, slice_writeAt_self,
      Header.slice_encode_header]
    exact Header.decodeHeader_encode ht
  · exact hn
  · refine hchain.congr fun r hr => ?_
    obtain ⟨hr0, hlen⟩ := hchain.pages r hr
    have hne : r.toNat ≠ (1 : UInt32).toNat := fun h => h1 r hr (UInt32.toNat_inj.mp h)
    refine ⟨hlen.trans (length_le_writeAt 0), ?_⟩
    rw [hone]
    exact pageAt_writeAt_ne hpage (by decide) (one_le_toNat hr0) hne hlen

theorem checkpoint_spec (hs : p.Shaped) (h0 : ∀ n ∈ p.free, n ≠ 0 ∧ n ≠ 1) (hn : p.free.Nodup) :
    p.checkpoint.free = p.free ∧ p.checkpoint.dbSize = p.dbSize ∧
      p.checkpoint.header.pageSize = p.header.pageSize ∧ p.checkpoint.Shaped ∧
      ∃ chain, Image p.checkpoint.file.live p.checkpoint.header chain ∧
        chain.map Prod.fst = p.trunkPages.reverse ∧ (listed chain).Perm p.free := by
  obtain ⟨hshape, hfree, hdb, hps, chain, hchain, hpages, hperm⟩ :=
    persisted_spec hs (fun n hn => (h0 n hn).1) hn rfl
  have hsub : ∀ n ∈ chain.map Prod.fst, n ∈ p.free := by
    intro n hn
    rw [hpages, mem_reverse] at hn
    exact mem_of_mem_drop hn
  have hnodup : (chain.map Prod.fst).Nodup := by
    rw [hpages, nodup_reverse]
    exact hn.sublist (drop_sublist _ _)
  obtain ⟨hh, hf, hd, hlive⟩ := @writeHeader_fields p.flushDirty.persistFreelist
    p.flushDirty.persistFreelist.nextHeader.stamped
    (p.flushDirty.persistFreelist.nextHeader.encode p.flushDirty.persistFreelist.headerPage)
  refine ⟨hf.trans hfree, hd.trans hdb, ?_, ?_, chain, ?_, hpages, hperm⟩
  · rw [checkpoint, hh]
    exact hps
  · exact shaped_writeHeader hshape rfl hshape.text (length_nextHeader hshape)
  · rw [checkpoint, hh, hlive]
    exact image_writeAt (length_nextHeader hshape) hshape.text hchain hnodup
      fun n hn => (h0 n (hsub n hn)).2

end Checkpoint

section Fresh

variable {file : MemData} {p : Pager} {opts : Options}

theorem shaped_newPager {h : Header} {cacheFrames : ℤ} {dbSize : UInt32} {free : List UInt32}
    (ht : h.textEncoding = 0) :
    ({ newPager file h cacheFrames dbSize with free := free } : Pager).Shaped := by
  have hpos : 0 < if cacheFrames ≤ 0 then defaultCacheFrames else cacheFrames.toNat := by
    split
    · decide
    · omega
  constructor
  · intro fr hfr
    rw [eq_of_mem_replicate hfr, length_replicate]
    rfl
  · intro n slot hslot
    cases hslot
  · simpa [newPager] using hpos
  · exact ht

section

variable (h : create file opts = .ok p)
include h

theorem create_eq : ∃ header : Header, header.textEncoding = 0 ∧ header.freelistTrunk = 0 ∧
      p = newPager (file.writeAt (header.encode (List.replicate header.pageSize.val 0)) 0).sync
        header.stamped opts.cacheFrames 1 := by
  unfold create at h
  dsimp only at h
  generalize (if opts.pageSize = 0 then defaultPageSize else opts.pageSize) = ps at h
  split at h
  · cases h
    exact ⟨_, rfl, rfl, rfl⟩
  · cases h

theorem create_spec : p.Shaped ∧ p.free = [] ∧ p.dbSize = 1 ∧ Image p.file.live p.header [] := by
  obtain ⟨header, ht, htrunk, rfl⟩ := create_eq h
  refine ⟨shaped_newPager ht, rfl, rfl, image_writeAt ?_ ht htrunk nodup_nil (by simp)⟩
  rw [Header.length_encode _ _ (by rw [length_replicate]; exact headerSize_le _),
    length_replicate]

theorem create_pool : (∀ fr ∈ p.pool, fr.pgno = 0 ∧ fr.pins = 0) ∧ ∀ n, p.index n = none := by
  obtain ⟨header, -, -, rfl⟩ := create_eq h
  refine ⟨fun fr hfr => ?_, fun _ => rfl⟩
  rw [eq_of_mem_replicate hfr]
  exact ⟨rfl, rfl⟩

end

end Fresh

end VecDb.Pager

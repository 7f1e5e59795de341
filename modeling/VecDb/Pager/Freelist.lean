import Mathlib.Data.List.Nodup
import Mathlib.Data.List.Perm.Subperm
import VecDb.Pager.State

/-! # The freelist on file

A checkpoint writes the freelist as a chain of trunk pages. Walking the chain yields the pages
that were written, from every file that agrees on the pages of the chain.
-/

namespace VecDb.Pager

open Bytes Vfs Format List Nat

/-- One trunk page of a chain, with the leaves it lists. -/
abbrev Link := UInt32 × List UInt32

/-- The trunk page `trunk` of a file starts the given chain. -/
def ChainAt (ps : ℕ) (file : Bytes) : UInt32 → List Link → Prop
  | trunk, [] => trunk = 0
  | trunk, (t, leafs) :: chain =>
    trunk = t ∧ t ≠ 0 ∧ t.toNat * ps ≤ file.length ∧ ∃ next,
      decodeTrunk (pageAt ps file t.toNat) = some ⟨next, leafs⟩ ∧ ChainAt ps file next chain

/-- The free pages a chain lists, in the order the walk appends them. -/
def listed (chain : List Link) : List UInt32 := chain.flatMap fun l => l.2 ++ [l.1]

/-- Two files agree on the given pages, which lie within the second. -/
def SamePages (ps : ℕ) (f g : Bytes) (pages : List UInt32) : Prop :=
  ∀ q ∈ pages, q.toNat * ps ≤ g.length ∧ pageAt ps g q.toNat = pageAt ps f q.toNat

section Walk

variable {ps : ℕ} {f g : Bytes} {trunk : UInt32} {chain : List Link} {file : MemData} {x : UInt32}

theorem ChainAt.congr (h : ChainAt ps f trunk chain)
    (hs : SamePages ps f g (chain.map Prod.fst)) : ChainAt ps g trunk chain := by
  induction chain generalizing trunk with
  | nil => exact h
  | cons l chain ih =>
    obtain ⟨t, leafs⟩ := l
    obtain ⟨rfl, ht, _, next, hd, hc⟩ := h
    obtain ⟨hlen, hpage⟩ := hs trunk (by simp)
    refine ⟨rfl, ht, hlen, next, by rw [hpage, hd], ih hc fun q hq => hs q ?_⟩
    exact mem_cons_of_mem _ hq

theorem toNat_sub_one (h : x ≠ 0) : (x - 1).toNat = x.toNat - 1 := by
  refine UInt32.toNat_sub_of_le _ _ ?_
  rw [UInt32.le_iff_toNat_le]
  have : x.toNat ≠ 0 := fun h0 => h (UInt32.toNat_inj.mp h0)
  simp only [UInt32.toNat_one]
  omega

theorem one_le_toNat (h : x ≠ 0) : 1 ≤ x.toNat := by
  have : x.toNat ≠ 0 := fun h0 => h (UInt32.toNat_inj.mp h0)
  omega

theorem offset_eq (p : Pager) {pgno : UInt32} (h : pgno ≠ 0) :
    p.offset pgno = pageOff p.pageSize pgno.toNat := by
  rw [offset, pageOff, toNat_sub_one h]

theorem readAt_page {q : ℕ} (hps : 0 < ps) (hq : 1 ≤ q) (h : q * ps ≤ file.live.length) :
    file.readAt (pageOff ps q) ps = (pageAt ps file.live q, false) := by
  have hlen := length_pageAt hq h
  have hoff := @pageOff_add ps q hq
  have : ¬ (file.live.length ≤ pageOff ps q ∨ (slice file.live (pageOff ps q) ps).length < ps) := by
    rw [show slice file.live (pageOff ps q) ps = pageAt ps file.live q from rfl, hlen]
    omega
  simp only [MemData.readAt, pageAt, this, decide_false]

theorem loadTrunks_chain {fuel : ℕ} {free : List UInt32} (hps : 0 < ps)
    (h : ChainAt ps file.live trunk chain) (hf : chain.length ≤ fuel) :
    loadTrunks file ps fuel trunk free = .ok (free ++ listed chain) := by
  induction chain generalizing trunk fuel free with
  | nil =>
    obtain rfl : trunk = 0 := h
    unfold loadTrunks
    simp [listed]
  | cons l chain ih =>
    obtain ⟨t, leafs⟩ := l
    obtain ⟨rfl, ht, hlen, next, hd, hc⟩ := h
    rcases fuel with _ | fuel
    · simp at hf
    · have hoff : (trunk - 1).toNat * ps = pageOff ps trunk.toNat := by
        rw [toNat_sub_one ht, pageOff]
      unfold loadTrunks
      rw [if_neg ht, hoff, readAt_page hps (one_le_toNat ht) hlen]
      simp only [Bool.false_eq_true, if_false, hd]
      rw [ih hc (by simpa using hf)]
      simp [listed]

theorem length_le_pages {pages : List UInt32} (hps : 0 < ps) (hn : pages.Nodup)
    (hin : ∀ q ∈ pages, q ≠ 0 ∧ q.toNat * ps ≤ f.length) : pages.length ≤ f.length / ps := by
  have hsub : pages.map UInt32.toNat ⊆ List.range' 1 (f.length / ps) := by
    intro n hn
    obtain ⟨q, hq, rfl⟩ := List.mem_map.mp hn
    obtain ⟨h0, hlen⟩ := hin q hq
    have h1 := one_le_toNat h0
    have h2 := (le_div_iff_mul_le hps).mpr hlen
    rw [List.mem_range'_1]
    omega
  have hnodup := hn.map fun _ _ h => UInt32.toNat_inj.mp h
  simpa using (hnodup.subperm hsub).length_le

theorem openPager_eq {h : Header} (hlen : headerSize ≤ file.live.length)
    (hh : decodeHeader (slice file.live 0 headerSize) = .ok h) (cacheFrames : ℤ) :
    openPager file cacheFrames = (newPager file h cacheFrames
      (if UInt32.ofNat (file.size / h.pageSize.val) = 0 then 1
        else UInt32.ofNat (file.size / h.pageSize.val))).loadFreelist := by
  have hread : file.readAt 0 headerSize = (slice file.live 0 headerSize, false) := by
    have hl : (slice file.live 0 headerSize).length = headerSize := length_slice (by omega)
    have : ¬ (file.live.length ≤ 0 ∨ (slice file.live 0 headerSize).length < headerSize) := by
      rw [hl]
      simp only [headerSize] at *
      omega
    simp only [MemData.readAt, this, decide_false]
  simp only [openPager, hread, hh, Bool.false_eq_true, if_false]

end Walk

section Persist

variable {cap : ℕ} {leaves trunks : List UInt32}

/-- The links a list of trunk pages gets, in the order they are written. -/
def links (cap : ℕ) : List UInt32 → List UInt32 → List Link
  | [], _ => []
  | t :: trunks, leaves => (t, leaves.take cap) :: links cap trunks (leaves.drop cap)

theorem map_fst_links (cap : ℕ) (trunks leaves : List UInt32) :
    (links cap trunks leaves).map Prod.fst = trunks := by
  induction trunks generalizing leaves with
  | nil => rfl
  | cons t trunks ih => simp [links, ih]

theorem links_fit : ∀ l ∈ links cap trunks leaves, l.2.length ≤ cap := by
  induction trunks generalizing leaves with
  | nil => nofun
  | cons t trunks ih => exact List.forall_mem_cons.mpr ⟨List.length_take_le .., ih⟩

theorem flatMap_snd_links (h : leaves.length ≤ trunks.length * cap) :
    (links cap trunks leaves).flatMap Prod.snd = leaves := by
  induction trunks generalizing leaves with
  | nil =>
    obtain rfl : leaves = [] := by simpa using h
    rfl
  | cons t trunks ih =>
    have hrest : (leaves.drop cap).length ≤ trunks.length * cap := by
      rw [length_cons, add_mul] at h
      rw [length_drop]
      omega
    rw [links, flatMap_cons, ih hrest, take_append_drop]

theorem listed_perm (chain : List Link) :
    (listed chain).Perm (chain.flatMap Prod.snd ++ chain.map Prod.fst) := by
  induction chain with
  | nil => exact .refl _
  | cons l chain ih =>
    have hl : listed (l :: chain) = l.2 ++ (l.1 :: listed chain) := by simp [listed]
    rw [hl, flatMap_cons, map_cons, append_assoc]
    refine List.Perm.append_left _ ?_
    exact (ih.cons l.1).trans perm_middle.symm

theorem listed_links_perm (h : leaves.length ≤ trunks.length * cap) :
    (listed (links cap trunks leaves).reverse).Perm (leaves ++ trunks) := by
  have hrev : (listed (links cap trunks leaves).reverse).Perm
      (listed (links cap trunks leaves)) := by
    rw [listed, listed]
    exact (reverse_perm _).flatMap_right _
  refine hrev.trans ((listed_perm _).trans ?_)
  rw [flatMap_snd_links h, map_fst_links]

theorem countTrunks_spec {cap len : ℕ} (hcap : 0 < cap) (fuel n : ℕ) (h : len ≤ n + fuel)
    (hn : n ≤ len) : countTrunks cap len fuel n ≤ len ∧
      len - countTrunks cap len fuel n ≤ countTrunks cap len fuel n * cap := by
  induction fuel generalizing n with
  | zero =>
    obtain rfl : n = len := by omega
    simp [countTrunks]
  | succ fuel ih =>
    rw [countTrunks]
    split
    · rename_i hle
      refine ⟨hn, ?_⟩
      rw [div_le_iff_le_mul_add_pred hcap] at hle
      rw [mul_comm]
      omega
    · rename_i hlt
      have hne : n ≠ len := by
        rintro rfl
        apply hlt
        rw [Nat.sub_self, Nat.zero_add, Nat.div_eq_of_lt (by omega)]
        exact Nat.zero_le n
      exact ih (n + 1) (by omega) (by omega)

variable {p : Pager}

theorem trunkCap_fits (p : Pager) : 0 < p.trunkCap ∧
    pageHeaderSize + 4 * p.trunkCap + 4 + p.header.reservedPerPage.toNat ≤ p.pageSize ∧
    p.trunkCap < 2 ^ 16 := by
  have hge := p.header.pageSize.ge
  have hle := p.header.pageSize.le
  have hr := p.header.reservedPerPage.toNat_lt
  unfold trunkCap trunkCapacity bodyRange pageSize pageHeaderSize pageChecksumSize
  simp only
  rw [if_neg (by omega)]
  omega

theorem leaves_fit (p : Pager) :
    (p.free.take p.leafCount).length ≤ p.trunkPages.length * p.trunkCap := by
  have h := @countTrunks_spec p.trunkCap p.free.length (trunkCap_fits p).1 p.free.length 0
    (by omega) (Nat.zero_le _)
  simp only [trunkPages, length_take, length_drop]
  unfold leafCount
  rw [Nat.sub_sub_self h.1]
  exact (Nat.min_le_left ..).trans h.2

theorem writePage_page {pgno : UInt32} {data : Bytes} (h0 : pgno ≠ 0)
    (hd : data.length = p.pageSize) :
    pgno.toNat * p.pageSize ≤ (p.writePage pgno data).file.live.length ∧
      pageAt p.pageSize (p.writePage pgno data).file.live pgno.toNat = data := by
  simp only [writePage, MemData.live_writeAt, offset_eq p h0]
  exact ⟨page_le_writeAt hd (one_le_toNat h0), pageAt_writeAt_self hd⟩

theorem writePage_same {pgno : UInt32} {data : Bytes} {pages : List UInt32} (h0 : pgno ≠ 0)
    (hd : data.length = p.pageSize) (hne : pgno ∉ pages)
    (hin : ∀ q ∈ pages, q ≠ 0 ∧ q.toNat * p.pageSize ≤ p.file.live.length) :
    SamePages p.pageSize p.file.live (p.writePage pgno data).file.live pages := by
  intro q hq
  obtain ⟨hq0, hlen⟩ := hin q hq
  have hqne : q.toNat ≠ pgno.toNat := fun h => hne (UInt32.toNat_inj.mp h ▸ hq)
  simp only [writePage, MemData.live_writeAt, offset_eq p h0]
  exact ⟨hlen.trans (length_le_writeAt _),
    pageAt_writeAt_ne hd (one_le_toNat h0) (one_le_toNat hq0) hqne hlen⟩

theorem ChainAt.pages {ps : ℕ} {f : Bytes} {trunk : UInt32} {chain : List Link}
    (h : ChainAt ps f trunk chain) : ∀ q ∈ chain.map Prod.fst, q ≠ 0 ∧ q.toNat * ps ≤ f.length := by
  induction chain generalizing trunk with
  | nil => simp
  | cons l chain ih =>
    obtain ⟨t, leafs⟩ := l
    obtain ⟨rfl, ht, hlen, next, _, hc⟩ := h
    simp only [map_cons, forall_mem_cons]
    exact ⟨⟨ht, hlen⟩, ih hc⟩

theorem writeTrunks_chain {cap : ℕ} {trunks leaves : List UInt32} {next : UInt32}
    {chain : List Link} (hcap : pageHeaderSize + 4 * cap + 4 ≤ p.pageSize) (hlt : cap < 2 ^ 16)
    (hc : ChainAt p.pageSize p.file.live next chain) (h0 : ∀ t ∈ trunks, t ≠ 0)
    (hn : (trunks ++ chain.map Prod.fst).Nodup) :
    ChainAt p.pageSize (p.writeTrunks cap trunks leaves next).1.file.live
      (p.writeTrunks cap trunks leaves next).2 ((links cap trunks leaves).reverse ++ chain) := by
  induction trunks generalizing p leaves next chain with
  | nil => exact hc
  | cons t trunks ih =>
    have ht := h0 t (by simp)
    have hleaf : (leaves.take cap).length ≤ cap := by simp
    obtain ⟨htn, hn'⟩ := nodup_cons.mp hn
    set buf := writePageChecksum (encodeTrunk p.pageSize ⟨next, leaves.take cap⟩)
      p.header.checksum with hbuf
    have hlen : buf.length = p.pageSize := by
      have henc := @length_encodeTrunk p.pageSize ⟨next, leaves.take cap⟩
        (by simp only at *; omega)
      rw [hbuf, length_writePageChecksum _ (by rw [henc]; omega), henc]
    obtain ⟨hin, hpage⟩ := @writePage_page p t buf ht hlen
    have hsame := @writePage_same p t buf (chain.map Prod.fst) ht hlen
      (fun h => htn (mem_append_right _ h)) hc.pages
    have hchain : ChainAt p.pageSize (p.writePage t buf).file.live t
        ((t, leaves.take cap) :: chain) := by
      refine ⟨rfl, ht, hin, next, ?_, hc.congr hsame⟩
      rw [hpage]
      exact decodeTrunk_encode _ (by simp only; omega) (by simp only; omega)
    have hperm : (trunks ++ ((t, leaves.take cap) :: chain).map Prod.fst).Nodup := by
      refine (perm_middle.nodup_iff).mpr ?_
      exact nodup_cons.mpr ⟨htn, hn'⟩
    rw [links, reverse_cons, append_assoc]
    exact @ih (p.writePage t buf) (leaves.drop cap) t _ hcap hchain
      (fun q hq => h0 q (mem_cons_of_mem _ hq)) hperm

theorem writeTrunks_frame (cap : ℕ) (trunks leaves : List UInt32) (next : UInt32) :
    ∃ file, (p.writeTrunks cap trunks leaves next).1 = { p with file := file } := by
  induction trunks generalizing p leaves next with
  | nil => exact ⟨p.file, rfl⟩
  | cons t trunks ih =>
    obtain ⟨file, h⟩ := @ih (p.writePage t (writePageChecksum
      (encodeTrunk p.pageSize ⟨next, leaves.take cap⟩) p.header.checksum)) (leaves.drop cap) t
    exact ⟨file, h⟩

theorem persistFreelist_spec (h0 : ∀ q ∈ p.free, q ≠ 0) (hn : p.free.Nodup) :
    ∃ file header chain, p.persistFreelist = { p with file := file, header := header } ∧
      header.pageSize = p.header.pageSize ∧ header.textEncoding = p.header.textEncoding ∧
      ChainAt p.pageSize file.live header.freelistTrunk chain ∧
      chain.map Prod.fst = p.trunkPages.reverse ∧ (listed chain).Perm p.free ∧
      ∀ l ∈ chain, l.2.length ≤ p.trunkCap := by
  have hcap := trunkCap_fits p
  unfold persistFreelist
  split
  · rename_i hnil
    obtain hnil | hzero := hnil
    · refine ⟨p.file, _, [], rfl, rfl, rfl, rfl, ?_, ?_, nofun⟩
      · simp [trunkPages, hnil]
      · simp [listed, hnil]
    · omega
  · have hsplit := take_append_drop p.leafCount p.free
    have htrunk : ∀ q ∈ p.trunkPages, q ≠ 0 := fun q hq => h0 q (mem_of_mem_drop hq)
    have hnodup : (p.trunkPages ++ ([] : List Link).map Prod.fst).Nodup := by
      rw [map_nil, append_nil]
      exact hn.sublist (drop_sublist _ _)
    have hchain := @writeTrunks_chain p p.trunkCap p.trunkPages (p.free.take p.leafCount) 0 []
      (le_of_add_right_le hcap.2.1) hcap.2.2 rfl htrunk hnodup
    obtain ⟨file, hfile⟩ := @writeTrunks_frame p p.trunkCap p.trunkPages
      (p.free.take p.leafCount) 0
    rw [append_nil, hfile] at hchain
    simp only [hfile]
    refine ⟨file, _, _, rfl, rfl, rfl, hchain, ?_, ?_, fun l hl => ?_⟩
    · rw [map_reverse, map_fst_links]
    · exact (listed_links_perm (leaves_fit p)).trans (by rw [trunkPages, hsplit])
    · exact links_fit l (List.mem_reverse.mp hl)

/-- The freelist that is loaded after persisting it lists the same pages; its chain comes to no
page twice, and every trunk page has room for its leaves. -/
def Reloads (p : Pager) : Prop :=
  ∃ chain q, ChainAt p.pageSize p.persistFreelist.file.live
      p.persistFreelist.header.freelistTrunk chain ∧
    (chain.map Prod.fst).Nodup ∧
    (∀ l ∈ chain, pageHeaderSize + 4 * l.2.length + pageChecksumSize +
      p.header.reservedPerPage.toNat ≤ p.pageSize) ∧
    { p.persistFreelist with free := [] }.loadFreelist = .ok q ∧ q.free.Perm p.free

theorem freelist_reloads (h2 : ∀ n ∈ p.free, 2 ≤ n.toNat) (hn : p.free.Nodup) : p.Reloads := by
  have h0 : ∀ n ∈ p.free, n ≠ 0 := by
    rintro n hn rfl
    exact absurd (h2 0 hn) (by decide)
  obtain ⟨file, header, chain, heq, hps, -, hchain, hmap, hperm, hfit⟩ := persistFreelist_spec h0 hn
  have hpos : 0 < p.pageSize := lt_of_lt_of_le (by omega) p.header.pageSize.ge
  have hnodup : (chain.map Prod.fst).Nodup := by
    rw [hmap, List.nodup_reverse]
    exact hn.sublist (List.drop_sublist _ _)
  have hlen := length_le_pages hpos hnodup hchain.pages
  rw [List.length_map] at hlen
  refine ⟨chain, { p with file := file, header := header, free := listed chain }, ?_, hnodup,
    fun l hl => ?_, ?_, hperm⟩
  · rw [heq]
    exact hchain
  · have hcap := hfit l hl
    have hroom := (trunkCap_fits p).2.1
    rw [pageChecksumSize]
    omega
  · have hload := @loadTrunks_chain p.pageSize _ chain file _ [] hpos hchain hlen
    rw [heq, loadFreelist]
    simp only [pageSize, hps] at hload ⊢
    rw [MemData.size, hload]
    rfl

def twoFree : Pager :=
  { newPager .empty (newHeader ⟨4096, by decide⟩ 0) 1 3 with free := [2, 3] }

theorem freelist_reloads_two : twoFree.free = [2, 3] ∧ twoFree.Reloads :=
  ⟨rfl, freelist_reloads (by simp [twoFree]) (by simp [twoFree])⟩

end Persist

end VecDb.Pager

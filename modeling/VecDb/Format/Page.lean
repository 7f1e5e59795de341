import VecDb.Base.ByteFile
import VecDb.Format.Header

/-! # Content pages and freelist trunks

A content page starts with a 32-byte header and ends with a 4-byte checksum. A trunk page lists
free pages between the two and links to the next trunk.
-/

namespace VecDb.Format

open Bytes List

def pageHeaderSize : ℕ := 32
def pageChecksumSize : ℕ := 4
def pageFreelistTrunk : UInt8 := 0x01

structure PageHeader where
  type : UInt8 := 0
  flags : UInt8 := 0
  freeOffset : UInt16 := 0
  cellCount : UInt16 := 0
  fragBytes : UInt16 := 0
  pageLSN : UInt64 := 0
  sectionID : UInt32 := 0
  nextPage : UInt32 := 0
  prevPage : UInt32 := 0
  deriving DecidableEq

def PageHeader.encode (h : PageHeader) : Bytes :=
  [[h.type], [h.flags], le16 h.freeOffset, le16 h.cellCount, le16 h.fragBytes, le64 h.pageLSN,
    le32 h.sectionID, le32 h.nextPage, le32 h.prevPage, [0, 0, 0, 0]].flatten

def PageHeader.parse (page : Bytes) : PageHeader where
  type := page.getD 0 0
  flags := page.getD 1 0
  freeOffset := UInt16.ofNat (getLE (slice page 2 2))
  cellCount := UInt16.ofNat (getLE (slice page 4 2))
  fragBytes := UInt16.ofNat (getLE (slice page 6 2))
  pageLSN := UInt64.ofNat (getLE (slice page 8 8))
  sectionID := UInt32.ofNat (getLE (slice page 16 4))
  nextPage := UInt32.ofNat (getLE (slice page 20 4))
  prevPage := UInt32.ofNat (getLE (slice page 24 4))

def decodePageHeader (page : Bytes) : Except Err PageHeader :=
  if page.length < pageHeaderSize then .error .shortBuffer
  else .ok (PageHeader.parse page)

/-- `WritePageChecksum`: the page with its last four bytes replaced. -/
def writePageChecksum (page : Bytes) (algo : UInt8) : Bytes :=
  page.take (page.length - 4) ++
    le32 (if algo = checksumNone then 0 else crc32c (page.take (page.length - 4)))

def bodyRange (pageSize : ℕ) (reservedPerPage : UInt8) : ℕ × ℤ :=
  (pageHeaderSize, (pageSize : ℤ) - reservedPerPage.toNat - pageChecksumSize)

def trunkCapacity (pageSize : ℕ) (reservedPerPage : UInt8) : ℕ :=
  let body := (bodyRange pageSize reservedPerPage).2 - pageHeaderSize
  if body < 0 then 0 else (body / 4).toNat

structure TrunkPage where
  next : UInt32
  leafs : List UInt32
  deriving DecidableEq

/-- `EncodeTrunk` over a buffer of one page, for leaves that fit the page. -/
def encodeTrunk (pageSize : ℕ) (tp : TrunkPage) : Bytes :=
  PageHeader.encode {
      type := pageFreelistTrunk
      nextPage := tp.next
      cellCount := UInt16.ofNat tp.leafs.length } ++
    (tp.leafs.map le32).flatten ++
    List.replicate (pageSize - pageHeaderSize - 4 * tp.leafs.length) 0

/-- `DecodeTrunk`; `none` where reading a leaf runs past the page and panics. -/
def decodeTrunk (page : Bytes) : Option TrunkPage :=
  let h := (decodePageHeader page).toOption.getD {}
  let n := h.cellCount.toNat
  if 0 < n ∧ page.length < pageHeaderSize + 4 * n then none
  else some {
    next := h.nextPage
    leafs := (List.range n).map fun i =>
      UInt32.ofNat (getLE (slice page (pageHeaderSize + 4 * i) 4)) }

variable {page : Bytes}

theorem length_writePageChecksum (algo : UInt8) (h : 4 ≤ page.length) :
    (writePageChecksum page algo).length = page.length := by
  simp only [writePageChecksum, length_append, length_take, length_le32]
  omega

theorem take_writePageChecksum {n : ℕ} (algo : UInt8) (hl : page.length = n) :
    (writePageChecksum page algo).take (n - 4) = page.take (n - 4) := by
  subst hl
  rw [writePageChecksum, take_left' (by simp)]

theorem slice_writePageChecksum {o n : ℕ} (algo : UInt8)
    (h : o + n ≤ page.length - 4) : slice (writePageChecksum page algo) o n = slice page o n := by
  rw [writePageChecksum, slice_append_left (by simpa using h), slice_eq_drop_take,
    slice_eq_drop_take, take_take, Nat.min_eq_left h]

section Trunk

variable {ps : ℕ} {tp : TrunkPage}

theorem PageHeader.length_encode (h : PageHeader) : h.encode.length = pageHeaderSize := by
  simp [PageHeader.encode, pageHeaderSize]

theorem length_leaves (l : List UInt32) : (l.map le32).flatten.length = 4 * l.length := by
  induction l with
  | nil => rfl
  | cons x l ih => simp [ih]; omega

theorem length_encodeTrunk (h : pageHeaderSize + 4 * tp.leafs.length ≤ ps) :
    (encodeTrunk ps tp).length = ps := by
  simp only [encodeTrunk, length_append, PageHeader.length_encode, length_leaves, length_replicate]
  omega

theorem slice_leaf {l : List UInt32} {rest : Bytes} {i : ℕ} (hi : i < l.length) :
    slice ((l.map le32).flatten ++ rest) (4 * i) 4 = le32 l[i] := by
  refine slice_flatten i (by simp [hi]) ?_ (length_le32 _)
  rw [← length_flatten, ← map_take, length_leaves, length_take, Nat.min_eq_left hi.le]

theorem decodeTrunk_of_header {h : PageHeader} (hh : decodePageHeader page = .ok h)
    (hlen : pageHeaderSize + 4 * h.cellCount.toNat ≤ page.length) :
    decodeTrunk page = some ⟨h.nextPage, (List.range h.cellCount.toNat).map fun i =>
      UInt32.ofNat (getLE (slice page (pageHeaderSize + 4 * i) 4))⟩ := by
  simp only [decodeTrunk, hh, Except.toOption, Option.getD_some]
  rw [if_neg (by omega)]

theorem decodeTrunk_encode (algo : UInt8) (hfit : pageHeaderSize + 4 * tp.leafs.length + 4 ≤ ps)
    (hn : tp.leafs.length < 2 ^ 16) :
    decodeTrunk (writePageChecksum (encodeTrunk ps tp) algo) = some tp := by
  have hlen := length_encodeTrunk (show pageHeaderSize + 4 * tp.leafs.length ≤ ps by omega)
  obtain ⟨p, hpage⟩ : ∃ p, p = writePageChecksum (encodeTrunk ps tp) algo := ⟨_, rfl⟩
  have hs : ∀ {o n : ℕ}, o + n ≤ ps - 4 → slice p o n = slice (encodeTrunk ps tp) o n := by
    intro o n h
    rw [hpage, slice_writePageChecksum algo (by rwa [hlen])]
  have hps : 36 ≤ ps := by simp only [pageHeaderSize] at hfit; omega
  have hcount : slice (encodeTrunk ps tp) 4 2 = le16 (UInt16.ofNat tp.leafs.length) := by
    rw [encodeTrunk, append_assoc, PageHeader.encode]
    exact slice_flatten 3 rfl (by simp) (length_le16 _)
  have hnext : slice (encodeTrunk ps tp) 20 4 = le32 tp.next := by
    rw [encodeTrunk, append_assoc, PageHeader.encode]
    exact slice_flatten 7 rfl (by simp) (length_le32 _)
  have hleaf : ∀ i (hi : i < tp.leafs.length),
      slice (encodeTrunk ps tp) (pageHeaderSize + 4 * i) 4 = le32 tp.leafs[i] := by
    intro i hi
    rw [encodeTrunk, append_assoc, slice_append_right (by simp [PageHeader.length_encode]),
      PageHeader.length_encode, Nat.add_sub_cancel_left, slice_leaf hi]
  have hsize : p.length = ps := by
    rw [hpage, length_writePageChecksum algo (by omega), hlen]
  have hcells : (PageHeader.parse p).cellCount.toNat = tp.leafs.length := by
    simp only [PageHeader.parse, hs (show 4 + 2 ≤ ps - 4 by omega), hcount, getLE_le16,
      UInt16.toNat_ofNat_of_lt' hn]
  have hlink : (PageHeader.parse p).nextPage = tp.next := by
    simp only [PageHeader.parse, hs (show 20 + 4 ≤ ps - 4 by omega), hnext, getLE_le32]
  have hdec : decodePageHeader p = .ok (.parse p) :=
    if_neg (by rw [hsize]; simp only [pageHeaderSize]; omega)
  have hleafs : (List.range tp.leafs.length).map (fun i =>
      UInt32.ofNat (getLE (slice p (pageHeaderSize + 4 * i) 4))) = tp.leafs := by
    apply ext_getElem
    · simp
    · intro i h₁ h₂
      simp only [getElem_map, getElem_range]
      rw [hs (by omega), hleaf i h₂, getLE_le32]
  rw [← hpage, decodeTrunk_of_header hdec (by omega), hcells, hlink, hleafs]

end Trunk

end VecDb.Format

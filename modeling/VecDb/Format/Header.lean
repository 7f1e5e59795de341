import Mathlib.Tactic.IntervalCases
import VecDb.Base.Crc

/-! # The database header

The first 100 bytes of page 1. Decoding an encoded header gives it back, with
the checksum that encoding stamped.
-/

namespace VecDb.Format

open Bytes List

inductive Err
  | notVecFile | corruptHeader | shortBuffer | badPageSize
  deriving DecidableEq

def defaultPageSize : ℤ := 16384

def validPageSize (ps : ℤ) : Bool :=
  if ps < 4096 ∨ ps > 65536 then false
  else ps.toNat &&& (ps.toNat - 1) = 0

structure PageSize where
  val : ℕ
  valid : validPageSize val = true
  deriving DecidableEq

/-- `CRC32C`: the Castagnoli polynomial in reversed bit order. -/
def crc32c (b : Bytes) : UInt32 := ⟨Crc.checksum (0x82f63b78 : BitVec 32) b⟩

-- the published check value of CRC-32C
example : crc32c [0x31, 0x32, 0x33, 0x34, 0x35, 0x36, 0x37, 0x38, 0x39] = 0xE3069283 := by
  decide +kernel

def checksumNone : UInt8 := 0

structure Header where
  pageSize : PageSize
  formatWrite : UInt8
  formatRead : UInt8
  changeCounter : UInt32
  pageCount : UInt32
  freelistTrunk : UInt32 := 0
  freelistCount : UInt32 := 0
  catalogRoot : UInt32 := 0
  collectionCount : UInt32 := 0
  schemaCookie : UInt32 := 0
  applicationID : UInt32 := 0
  userVersion : UInt32 := 0
  flags : UInt8 := 0
  encryption : UInt8 := 0
  textEncoding : UInt8 := 0
  checksum : UInt8
  reservedPerPage : UInt8 := 0
  versionValidFor : UInt32
  txnHighWater : UInt64 := 0
  headerChecksum : UInt32 := 0
  deriving DecidableEq

def headerSize : ℕ := 100

/-- The ASCII bytes of "tamnd vector format 1". -/
def magicString : Bytes :=
  [0x74, 0x61, 0x6d, 0x6e, 0x64, 0x20, 0x76, 0x65, 0x63, 0x74, 0x6f, 0x72, 0x20, 0x66, 0x6f,
    0x72, 0x6d, 0x61, 0x74, 0x20, 0x31]

def newHeader (pageSize : PageSize) (cks : UInt8) : Header where
  pageSize := pageSize
  formatWrite := 1
  formatRead := 1
  changeCounter := 1
  pageCount := 1
  checksum := cks
  versionValidFor := 1

def encodePageSize (ps : PageSize) : UInt16 :=
  if ps.val = 65536 then 1 else UInt16.ofNat ps.val

theorem eq_of_powerOfTwo {n : ℕ} (h : n &&& (n - 1) = 0) (hlo : 2 ^ 12 ≤ n)
    (hhi : n ≤ 2 ^ 16) : n = 4096 ∨ n = 8192 ∨ n = 16384 ∨ n = 32768 ∨ n = 65536 := by
  rw [Nat.and_sub_one_eq_zero_iff_isPowerOfTwo (by omega)] at h
  obtain ⟨k, rfl⟩ := h
  have h₁ := (Nat.pow_le_pow_iff_right (show 1 < 2 by omega)).mp hlo
  have h₂ := (Nat.pow_le_pow_iff_right (show 1 < 2 by omega)).mp hhi
  interval_cases k <;> simp

theorem PageSize.cases (ps : PageSize) :
    ps.val = 4096 ∨ ps.val = 8192 ∨ ps.val = 16384 ∨ ps.val = 32768 ∨ ps.val = 65536 := by
  obtain ⟨n, h⟩ := ps
  unfold validPageSize at h
  split at h
  · cases h
  · rename_i hr
    have hpow : n &&& (n - 1) = 0 := by simpa using h
    have hrange : 2 ^ 12 ≤ n ∧ n ≤ 2 ^ 16 := by omega
    exact eq_of_powerOfTwo hpow hrange.1 hrange.2

theorem PageSize.ge (ps : PageSize) : 4096 ≤ ps.val := by
  rcases ps.cases with h | h | h | h | h <;> omega

theorem PageSize.le (ps : PageSize) : ps.val ≤ 65536 := by
  rcases ps.cases with h | h | h | h | h <;> omega

theorem validPageSize_code {code : UInt16}
    (h : ¬ (code < 4096 ∨ code > 32768 ∨ code &&& (code - 1) ≠ 0)) :
    validPageSize code.toNat = true := by
  obtain ⟨hlo, hhi, hpow⟩ : ¬ code < 4096 ∧ ¬ code > 32768 ∧ code &&& (code - 1) = 0 := by
    simpa only [not_or, not_not] using h
  have hlo : 4096 ≤ code.toNat := by simpa [UInt16.lt_iff_toNat_lt] using hlo
  have hhi : code.toNat ≤ 32768 := by simpa [UInt16.lt_iff_toNat_lt] using hhi
  have hsub : (code - 1).toNat = code.toNat - 1 :=
    UInt16.toNat_sub_of_le _ _ (by simp [UInt16.le_iff_toNat_le]; omega)
  have hpow : code.toNat &&& (code.toNat - 1) = 0 := by
    rw [← hsub, ← UInt16.toNat_and, hpow]; rfl
  unfold validPageSize
  rw [if_neg (by omega)]
  simpa using hpow

def decodePageSize (code : UInt16) : Except Err PageSize :=
  if code = 1 then .ok ⟨65536, rfl⟩
  else if h : code < 4096 ∨ code > 32768 ∨ code &&& (code - 1) ≠ 0 then .error .corruptHeader
  else .ok ⟨code.toNat, validPageSize_code h⟩

theorem decodePageSize_encode (ps : PageSize) : decodePageSize (encodePageSize ps) = .ok ps := by
  obtain ⟨n, hn⟩ := ps
  rcases PageSize.cases ⟨n, hn⟩ with h | h | h | h | h <;> cases h <;> revert hn <;> decide

namespace Header

/-- The fields of the first 92 bytes, in the order of their offsets. -/
def fields (h : Header) : List Bytes :=
  [magicString, [0], List.replicate 10 0, le16 (encodePageSize h.pageSize), [h.formatWrite],
    [h.formatRead], le32 h.changeCounter, le32 h.pageCount, le32 h.freelistTrunk,
    le32 h.freelistCount, le32 h.catalogRoot, le32 h.collectionCount, le32 h.schemaCookie,
    le32 h.applicationID, le32 h.userVersion, [h.flags], [h.encryption], [h.textEncoding],
    [h.checksum], [h.reservedPerPage], [0, 0, 0], le32 h.versionValidFor, le64 h.txnHighWater]

def sum (h : Header) : UInt32 :=
  if h.checksum ≠ checksumNone then crc32c h.fields.flatten else 0

def stamped (h : Header) : Header := { h with headerChecksum := h.sum }

def encode (h : Header) (buf : Bytes) : Bytes :=
  h.fields.flatten ++ (le32 h.sum ++ [0, 0, 0, 0] ++ buf.drop headerSize)

end Header

def Header.parse (buf : Bytes) (ps : PageSize) : Header where
  pageSize := ps
  formatWrite := buf.getD 34 0
  formatRead := buf.getD 35 0
  changeCounter := UInt32.ofNat (getLE (slice buf 36 4))
  pageCount := UInt32.ofNat (getLE (slice buf 40 4))
  freelistTrunk := UInt32.ofNat (getLE (slice buf 44 4))
  freelistCount := UInt32.ofNat (getLE (slice buf 48 4))
  catalogRoot := UInt32.ofNat (getLE (slice buf 52 4))
  collectionCount := UInt32.ofNat (getLE (slice buf 56 4))
  schemaCookie := UInt32.ofNat (getLE (slice buf 60 4))
  applicationID := UInt32.ofNat (getLE (slice buf 64 4))
  userVersion := UInt32.ofNat (getLE (slice buf 68 4))
  flags := buf.getD 72 0
  encryption := buf.getD 73 0
  textEncoding := buf.getD 74 0
  checksum := buf.getD 75 0
  reservedPerPage := buf.getD 76 0
  versionValidFor := UInt32.ofNat (getLE (slice buf 80 4))
  txnHighWater := UInt64.ofNat (getLE (slice buf 84 8))
  headerChecksum := UInt32.ofNat (getLE (slice buf 92 4))

def decodeHeader (buf : Bytes) : Except Err Header :=
  if buf.length < headerSize then .error .shortBuffer
  else if slice buf 0 21 ≠ magicString then .error .notVecFile
  else if buf.getD 21 0 ≠ 0 then .error .notVecFile
  else
    match decodePageSize (UInt16.ofNat (getLE (slice buf 32 2))) with
    | .error e => .error e
    | .ok ps =>
      let h := Header.parse buf ps
      if h.checksum ≠ checksumNone ∧ crc32c (slice buf 0 92) ≠ h.headerChecksum then
        .error .corruptHeader
      else if h.textEncoding ≠ 0 then .error .corruptHeader
      else .ok h

theorem decodeHeader_text {buf : Bytes} {h : Header} (hd : decodeHeader buf = .ok h) :
    h.textEncoding = 0 := by
  unfold decodeHeader at hd
  dsimp only at hd
  split_ifs at hd
  split at hd
  · cases hd
  · split_ifs at hd with _ ht
    cases hd
    exact not_not.mp ht

namespace Header

section RoundTrip

variable (h : Header) (buf : Bytes)

def widths : List ℕ :=
  [21, 1, 10, 2, 1, 1, 4, 4, 4, 4, 4, 4, 4, 4, 4, 1, 1, 1, 1, 1, 3, 4, 8]

theorem map_length_fields : h.fields.map List.length = widths := by
  simp [fields, magicString, widths]

theorem length_fields : h.fields.flatten.length = 92 := by
  rw [length_flatten, map_length_fields]; rfl

theorem length_encode (hb : headerSize ≤ buf.length) : (h.encode buf).length = buf.length := by
  simp only [encode, length_append, length_fields, length_le32, length_cons,
    length_nil, length_drop]
  simp only [headerSize] at *
  omega

variable {h buf} {off : ℕ}

theorem slice_encode {b : Bytes} {off n : ℕ} (k : ℕ) (hk : h.fields[k]? = some b)
    (hoff : (widths.take k).sum = off) (hn : b.length = n) : slice (h.encode buf) off n = b :=
  slice_flatten k hk (by rw [map_take, map_length_fields, hoff]) hn

theorem getD_encode {x : UInt8} (k : ℕ) (hk : h.fields[k]? = some [x])
    (hoff : (widths.take k).sum = off) : (h.encode buf).getD off 0 = x :=
  getD_of_slice (slice_encode k hk hoff rfl)

theorem slice_encode_sum : slice (h.encode buf) 92 4 = le32 h.sum := by
  rw [encode, slice_append_right h.length_fields.le, h.length_fields, Nat.sub_self,
    append_assoc, slice_zero (length_le32 _)]

theorem u32_encode {v : UInt32} (k : ℕ) (hk : h.fields[k]? = some (le32 v))
    (hoff : (widths.take k).sum = off) : UInt32.ofNat (getLE (slice (h.encode buf) off 4)) = v := by
  rw [slice_encode k hk hoff (length_le32 v), getLE_le32]

theorem parse_encode : parse (h.encode buf) h.pageSize = h.stamped := by
  have hsum : UInt32.ofNat (getLE (slice (h.encode buf) 92 4)) = h.sum := by
    rw [slice_encode_sum, getLE_le32]
  have htxn : UInt64.ofNat (getLE (slice (h.encode buf) 84 8)) = h.txnHighWater := by
    have hs : slice (h.encode buf) 84 8 = le64 h.txnHighWater :=
      slice_encode 22 rfl rfl (length_le64 _)
    rw [hs, getLE_le64]
  rw [parse, stamped, Header.mk.injEq]
  exact ⟨rfl, getD_encode 4 rfl rfl, getD_encode 5 rfl rfl, u32_encode 6 rfl rfl,
    u32_encode 7 rfl rfl, u32_encode 8 rfl rfl, u32_encode 9 rfl rfl, u32_encode 10 rfl rfl,
    u32_encode 11 rfl rfl, u32_encode 12 rfl rfl, u32_encode 13 rfl rfl, u32_encode 14 rfl rfl,
    getD_encode 15 rfl rfl, getD_encode 16 rfl rfl, getD_encode 17 rfl rfl,
    getD_encode 18 rfl rfl, getD_encode 19 rfl rfl, u32_encode 21 rfl rfl, htxn, hsum⟩

theorem slice_encode_header : slice (h.encode buf) 0 headerSize = h.encode [] := by
  have hlen : (h.encode []).length = headerSize := by
    simp [encode, h.length_fields, headerSize]
  have happ : h.encode buf = h.encode [] ++ buf.drop headerSize := by
    simp [encode, append_assoc]
  rw [happ, slice_zero hlen]

theorem decodeHeader_encode (ht : h.textEncoding = 0) :
    decodeHeader (h.encode buf) = .ok h.stamped := by
  have hlen : ¬ (h.encode buf).length < headerSize := by
    simp only [encode, length_append, h.length_fields, length_le32, length_cons,
      length_nil, headerSize]
    omega
  have hmagic : slice (h.encode buf) 0 21 = magicString := slice_encode 0 rfl rfl rfl
  have hpad : (h.encode buf).getD 21 0 = 0 := getD_encode 1 rfl rfl
  have hps : slice (h.encode buf) 32 2 = le16 (encodePageSize h.pageSize) :=
    slice_encode 3 rfl rfl rfl
  have hsum : ¬ (h.stamped.checksum ≠ checksumNone ∧
      crc32c (slice (h.encode buf) 0 92) ≠ h.stamped.headerChecksum) := by
    rw [encode, slice_zero h.length_fields]
    rintro ⟨hc, hne⟩
    exact hne (by simp only [stamped, sum] at *; rw [if_pos hc])
  unfold decodeHeader
  rw [if_neg hlen, if_neg (not_not.mpr hmagic), if_neg (not_not.mpr hpad), hps, getLE_le16,
    decodePageSize_encode]
  dsimp only
  have ht : h.stamped.textEncoding = 0 := ht
  rw [parse_encode, if_neg hsum, if_neg (not_not.mpr ht)]

end RoundTrip

end Header

end VecDb.Format

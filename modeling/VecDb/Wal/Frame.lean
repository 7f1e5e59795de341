import VecDb.Base.ChainedLog
import VecDb.Base.Crc

/-! # WAL frames

A frame is a 37-byte header and a payload. Its checksum covers the previous
frame's checksum, the header before the checksum slot, and the payload, so the
frames of one generation form a chained log under the generation's salt.
-/

namespace VecDb.Wal

open Bytes List

inductive FrameType
  | opBatch | commit | checkpoint | pageImage
  deriving DecidableEq

namespace FrameType

def toByte : FrameType → UInt8
  | opBatch => 1
  | commit => 2
  | checkpoint => 3
  | pageImage => 4

def ofByte (b : UInt8) : Option FrameType :=
  if b = 1 then some opBatch
  else if b = 2 then some commit
  else if b = 3 then some checkpoint
  else if b = 4 then some pageImage
  else none

@[simp] theorem ofByte_toByte (t : FrameType) : ofByte t.toByte = some t := by
  cases t <;> rfl

end FrameType

def headerSize : ℕ := 32
def walMagic : UInt32 := 0x76636c67
def walVersion : UInt32 := 1
def frameHeaderSize : ℕ := 1 + 4 + 8 + 8 + 8 + 8

def ecma : BitVec 64 := 0xC96C5795D7870F42

def sum64 (b : Bytes) : UInt64 := ⟨Crc.checksum ecma b⟩

-- the published check value of CRC-64/XZ
example : sum64 [0x31, 0x32, 0x33, 0x34, 0x35, 0x36, 0x37, 0x38, 0x39] = 0x995DC9BBDF1939FA := by
  decide +kernel

def chain (prev : UInt64) (headerSansSum payload : Bytes) : UInt64 :=
  sum64 (be64 prev ++ headerSansSum ++ payload)

/-- One decoded frame; the type stays the raw byte the file holds. -/
structure Frame where
  type : UInt8
  lsn : UInt64
  version : UInt64
  payload : Bytes
  deriving DecidableEq

/-- The frame header up to its checksum slot: type, length, LSN, version and salt. -/
def headerSansSum (type : UInt8) (length : UInt32) (lsn version salt : UInt64) : Bytes :=
  [type] ++ be32 length ++ be64 lsn ++ be64 version ++ be64 salt

namespace Frame

def header (salt : UInt64) (f : Frame) : Bytes :=
  headerSansSum f.type (UInt32.ofNat f.payload.length) f.lsn f.version salt

def sum (salt prev : UInt64) (f : Frame) : UInt64 := chain prev (f.header salt) f.payload

def encode (salt prev : UInt64) (f : Frame) : Bytes :=
  f.header salt ++ be64 (f.sum salt prev) ++ f.payload

def Fits (f : Frame) : Prop := f.payload.length < 2 ^ 32

@[simp] theorem length_header (salt : UInt64) (f : Frame) : (f.header salt).length = 29 := by
  simp [header, headerSansSum]

theorem length_encode (salt prev : UInt64) (f : Frame) :
    (f.encode salt prev).length = frameHeaderSize + f.payload.length := by
  simp [encode, frameHeaderSize]; omega

def parse (b : Bytes) : Frame where
  type := b.getD 0 0
  lsn := UInt64.ofNat (getBE (slice b 5 8))
  version := UInt64.ofNat (getBE (slice b 13 8))
  payload := slice b frameHeaderSize (getBE (slice b 1 4))

def decode (salt prev : UInt64) (b : Bytes) : Option (Frame × Bytes) :=
  if b.length < frameHeaderSize then none
  else if b.length < frameHeaderSize + getBE (slice b 1 4) then none
  else if UInt64.ofNat (getBE (slice b 21 8)) ≠ salt ∨
      chain prev (slice b 0 29) (parse b).payload ≠ UInt64.ofNat (getBE (slice b 29 8)) then none
  else some (parse b, b.drop (frameHeaderSize + getBE (slice b 1 4)))

theorem encode_fields (salt prev : UInt64) (f : Frame) (rest : Bytes) :
    slice (f.encode salt prev ++ rest) 1 4 = be32 (UInt32.ofNat f.payload.length) ∧
    slice (f.encode salt prev ++ rest) 5 8 = be64 f.lsn ∧
    slice (f.encode salt prev ++ rest) 13 8 = be64 f.version ∧
    slice (f.encode salt prev ++ rest) 21 8 = be64 salt ∧
    slice (f.encode salt prev ++ rest) 0 29 = f.header salt ∧
    slice (f.encode salt prev ++ rest) 29 8 = be64 (f.sum salt prev) := by
  simp [slice, encode, header, headerSansSum, drop_append, take_append,
    take_of_length_le, drop_eq_nil_of_le]

theorem encode_payload (salt prev : UInt64) (f : Frame) (rest : Bytes) :
    slice (f.encode salt prev ++ rest) frameHeaderSize f.payload.length = f.payload := by
  have hl : (f.header salt ++ be64 (f.sum salt prev)).length = frameHeaderSize := by
    simp [frameHeaderSize]
  rw [encode, append_assoc, slice_append_right hl.le, hl, Nat.sub_self, slice_zero rfl]

theorem drop_encode (salt prev : UInt64) (f : Frame) (rest : Bytes) :
    (f.encode salt prev ++ rest).drop (frameHeaderSize + f.payload.length) = rest :=
  drop_left' (length_encode ..)

variable {salt prev : UInt64} {f : Frame}

theorem decode_encode (hf : f.Fits) (rest : Bytes) :
    decode salt prev (f.encode salt prev ++ rest) = some (f, rest) := by
  obtain ⟨hlen, hlsn, hver, hsalt, hhdr, hsum⟩ := encode_fields salt prev f rest
  have hp : getBE (be32 (UInt32.ofNat f.payload.length)) = f.payload.length := by
    rw [be32, getBE_putBE, UInt32.toNat_ofNat_of_lt' hf, Nat.mod_eq_of_lt (by simpa [Fits] using hf)]
  have hl : (f.encode salt prev ++ rest).length =
      frameHeaderSize + f.payload.length + rest.length := by
    rw [length_append, length_encode]
  have ht : (f.encode salt prev ++ rest).getD 0 0 = f.type := by
    simp [encode, header, headerSansSum]
  simp only [decode, parse, hlen, hp, encode_payload, drop_encode, hsalt, hhdr, hsum, hlsn, hver,
    ht, getBE_be64]
  rw [if_neg (by omega), if_neg (by omega), if_neg (by simp [sum])]

theorem encode_ne_nil (salt prev : UInt64) (f : Frame) : f.encode salt prev ≠ [] := by
  apply ne_nil_of_length_pos
  rw [length_encode, frameHeaderSize]; omega

theorem decode_eq_some {b rest : Bytes} (h : decode salt prev b = some (f, rest)) :
    f = parse b ∧ rest = b.drop (frameHeaderSize + getBE (slice b 1 4)) ∧
      frameHeaderSize + getBE (slice b 1 4) ≤ b.length ∧
      UInt64.ofNat (getBE (slice b 21 8)) = salt ∧
      chain prev (slice b 0 29) (parse b).payload = UInt64.ofNat (getBE (slice b 29 8)) := by
  unfold decode at h
  split_ifs at h with _ hp hc
  obtain ⟨hsalt, hsum⟩ := not_or.mp hc
  obtain ⟨rfl, rfl⟩ := Prod.mk.inj (Option.some.inj h)
  exact ⟨rfl, rfl, not_lt.mp hp, not_not.mp hsalt, not_not.mp hsum⟩

section Parse

variable {b : Bytes} (hb : frameHeaderSize + getBE (slice b 1 4) ≤ b.length)

include hb

theorem length_field {o n : ℕ} (h : o + n ≤ 37) : (slice b o n).length = n :=
  length_slice (by simp only [frameHeaderSize] at hb; omega)

theorem length_parse_payload : (parse b).payload.length = getBE (slice b 1 4) :=
  length_slice hb

theorem parse_fits : (parse b).Fits := by
  rw [Fits, length_parse_payload hb]
  simpa [length_field hb (show 1 + 4 ≤ 37 by omega)] using getBE_lt (slice b 1 4)

theorem header_parse : (parse b).header (UInt64.ofNat (getBE (slice b 21 8))) = slice b 0 29 := by
  have h0 : [b.getD 0 0] = slice b 0 1 := by
    cases b with
    | nil => simp [frameHeaderSize] at hb
    | cons x b => simp [slice]
  simp only [header, headerSansSum, length_parse_payload hb]
  simp only [parse]
  rw [be32_getBE (length_field hb (by omega)), be64_getBE (length_field hb (by omega)),
    be64_getBE (length_field hb (by omega)), be64_getBE (length_field hb (by omega)), h0,
    slice_append_slice b 0 1 4, slice_append_slice b 0 5 8, slice_append_slice b 0 13 8,
    slice_append_slice b 0 21 8]

end Parse

theorem decode_sound {b rest : Bytes}
    (h : decode salt prev b = some (f, rest)) : f.Fits ∧ b = f.encode salt prev ++ rest := by
  obtain ⟨rfl, rfl, hb, rfl, hsum⟩ := decode_eq_some h
  refine ⟨parse_fits hb, ?_⟩
  rw [encode, sum, header_parse hb, hsum, be64_getBE (length_field hb (by omega)),
    slice_append_slice b 0 29 8, append_assoc, parse, slice_append_drop]
  exact (slice_append_drop b 0 frameHeaderSize).symm

end Frame

/-- The frames of one generation as a chained log. -/
def codec (salt : UInt64) : ChainCodec UInt64 Frame where
  encode := Frame.encode salt
  next := Frame.sum salt
  decode := Frame.decode salt
  Fits := Frame.Fits
  encode_ne_nil := Frame.encode_ne_nil salt
  decode_encode _ _ rest hf := Frame.decode_encode hf rest
  decode_sound _ _ _ _ h := Frame.decode_sound h

end VecDb.Wal

import VecDb.Base.Crc
import VecDb.Base.Fallible

/-! # Backup segments

A segment is a header with the version range and the number of frames, the frames, and a trailer
with a checksum of them. Decoding gives back what was encoded, and nothing less than the whole
segment decodes.
-/

namespace VecDb.Bulk

open Bytes List

structure Frame where
  pageNo : UInt32
  version : UInt64
  commitTS : Int64
  data : Bytes
  deriving DecidableEq

structure Segment where
  baseVersion : UInt64
  endVersion : UInt64
  frames : List Frame
  deriving DecidableEq

inductive SegmentErr
  | tooShort (n : ℕ)
  | headerMagic
  | formatVersion (v : UInt32)
  | headerCRC
  | bodyCRC
  | trailerMagic
  | frameHeader
  | frameData
  | frameCRC (pageNo : UInt32) (version : UInt64)
  | frameCount (n : ℕ) (want : UInt32)
  deriving DecidableEq

def segHeaderSize : ℕ := 32

def segTrailerSize : ℕ := 8

def segFormatVer : UInt32 := 1

def segMagic : Bytes := [0x76, 0x65, 0x63, 0x57]

def segTrailerMagic : UInt32 := 0x76656357

def frameFixedPrefix : ℕ := 4 + 8 + 8 + 4

def checksumIEEE (b : Bytes) : UInt32 := ⟨Crc.checksum (0xedb88320 : BitVec 32) b⟩

def Frame.fixed (f : Frame) : Bytes :=
  be32 f.pageNo ++ be64 f.version ++ be64 f.commitTS.toUInt64 ++ be32 (.ofNat f.data.length)

def writeFrame (f : Frame) : Bytes :=
  f.fixed ++ f.data ++ be32 (checksumIEEE (f.fixed ++ f.data))

def segHeader (baseVersion endVersion : UInt64) (n : ℕ) : Bytes :=
  segMagic ++ be32 segFormatVer ++ be64 baseVersion ++ be64 endVersion ++ be32 (.ofNat n)

def encodeSegment (baseVersion endVersion : UInt64) (frames : List Frame) : Bytes :=
  let header := segHeader baseVersion endVersion frames.length
  let body := frames.flatMap writeFrame
  header ++ be32 (checksumIEEE header) ++ (body ++ (be32 (checksumIEEE body) ++ be32 segTrailerMagic))

def decodeFrame (b : Bytes) : Except SegmentErr (Frame × Bytes) :=
  if b.length < frameFixedPrefix + 4 then .error .frameHeader
  else
    let pageNo := UInt32.ofNat (getBE (slice b 0 4))
    let version := UInt64.ofNat (getBE (slice b 4 8))
    let dataEnd := frameFixedPrefix + getBE (slice b 20 4)
    if b.length < dataEnd + 4 then .error .frameData
    else if checksumIEEE (b.take dataEnd) ≠ .ofNat (getBE (slice b dataEnd 4)) then
      .error (.frameCRC pageNo version)
    else .ok (⟨pageNo, version, (UInt64.ofNat (getBE (slice b 12 8))).toInt64,
      slice b frameFixedPrefix (dataEnd - frameFixedPrefix)⟩, b.drop (dataEnd + 4))

theorem length_lt_of_decodeFrame {b rest : Bytes} {f : Frame}
    (h : decodeFrame b = .ok (f, rest)) : rest.length < b.length := by
  unfold decodeFrame at h
  dsimp only at h
  split at h
  · cases h
  split at h
  · cases h
  split at h
  · cases h
  cases h
  rw [length_drop]
  omega

def readFrames (body : Bytes) : Except SegmentErr (List Frame) :=
  if body = [] then .ok []
  else
    match _h : decodeFrame body with
    | .error e => .error e
    | .ok (f, rest) => (readFrames rest).map (f :: ·)
termination_by body.length
decreasing_by exact length_lt_of_decodeFrame _h

def decodeFrames (body : Bytes) (want : UInt32) : Except SegmentErr (List Frame) := do
  let frames ← readFrames body
  if UInt32.ofNat frames.length ≠ want then .error (.frameCount frames.length want)
  else return frames

def decodeSegment (b : Bytes) : Except SegmentErr Segment :=
  if b.length < segHeaderSize + segTrailerSize then .error (.tooShort b.length)
  else if slice b 0 4 ≠ segMagic then .error .headerMagic
  else if UInt32.ofNat (getBE (slice b 4 4)) ≠ segFormatVer then
    .error (.formatVersion (.ofNat (getBE (slice b 4 4))))
  else if checksumIEEE (b.take 28) ≠ .ofNat (getBE (slice b 28 4)) then .error .headerCRC
  else
    let body := slice b segHeaderSize (b.length - segTrailerSize - segHeaderSize)
    let trailer := b.drop (b.length - segTrailerSize)
    if checksumIEEE body ≠ .ofNat (getBE (slice trailer 0 4)) then .error .bodyCRC
    else if UInt32.ofNat (getBE (slice trailer 4 4)) ≠ segTrailerMagic then .error .trailerMagic
    else (decodeFrames body (.ofNat (getBE (slice b 24 4)))).map fun frames =>
      ⟨.ofNat (getBE (slice b 8 8)), .ofNat (getBE (slice b 16 8)), frames⟩

variable {f : Frame} {fs gs : List Frame} {p rest : Bytes}

@[simp] theorem Frame.length_fixed (f : Frame) : f.fixed.length = frameFixedPrefix := by
  simp [Frame.fixed, frameFixedPrefix]

theorem length_writeFrame (f : Frame) :
    (writeFrame f).length = frameFixedPrefix + f.data.length + 4 := by
  simp [writeFrame, Nat.add_assoc]

theorem Frame.slice_fixed (f : Frame) (rest : Bytes) :
    slice (f.fixed ++ rest) 0 4 = be32 f.pageNo ∧ slice (f.fixed ++ rest) 4 8 = be64 f.version ∧
      slice (f.fixed ++ rest) 12 8 = be64 f.commitTS.toUInt64 ∧
      slice (f.fixed ++ rest) 20 4 = be32 (.ofNat f.data.length) := by
  have hfixed : f.fixed = [be32 f.pageNo, be64 f.version, be64 f.commitTS.toUInt64,
      be32 (.ofNat f.data.length)].flatten := by simp [Frame.fixed]
  rw [hfixed]
  exact ⟨slice_flatten 0 rfl rfl rfl, slice_flatten 1 rfl rfl rfl, slice_flatten 2 rfl rfl rfl,
    slice_flatten 3 rfl rfl rfl⟩

section

variable (hf : f.data.length < 2 ^ 32)
include hf

theorem Frame.getBE_length : getBE (be32 (.ofNat f.data.length)) = f.data.length := by
  rw [be32, getBE_putBE, UInt32.toNat_ofNat_of_lt' hf]
  exact Nat.mod_eq_of_lt hf

theorem decodeFrame_writeFrame : decodeFrame (writeFrame f ++ rest) = .ok (f, rest) := by
  have hlength : (writeFrame f ++ rest).length =
      frameFixedPrefix + f.data.length + 4 + rest.length := by
    rw [length_append, length_writeFrame]
  have hdrop : (writeFrame f ++ rest).drop (frameFixedPrefix + f.data.length + 4) = rest :=
    drop_left' (length_writeFrame f)
  obtain ⟨c, hc, heq⟩ : ∃ c, c = checksumIEEE (f.fixed ++ f.data) ∧
      writeFrame f ++ rest = f.fixed ++ (f.data ++ (be32 c ++ rest)) :=
    ⟨_, rfl, by simp [writeFrame]⟩
  rw [heq] at hlength hdrop ⊢
  obtain ⟨hpage, hversion, hts, hlen⟩ := f.slice_fixed (f.data ++ (be32 c ++ rest))
  have htake : (f.fixed ++ (f.data ++ (be32 c ++ rest))).take
      (frameFixedPrefix + f.data.length) = f.fixed ++ f.data := by
    rw [← f.length_fixed]
    simp [-Frame.length_fixed, take_length_add_append]
  have hcrc : slice (f.fixed ++ (f.data ++ (be32 c ++ rest)))
      (frameFixedPrefix + f.data.length) 4 = be32 c := by
    rw [← f.length_fixed]
    simp [-Frame.length_fixed, slice, drop_length_add_append]
  have hdata : slice (f.fixed ++ (f.data ++ (be32 c ++ rest))) frameFixedPrefix f.data.length =
      f.data := by
    rw [← f.length_fixed]
    simp [-Frame.length_fixed, slice]
  unfold decodeFrame
  rw [hlength, hpage, hversion, hts, hlen, Frame.getBE_length hf, if_neg (by omega)]
  rw [if_neg (by omega), htake, hcrc, getBE_be32, ← hc, if_neg (not_not_intro rfl),
    Nat.add_sub_cancel_left, hdata, hdrop]
  simp

theorem decodeFrame_torn (hp : p <+: writeFrame f)
    (hlt : p.length < (writeFrame f).length) : ∃ e, decodeFrame p = .error e := by
  unfold decodeFrame
  split
  · exact ⟨_, rfl⟩
  rw [length_writeFrame] at hlt
  obtain ⟨q, rfl⟩ : f.fixed <+: p := by
    refine prefix_of_prefix_length_le ?_ hp (by rw [f.length_fixed]; omega)
    rw [writeFrame, append_assoc]
    exact prefix_append ..
  obtain ⟨-, -, -, hlen⟩ := f.slice_fixed q
  rw [hlen, Frame.getBE_length hf, if_pos (by omega)]
  exact ⟨_, rfl⟩

end

theorem readFrames_flatMap (hfs : ∀ f ∈ fs, f.data.length < 2 ^ 32) :
    readFrames (fs.flatMap writeFrame) = .ok fs := by
  induction fs with
  | nil => rw [readFrames]; rfl
  | cons f fs ih =>
    have hne : writeFrame f ++ fs.flatMap writeFrame ≠ [] := by
      intro h
      have := congrArg List.length h
      rw [length_append, length_writeFrame, length_nil] at this
      omega
    rw [flatMap_cons, readFrames, if_neg hne]
    split
    · rename_i e h
      rw [decodeFrame_writeFrame (hfs f mem_cons_self)] at h
      cases h
    · rename_i g rest h
      rw [decodeFrame_writeFrame (hfs f mem_cons_self)] at h
      cases h
      rw [ih fun g hg => hfs g (mem_cons_of_mem _ hg)]
      rfl

theorem length_lt_of_readFrames (hfs : ∀ f ∈ fs, f.data.length < 2 ^ 32)
    (hp : p <+: fs.flatMap writeFrame) (hlt : p.length < (fs.flatMap writeFrame).length)
    (h : readFrames p = .ok gs) : gs.length < fs.length := by
  induction fs generalizing p gs with
  | nil => cases hlt
  | cons f fs ih =>
    have hf := hfs f mem_cons_self
    rw [flatMap_cons] at hp hlt
    rw [readFrames] at h
    split at h
    · cases h
      simp
    split at h
    · cases h
    rename_i g rest hg
    obtain ⟨gs', hgs', h⟩ := Fallible.map_eq_ok.mp h
    cases h
    -- the first frame is whole
    rcases Nat.lt_or_ge p.length (writeFrame f).length with hshort | hwhole
    · obtain ⟨e, he⟩ := decodeFrame_torn hf
        (prefix_of_prefix_length_le hp (prefix_append ..) hshort.le) hshort
      rw [he] at hg
      cases hg
    · obtain ⟨q, rfl⟩ := prefix_of_prefix_length_le (prefix_append ..) hp hwhole
      rw [decodeFrame_writeFrame hf] at hg
      cases hg
      rw [length_append, length_append] at hlt
      have := ih (fun g hg => hfs g (mem_cons_of_mem _ hg))
        ((prefix_append_right_inj _).mp hp) (by omega) hgs'
      simpa using this

variable {baseVersion endVersion : UInt64} {n : ℕ} {tail : Bytes}

def sealedHeader (baseVersion endVersion : UInt64) (n : ℕ) : Bytes :=
  segHeader baseVersion endVersion n ++ be32 (checksumIEEE (segHeader baseVersion endVersion n))

@[simp] theorem length_sealedHeader :
    (sealedHeader baseVersion endVersion n).length = segHeaderSize := by
  simp [sealedHeader, segHeader, segMagic, segHeaderSize]

theorem decodeSegment_sealedHeader (hlen : segTrailerSize ≤ tail.length) :
    decodeSegment (sealedHeader baseVersion endVersion n ++ tail) =
      let body := tail.take (tail.length - segTrailerSize)
      let trailer := tail.drop (tail.length - segTrailerSize)
      if checksumIEEE body ≠ .ofNat (getBE (slice trailer 0 4)) then .error .bodyCRC
      else if UInt32.ofNat (getBE (slice trailer 4 4)) ≠ segTrailerMagic then .error .trailerMagic
      else (decodeFrames body (.ofNat n)).map (⟨baseVersion, endVersion, ·⟩) := by
  obtain ⟨b, hb⟩ : ∃ b, b = sealedHeader baseVersion endVersion n ++ tail := ⟨_, rfl⟩
  have hlength : b.length = segHeaderSize + tail.length := by simp [hb]
  have hheader : b.take 28 = segHeader baseVersion endVersion n := by
    rw [hb, sealedHeader, append_assoc]
    exact take_left' (by simp [segHeader, segMagic])
  have hbody : slice b segHeaderSize
      (segHeaderSize + tail.length - segTrailerSize - segHeaderSize) =
      tail.take (tail.length - segTrailerSize) := by
    rw [hb, slice_append_right (by simp), length_sealedHeader, Nat.sub_self, slice, drop_zero]
    congr 1
    omega
  have htrailer : b.drop (segHeaderSize + tail.length - segTrailerSize) =
      tail.drop (tail.length - segTrailerSize) := by
    rw [hb, Nat.add_sub_assoc hlen, ← @length_sealedHeader baseVersion endVersion n,
      drop_length_add_append]
  have hfields : b = [segMagic, be32 segFormatVer, be64 baseVersion, be64 endVersion,
      be32 (.ofNat n), be32 (checksumIEEE (segHeader baseVersion endVersion n))].flatten ++
      tail := by
    simp [hb, sealedHeader, segHeader]
  have hslices : slice b 0 4 = segMagic ∧ slice b 4 4 = be32 segFormatVer ∧
      slice b 8 8 = be64 baseVersion ∧ slice b 16 8 = be64 endVersion ∧
      slice b 24 4 = be32 (.ofNat n) ∧
      slice b 28 4 = be32 (checksumIEEE (segHeader baseVersion endVersion n)) := by
    rw [hfields]
    exact ⟨slice_flatten 0 rfl rfl rfl, slice_flatten 1 rfl rfl rfl, slice_flatten 2 rfl rfl rfl,
      slice_flatten 3 rfl rfl rfl, slice_flatten 4 rfl rfl rfl, slice_flatten 5 rfl rfl rfl⟩
  obtain ⟨h₀, h₁, h₂, h₃, h₄, h₅⟩ := hslices
  rw [← hb]
  unfold decodeSegment
  simp only [hlength, h₀, h₁, h₂, h₃, h₄, h₅, hheader, hbody, htrailer, getBE_be32, getBE_be64,
    ne_eq, not_true_eq_false, if_false, Nat.add_lt_add_iff_left, Nat.not_lt.mpr hlen]

/-- Decoding gives back what was encoded, and no strict part of it from the front decodes. -/
theorem segment_round_trip (baseVersion endVersion : UInt64) (frames : List Frame)
    (hcount : frames.length < 2 ^ 32) (hdata : ∀ f ∈ frames, f.data.length < 2 ^ 32) :
    decodeSegment (encodeSegment baseVersion endVersion frames) =
        .ok ⟨baseVersion, endVersion, frames⟩ ∧
      ∀ p, p <+: encodeSegment baseVersion endVersion frames →
        p ≠ encodeSegment baseVersion endVersion frames → ∃ e, decodeSegment p = .error e := by
  obtain ⟨body, hbody⟩ : ∃ body, body = frames.flatMap writeFrame := ⟨_, rfl⟩
  obtain ⟨trailer, htrailer⟩ : ∃ trailer,
    trailer = be32 (checksumIEEE body) ++ be32 segTrailerMagic := ⟨_, rfl⟩
  have hsize : trailer.length = segTrailerSize := by rw [htrailer]; rfl
  have hencode : encodeSegment baseVersion endVersion frames =
      sealedHeader baseVersion endVersion frames.length ++ (body ++ trailer) := by
    rw [encodeSegment, sealedHeader, ← hbody, ← htrailer]
  rw [hencode]
  constructor
  · rw [decodeSegment_sealedHeader (by simp [hsize])]
    have hcut : (body ++ trailer).length - segTrailerSize = body.length := by simp [hsize]
    have hcrc : slice trailer 0 4 = be32 (checksumIEEE body) := by
      rw [htrailer]
      exact slice_zero (length_be32 _)
    have hmagic : slice trailer 4 4 = be32 segTrailerMagic := by
      rw [htrailer, slice_append_right (by simp)]
      exact take_of_length_le (by simp)
    dsimp only
    rw [hcut, take_left, drop_left, hcrc, hmagic, getBE_be32, getBE_be32,
      if_neg (not_not_intro rfl), if_neg (not_not_intro rfl), decodeFrames, hbody,
      readFrames_flatMap hdata]
    simp [bind, Except.bind, Except.map, pure, Except.pure]
  · intro p hp hne
    have hlt : p.length < (sealedHeader baseVersion endVersion frames.length ++
        (body ++ trailer)).length := by
      refine lt_of_le_of_ne hp.length_le fun h => hne (hp.eq_of_length h)
    rcases Nat.lt_or_ge p.length (segHeaderSize + segTrailerSize) with hshort | hlong
    · exact ⟨_, if_pos hshort⟩
    obtain ⟨q, rfl⟩ := prefix_of_prefix_length_le (prefix_append ..) hp
      (by rw [length_sealedHeader]; omega)
    rw [length_append, length_sealedHeader] at hlong
    rw [decodeSegment_sealedHeader (by omega)]
    dsimp only
    split
    · exact ⟨_, rfl⟩
    split
    · exact ⟨_, rfl⟩
    -- the trailer is taken out of the body, so that frames are missing
    simp only [length_append, hsize] at hlt
    have hfewer : q.take (q.length - segTrailerSize) <+: body :=
      prefix_of_prefix_length_le (( take_prefix ..).trans
        ((prefix_append_right_inj _).mp hp)) (prefix_append ..) (by simp; omega)
    rcases hread : readFrames (q.take (q.length - segTrailerSize)) with e | gs
    · exact ⟨e, by rw [decodeFrames, hread]; rfl⟩
    · have hlen := length_lt_of_readFrames hdata (hbody ▸ hfewer)
        (by rw [← hbody, length_take]; omega) hread
      refine ⟨.frameCount gs.length (.ofNat frames.length), ?_⟩
      have hdiff : UInt32.ofNat gs.length ≠ .ofNat frames.length := by
        intro h
        have := congrArg UInt32.toNat h
        rw [UInt32.toNat_ofNat_of_lt' (hlen.trans hcount), UInt32.toNat_ofNat_of_lt' hcount] at this
        omega
      rw [decodeFrames, hread]
      simp [bind, Except.bind, Except.map, hdiff]

theorem segment_round_trip_two :
    decodeSegment (encodeSegment 10 12 [⟨1, 10, 17, [0xab]⟩, ⟨2, 11, -1, []⟩]) =
        .ok ⟨10, 12, [⟨1, 10, 17, [0xab]⟩, ⟨2, 11, -1, []⟩]⟩ ∧
      ∀ p, p <+: encodeSegment 10 12 [⟨1, 10, 17, [0xab]⟩, ⟨2, 11, -1, []⟩] →
        p ≠ encodeSegment 10 12 [⟨1, 10, 17, [0xab]⟩, ⟨2, 11, -1, []⟩] →
        ∃ e, decodeSegment p = .error e :=
  segment_round_trip 10 12 _ (by decide) (by decide)

end VecDb.Bulk

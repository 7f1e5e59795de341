import VecDb.Base.Bytes

/-! # Text as bytes

Strings are byte strings that mostly hold UTF-8. A rune is decoded from the front of a
byte string and encoded to one to four bytes; what is not UTF-8 decodes to no rune.
-/

namespace VecDb

open List

abbrev byte (c : Char) : UInt8 := c.toUInt8

def ascii (s : String) : Bytes := s.toUTF8.data.toList

theorem forall_byte {p : UInt8 → Prop} (h : ∀ n ∈ List.range 256, p (UInt8.ofNat n)) (c : UInt8) :
    p c := by
  have hc := h c.toNat (mem_range.mpr c.toNat_lt)
  rwa [UInt8.ofNat_toNat] at hc

namespace Utf8

def isContinuation (b : UInt8) : Bool := 0x80 ≤ b && b ≤ 0xbf

def validRune (r : ℕ) : Bool := r < 0xd800 || 0xdfff < r && r ≤ 0x10ffff

def encodeRune (r : ℕ) : Bytes :=
  if r < 0x80 then [UInt8.ofNat r]
  else if r < 0x800 then [UInt8.ofNat (0xc0 + r / 64), UInt8.ofNat (0x80 + r % 64)]
  else if r < 0x10000 then
    [UInt8.ofNat (0xe0 + r / 4096), UInt8.ofNat (0x80 + r / 64 % 64), UInt8.ofNat (0x80 + r % 64)]
  else
    [UInt8.ofNat (0xf0 + r / 262144), UInt8.ofNat (0x80 + r / 4096 % 64),
      UInt8.ofNat (0x80 + r / 64 % 64), UInt8.ofNat (0x80 + r % 64)]

/-- The range of the second byte after a given first one. -/
def secondRange (b : UInt8) : UInt8 × UInt8 :=
  if b = 0xe0 then (0xa0, 0xbf)
  else if b = 0xed then (0x80, 0x9f)
  else if b = 0xf0 then (0x90, 0xbf)
  else if b = 0xf4 then (0x80, 0x8f)
  else (0x80, 0xbf)

def decodeRune (s : Bytes) : Option ℕ :=
  match s with
  | [] => none
  | b₀ :: s =>
    let (lo, hi) := secondRange b₀
    if b₀ < 0x80 then some b₀.toNat
    else if b₀ < 0xc2 then none
    else
      match s with
      | [] => none
      | b₁ :: s =>
        if !(lo ≤ b₁ && b₁ ≤ hi) then none
        else if b₀ < 0xe0 then some (b₀.toNat % 32 * 64 + b₁.toNat % 64)
        else
          match s with
          | [] => none
          | b₂ :: s =>
            if !isContinuation b₂ then none
            else if b₀ < 0xf0 then
              some (b₀.toNat % 16 * 4096 + b₁.toNat % 64 * 64 + b₂.toNat % 64)
            else if b₀ < 0xf5 then
              match s with
              | [] => none
              | b₃ :: _ =>
                if !isContinuation b₃ then none
                else some (b₀.toNat % 8 * 262144 + b₁.toNat % 64 * 4096 + b₂.toNat % 64 * 64 +
                  b₃.toNat % 64)
            else none

theorem decodeRune_ascii {b : UInt8} (h : b < 0x80) (s : Bytes) :
    decodeRune (b :: s) = some b.toNat := by
  rw [decodeRune]
  exact if_pos h

example : decodeRune (encodeRune 0x20ac) = some 0x20ac := by decide

end Utf8

def spaceRunes : List ℕ :=
  [0x09, 0x0a, 0x0b, 0x0c, 0x0d, 0x20, 0x85, 0xa0, 0x1680, 0x2000, 0x2001, 0x2002, 0x2003, 0x2004,
    0x2005, 0x2006, 0x2007, 0x2008, 0x2009, 0x200a, 0x2028, 0x2029, 0x202f, 0x205f, 0x3000]

/-- Take texts off the front, as long as there is one of the list, for some rounds at most. -/
def stripFront (texts : List Bytes) : ℕ → Bytes → Bytes
  | 0, s => s
  | n + 1, s =>
    match texts.find? fun t => t <+: s with
    | none => s
    | some t => stripFront texts n (s.drop t.length)

def trimSpace (s : Bytes) : Bytes :=
  let spaces := spaceRunes.map Utf8.encodeRune
  let s := stripFront spaces s.length s
  (stripFront (spaces.map List.reverse) s.length s.reverse).reverse

example : trimSpace (ascii " \t a b\u00a0 ") = ascii "a b" := by decide

def spaceByte (c : UInt8) : Bool := spaceRunes.any fun r => c ∈ Utf8.encodeRune r

theorem stripFront_append (texts : List Bytes) (n : ℕ) (s : Bytes) :
    ∃ p, s = p ++ stripFront texts n s ∧ ∀ c ∈ p, ∃ t ∈ texts, c ∈ t := by
  induction n generalizing s with
  | zero => exact ⟨[], rfl, by simp⟩
  | succ n ih =>
    rw [stripFront]
    split
    · exact ⟨[], rfl, by simp⟩
    · rename_i t ht
      obtain ⟨u, rfl⟩ : t <+: s := by simpa using find?_some ht
      obtain ⟨p, hp, hall⟩ := ih u
      refine ⟨t ++ p, ?_, fun c hc => ?_⟩
      · rw [drop_left, append_assoc, ← hp]
      · rcases mem_append.mp hc with hc | hc
        · exact ⟨t, mem_of_find?_eq_some ht, hc⟩
        · exact hall c hc

theorem trimSpace_append (s : Bytes) :
    ∃ p q, s = p ++ trimSpace s ++ q ∧ ∀ c ∈ p ++ q, spaceByte c = true := by
  obtain ⟨p, hp, hpall⟩ := stripFront_append (spaceRunes.map Utf8.encodeRune) s.length s
  generalize hs : stripFront (spaceRunes.map Utf8.encodeRune) s.length s = s' at hp
  obtain ⟨q, hq, hqall⟩ := stripFront_append
    ((spaceRunes.map Utf8.encodeRune).map List.reverse) s'.length s'.reverse
  refine ⟨p, q.reverse, ?_, fun c hc => ?_⟩
  · have hrev := congrArg List.reverse hq
    rw [reverse_reverse, reverse_append] at hrev
    rw [trimSpace, hs, append_assoc, ← hrev, ← hp]
  · rw [spaceByte, any_eq_true]
    rcases mem_append.mp hc with hc | hc
    · obtain ⟨t, ht, hct⟩ := hpall c hc
      obtain ⟨r, hr, rfl⟩ := mem_map.mp ht
      exact ⟨r, hr, decide_eq_true hct⟩
    · obtain ⟨t, ht, hct⟩ := hqall c (mem_reverse.mp hc)
      obtain ⟨u, hu, rfl⟩ := mem_map.mp ht
      obtain ⟨r, hr, rfl⟩ := mem_map.mp hu
      exact ⟨r, hr, decide_eq_true (mem_reverse.mp hct)⟩

/-- A text in lower case. Two letters outside ASCII have a lower case in it; all others are left
as they are. -/
def lowerText : Bytes → Bytes
  | 0xc4 :: 0xb0 :: s => byte 'i' :: lowerText s
  | 0xe2 :: 0x84 :: 0xaa :: s => byte 'k' :: lowerText s
  | c :: s => (if byte 'A' ≤ c ∧ c ≤ byte 'Z' then c + 32 else c) :: lowerText s
  | [] => []

example : lowerText (ascii "ROLLBAC\u212a") = ascii "rollback" := by decide

end VecDb

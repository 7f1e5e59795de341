import VecDb.VectorSql.Lexer

/-! # What may follow a token

A scanner reads as much as it can. Whether it stops after given bytes depends on the byte
that comes next; if it does not stop there, it fails or reads on.
-/

namespace VecDb.VectorSql

open List

section Width

variable {p : UInt8 → Bool} {u s s' : Bytes} {c : UInt8}

@[simp] theorem peekAt_cons_zero (c : UInt8) (s : Bytes) : peekAt (c :: s) 0 = c := rfl

@[simp] theorem peekAt_cons_succ (c : UInt8) (s : Bytes) (i : ℕ) :
    peekAt (c :: s) (i + 1) = peekAt s i := rfl

theorem takeWhile_append (hu : ∀ c ∈ u, p c = true) : (u ++ s).takeWhile p = u ++ s.takeWhile p :=
  takeWhile_append_of_pos hu

theorem width_append (hu : ∀ c ∈ u, p c = true) : width p (u ++ s) = u.length + width p s := by
  rw [width, takeWhile_append hu, length_append]
  rfl

theorem takeWhile_eq_nil (h : p (peekAt s 0) = false) : s.takeWhile p = [] := by
  rcases s with _ | ⟨c, s⟩
  · rfl
  · rw [peekAt_cons_zero] at h
    rw [takeWhile_cons_of_neg (Bool.eq_false_iff.mp h)]

theorem width_eq_zero (h : p (peekAt s 0) = false) : width p s = 0 := by
  rw [width, takeWhile_eq_nil h]
  rfl

theorem width_split (p : UInt8 → Bool) (h0 : p 0 = false) (r : Bytes) :
    ∃ u s, r = u ++ s ∧ u.length = width p r ∧ (∀ c ∈ u, p c = true) ∧ p (peekAt s 0) = false := by
  refine ⟨r.takeWhile p, r.dropWhile p, takeWhile_append_dropWhile.symm, rfl, ?_, ?_⟩
  · exact fun c hc => mem_takeWhile_imp hc
  · rcases hr : r.dropWhile p with _ | ⟨c, s⟩
    · exact h0
    · have hc := @List.head_dropWhile_not _ p r (by rw [hr]; exact cons_ne_nil c s)
      simp only [hr, head_cons] at hc
      simpa using hc

theorem width_pos (h0 : p 0 = false) (h : p (peekAt s 0) = true) : 0 < width p s := by
  rcases s with _ | ⟨c, s⟩
  · exact absurd (h0.symm.trans h) Bool.false_ne_true
  · rw [peekAt_cons_zero] at h
    rw [width, takeWhile_cons_of_pos h]
    exact Nat.succ_pos _

/-- What stops a scanner before `s` stops it before `s'`, if a new line and the end stop it. -/
def Stops (s s' : Bytes) : Prop :=
  ∀ p : UInt8 → Bool, p 0 = false → p (byte '\n') = false → p (peekAt s 0) = false →
    p (peekAt s' 0) = false

theorem Stops.ne (hs : Stops s s') (h : peekAt s 0 ≠ c) (h0 : c ≠ 0) (hn : c ≠ byte '\n') :
    peekAt s' 0 ≠ c := by
  simpa using hs (· == c) (by simpa using h0.symm) (by simpa using hn.symm) (by simpa using h)

theorem Stops.append (hs : Stops s s') (u : Bytes) : Stops (u ++ s) (u ++ s') := by
  rcases u with _ | ⟨c, u⟩
  · exact hs
  · exact fun p _ _ hp => hp

end Width

section Words

variable {off : ℕ} {raw s : Bytes} {t : Token} {n : ℕ}

/-- What follows is no letter outside ASCII. -/
def RuneNext (s : Bytes) : Prop :=
  ¬ ((Utf8.decodeRune s).getD 0xfffd ≠ 0xfffd ∧ 0x80 ≤ (Utf8.decodeRune s).getD 0xfffd ∧
    !isBoundary ((Utf8.decodeRune s).getD 0xfffd))

theorem runeNext_of_ascii (h : peekAt s 0 < 0x80) : RuneNext s := by
  rcases s with _ | ⟨c, s⟩
  · exact fun h => h.1 rfl
  · rw [peekAt_cons_zero] at h
    rw [RuneNext, Utf8.decodeRune_ascii h]
    exact fun hn => absurd hn.2.1 (Nat.not_le.mpr h)

def wordToken (off : ℕ) (raw : Bytes) : Token :=
  ⟨if isKeyword (raw.map toLower) then .keyword else .ident, raw.map toLower, off, [], 0⟩

theorem scanWord_append (hraw : ∀ c ∈ raw, isIdentPart c = true) (hnext : RuneNext s)
    (hs : isIdentPart (peekAt s 0) = false) :
    scanWord off (raw ++ s) = .ok (wordToken off raw, raw.length) := by
  unfold scanWord
  rw [takeWhile_append hraw, takeWhile_eq_nil hs, append_nil]
  dsimp only
  rw [drop_left, if_neg hnext]
  rfl

theorem scanWord_eq_ok {rest : Bytes} (h : scanWord off rest = .ok (t, n)) :
    ∃ raw s, rest = raw ++ s ∧ n = raw.length ∧ (∀ c ∈ raw, isIdentPart c = true) ∧ RuneNext s ∧
      isIdentPart (peekAt s 0) = false ∧ t = wordToken off raw := by
  obtain ⟨raw, s, rfl, hlen, hraw, hs⟩ := width_split isIdentPart rfl rest
  unfold scanWord at h
  dsimp only at h
  rw [takeWhile_append hraw, takeWhile_eq_nil hs, append_nil, drop_left] at h
  split at h
  · cases h
  · rename_i hnext
    cases h
    exact ⟨raw, s, rfl, rfl, hraw, hnext, hs, rfl⟩

end Words

section Params

variable {off : ℕ} {raw s rest : Bytes} {c : UInt8} {t : Token} {n : ℕ}

def paramNumber (num : Bytes) : Int64 :=
  num.foldl (fun n c => n * 10 + (Int64.ofNat c.toNat - 48)) 0

theorem takeWhile_tail {p : UInt8 → Bool} (hraw : ∀ d ∈ raw, p d = true)
    (hs : p (peekAt s 0) = false) : (c :: raw ++ s).tail.takeWhile p = raw := by
  rw [cons_append, tail_cons, takeWhile_append hraw, takeWhile_eq_nil hs, append_nil]

theorem scanNamedParam_append (hne : raw ≠ []) (hraw : ∀ d ∈ raw, isIdentPart d = true)
    (hs : isIdentPart (peekAt s 0) = false) : scanNamedParam off (c :: raw ++ s) =
      .ok (⟨.param, [], off, raw.map toLower, 0⟩, raw.length + 1) := by
  simp only [scanNamedParam, takeWhile_tail hraw hs, if_neg hne]

theorem scanNamedParam_eq_ok (h : scanNamedParam off (c :: rest) = .ok (t, n)) :
    ∃ raw s, rest = raw ++ s ∧ n = raw.length + 1 ∧ raw ≠ [] ∧
      (∀ d ∈ raw, isIdentPart d = true) ∧ isIdentPart (peekAt s 0) = false ∧
      t = ⟨.param, [], off, raw.map toLower, 0⟩ := by
  obtain ⟨raw, s, rfl, -, hraw, hs⟩ := width_split isIdentPart rfl rest
  simp only [scanNamedParam, ← cons_append, takeWhile_tail hraw hs] at h
  split at h
  · cases h
  · cases h
    exact ⟨raw, s, rfl, rfl, ‹_›, hraw, hs, rfl⟩

theorem scanPositionalParam_append (hne : raw ≠ []) (hraw : ∀ d ∈ raw, isDigit d = true)
    (hpos : paramNumber raw ≠ 0) (hs : isDigit (peekAt s 0) = false) :
    scanPositionalParam off (c :: raw ++ s) =
      .ok (⟨.param, [], off, [], paramNumber raw⟩, raw.length + 1) := by
  simp only [scanPositionalParam, takeWhile_tail hraw hs, if_neg hne]
  exact if_neg hpos

theorem scanPositionalParam_eq_ok (h : scanPositionalParam off (c :: rest) = .ok (t, n)) :
    ∃ raw s, rest = raw ++ s ∧ n = raw.length + 1 ∧ raw ≠ [] ∧ (∀ d ∈ raw, isDigit d = true) ∧
      paramNumber raw ≠ 0 ∧ isDigit (peekAt s 0) = false ∧
      t = ⟨.param, [], off, [], paramNumber raw⟩ := by
  obtain ⟨raw, s, rfl, -, hraw, hs⟩ := width_split isDigit rfl rest
  simp only [scanPositionalParam, ← cons_append, takeWhile_tail hraw hs] at h
  split at h
  · cases h
  · split at h
    · cases h
    · cases h
      exact ⟨raw, s, rfl, rfl, ‹_›, hraw, ‹_›, hs, rfl⟩

end Params

end VecDb.VectorSql

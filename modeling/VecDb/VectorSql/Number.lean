import VecDb.VectorSql.Munch

/-! # Number literals

A decimal number has digits, then perhaps a point with digits and an exponent; a number
with a radix mark has digits of that radix. Where a number ends depends on its parts.
-/

namespace VecDb.VectorSql

open List Nat

section Plain

variable {u v : Bytes} {c : UInt8}

/-- The bytes of tokens that have no quotes, but for the semicolon. -/
def tokenByte (c : UInt8) : Bool := isIdentPart c || c ∈ ascii ".+-:<>=|!@&#,()*/%"

def dashes : Bytes → Bool
  | c :: d :: u => c == byte '-' && d == byte '-' || dashes (d :: u)
  | _ => false

/-- No quotes, no semicolon, no two dashes and no dash at the end. -/
structure Plain (u : Bytes) : Prop where
  bytes : ∀ c ∈ u, tokenByte c = true
  dashes : dashes u = false
  last : u.getLast? ≠ some (byte '-')

theorem tokenByte_of_part (h : isIdentPart c = true) : tokenByte c = true := by
  simp [tokenByte, h]

theorem part_of_digit (h : isDigit c = true) : isIdentPart c = true := by
  simp [isIdentPart, h]

theorem dashes_cons (h : c ≠ byte '-' ∨ peekAt u 0 ≠ byte '-') : dashes (c :: u) = dashes u := by
  rcases u with _ | ⟨d, u⟩
  · rfl
  · rw [dashes]
    rcases h with h | h
    · simp [h]
    · rw [peekAt_cons_zero] at h
      simp [h]

theorem of_dashes_cons (h : dashes (c :: u) = false) :
    dashes u = false ∧ (c = byte '-' → peekAt u 0 ≠ byte '-') := by
  rcases u with _ | ⟨d, u⟩
  · exact ⟨rfl, fun _ => by decide⟩
  · rw [dashes, Bool.or_eq_false_iff] at h
    exact ⟨h.2, by simpa using h.1⟩

theorem dashes_append (hu : dashes u = false)
    (hlast : u.getLast? = some (byte '-') → peekAt v 0 ≠ byte '-') : dashes (u ++ v) = dashes v := by
  induction u with
  | nil => rfl
  | cons c u ih =>
    obtain ⟨hu', hc⟩ := of_dashes_cons hu
    rcases u with _ | ⟨d, u⟩
    · rw [singleton_append, dashes_cons]
      rw [← not_and_or]
      exact fun h => hlast (by rw [h.1]; rfl) h.2
    · rw [cons_append, dashes_cons, ih hu' (by simpa using hlast)]
      rw [← not_and_or]
      exact fun h => hc h.1 h.2

theorem Plain.append (hu : Plain u) (hv : Plain v) : Plain (u ++ v) where
  bytes c hc := (mem_append.mp hc).elim (hu.bytes c) (hv.bytes c)
  dashes := (dashes_append hu.dashes fun h => absurd h hu.last).trans hv.dashes
  last h := by
    rw [getLast?_append] at h
    rcases hlast : v.getLast? with _ | c
    · exact hu.last (by simpa [hlast] using h)
    · exact hv.last (by simpa [hlast] using h)

theorem plain_singleton (h : tokenByte c = true) (hc : c ≠ byte '-') : Plain [c] :=
  ⟨by simpa using h, rfl, by simpa using hc⟩

theorem plain_of_part (h : ∀ c ∈ u, isIdentPart c = true) : Plain u := by
  induction u with
  | nil => exact ⟨by simp, rfl, by simp⟩
  | cons c u ih =>
    obtain ⟨hc, hu⟩ := forall_mem_cons.mp h
    have hdash : c ≠ byte '-' := by
      rintro rfl
      exact absurd hc (by decide)
    exact (plain_singleton (tokenByte_of_part hc) hdash).append (ih hu)

theorem plain_digits (h : ∀ c ∈ u, isDigit c = true) : Plain u :=
  plain_of_part fun c hc => part_of_digit (h c hc)

end Plain

variable {off n : ℕ} {s rest : Bytes} {t : Token}

theorem fraction_reads (r : Bytes) : ∃ u s, r = u ++ s ∧ u.length = fractionWidth r ∧ Plain u ∧
    ∀ s', Stops s s' → fractionWidth (u ++ s') = u.length := by
  by_cases h : peekAt r 0 = byte '.'
  · rcases r with _ | ⟨c, r⟩
    · cases h
    rw [peekAt_cons_zero] at h
    subst h
    obtain ⟨ds, s, rfl, hlen, hds, hs⟩ := width_split isDigit rfl r
    refine ⟨byte '.' :: ds, s, rfl, ?_, ?_, fun s' hs' => ?_⟩
    · rw [fractionWidth, peekAt_cons_zero, if_pos rfl, tail_cons, ← hlen, length_cons, add_comm]
    · exact (plain_singleton (by decide) (by decide)).append (plain_digits hds)
    · rw [fractionWidth, cons_append, peekAt_cons_zero, if_pos rfl, tail_cons, width_append hds,
        width_eq_zero (hs' _ rfl rfl hs), length_cons, add_comm]
  · refine ⟨[], r, rfl, (if_neg h).symm, plain_digits (by simp), fun s' hs' => ?_⟩
    exact if_neg (hs'.ne h (by decide) (by decide))

theorem sign_split (r : Bytes) : ∃ sign s, r = sign ++ s ∧
    (sign = [] ∨ sign = [byte '+'] ∨ sign = [byte '-']) ∧
    (if peekAt r 0 = byte '+' ∨ peekAt r 0 = byte '-' then 2 else 1) = 1 + sign.length := by
  by_cases h : peekAt r 0 = byte '+' ∨ peekAt r 0 = byte '-'
  · rcases r with _ | ⟨c, r⟩
    · rcases h with h | h <;> cases h
    · rw [peekAt_cons_zero] at h
      refine ⟨[c], r, rfl, ?_, if_pos h⟩
      rcases h with rfl | rfl
      · exact .inr (.inl rfl)
      · exact .inr (.inr rfl)
  · exact ⟨[], r, rfl, .inl rfl, if_neg h⟩

theorem plain_exponent {e : UInt8} {sign ds : Bytes} (he : e = byte 'e' ∨ e = byte 'E')
    (hsign : sign = [] ∨ sign = [byte '+'] ∨ sign = [byte '-'])
    (hds : ∀ c ∈ ds, isDigit c = true) (hne : ds ≠ []) : Plain (e :: (sign ++ ds)) := by
  have hmark : Plain [e] := by
    rcases he with rfl | rfl <;> exact plain_singleton (by decide) (by decide)
  refine hmark.append ?_
  rcases hsign with rfl | rfl | rfl
  · exact plain_digits hds
  · exact (plain_singleton (by decide) (by decide)).append (plain_digits hds)
  · have hp := plain_digits hds
    obtain ⟨d, ds, rfl⟩ := exists_cons_of_ne_nil hne
    have hd : d ≠ byte '-' := by
      rintro rfl
      exact absurd (hds _ mem_cons_self) (by decide)
    refine ⟨forall_mem_cons.mpr ⟨by decide, hp.bytes⟩, ?_, by simpa using hp.last⟩
    exact (@dashes_cons (d :: ds) _ (.inr hd)).trans hp.dashes

theorem exponent_reads {r : Bytes} (h : exponentWidth r = some n) : ∃ u s, r = u ++ s ∧
    u.length = n ∧ Plain u ∧ ∀ s', Stops s s' → exponentWidth (u ++ s') = some u.length := by
  unfold exponentWidth at h
  by_cases he : peekAt r 0 = byte 'e' ∨ peekAt r 0 = byte 'E'
  · rw [if_pos he] at h
    rcases r with _ | ⟨e, r⟩
    · rcases he with he | he <;> cases he
    rw [peekAt_cons_zero] at he
    obtain ⟨sign, r', rfl, hsign, hlen⟩ := sign_split r
    dsimp only at h
    rw [peekAt_cons_succ, hlen, add_comm 1, drop_succ_cons, drop_left] at h
    obtain ⟨ds, s, rfl, hds, hdigits, hs⟩ := width_split isDigit rfl r'
    rw [← hds] at h
    split at h
    · cases h
    rename_i hne
    have hwidth : (e :: (sign ++ ds)).length = sign.length + 1 + ds.length := by
      rw [length_cons, length_append]
      omega
    have hds' : ds ≠ [] := fun h => hne (by rw [h]; rfl)
    refine ⟨e :: (sign ++ ds), s, by simp, hwidth.trans (Option.some.inj h),
      plain_exponent he hsign hdigits hds', fun s' hs' => ?_⟩
    have hpeek : peekAt (sign ++ (ds ++ s')) 0 = peekAt (sign ++ (ds ++ s)) 0 := by
      obtain ⟨d, ds, rfl⟩ := exists_cons_of_ne_nil hds'
      rcases hsign with rfl | rfl | rfl <;> rfl
    rw [exponentWidth, cons_append, append_assoc, peekAt_cons_zero, if_pos he]
    dsimp only
    rw [peekAt_cons_succ, hpeek, hlen, add_comm 1, drop_succ_cons, drop_left,
      width_append hdigits, width_eq_zero (hs' _ rfl rfl hs), add_zero, if_neg hne, hwidth]
  · rw [if_neg he] at h
    refine ⟨[], r, rfl, Option.some.inj h, plain_digits (by simp), fun s' hs' => if_neg ?_⟩
    have := hs' (fun c => c == byte 'e' || c == byte 'E') rfl rfl (by simpa using he)
    simpa using this

def isRadixMark (c : UInt8) : Bool :=
  c ||| 0x20 == byte 'x' || c ||| 0x20 == byte 'b' || c ||| 0x20 == byte 'o'

theorem radixDigit_part (radix : UInt8) {c : UInt8} (h : radixDigit radix c = true) :
    isIdentPart c = true := by
  have hfacts : ∀ c, (hexVal c).isSome = true ∨ c = byte '0' ∨ c = byte '1' ∨
      (byte '0' ≤ c && c ≤ byte '7') = true → isIdentPart c = true := forall_byte (by decide +kernel)
  refine hfacts c ?_
  unfold radixDigit at h
  split at h
  · exact .inl h
  · split at h
    · rw [Bool.or_eq_true, beq_iff_eq, beq_iff_eq] at h
      exact .inr (h.imp id .inl)
    · exact .inr (.inr (.inr h))

theorem radixDigit_stop (radix : UInt8) {c : UInt8} (h : isIdentPart c = false) :
    radixDigit radix c = false :=
  Bool.eq_false_iff.mpr fun hc => Bool.false_ne_true (h.symm.trans (radixDigit_part radix hc))

theorem radixMark_part : ∀ c, isRadixMark c = true → isIdentPart c = true :=
  forall_byte (by decide +kernel)

def NumberStart (r : Bytes) : Prop :=
  isDigit (peekAt r 0) = true ∨ peekAt r 0 = byte '.' ∧ isDigit (peekAt r 1) = true

/-- The input starts with a number, which is read as well before what stops it. -/
def NumberAt (off : ℕ) (rest : Bytes) (t : Token) (n : ℕ) : Prop :=
  ∃ u s kind, rest = u ++ s ∧ n = u.length ∧ t = ⟨kind, u, off, [], 0⟩ ∧ kind ≠ .semicolon ∧
    Plain u ∧ ∀ off s', Stops s s' → NumberStart (u ++ s') ∧
      scanNumber off (u ++ s') = .ok (⟨kind, u, off, [], 0⟩, u.length)

theorem scanNumber_radix (hr : peekAt rest 0 = byte '0' ∧ isRadixMark (peekAt rest 1) = true)
    (h : scanNumber off rest = .ok (t, n)) : NumberAt off rest t n := by
  have hscan (off : ℕ) (r : Bytes) (hr : peekAt r 0 = byte '0' ∧ isRadixMark (peekAt r 1) = true) :
      scanNumber off r = scanRadixInt off r (peekAt r 1 ||| 0x20) :=
    if_pos ⟨hr.1, by simpa [isRadixMark, or_assoc] using hr.2⟩
  rw [hscan off rest hr] at h
  obtain ⟨hzero, hmark⟩ := hr
  rcases rest with _ | ⟨z, _ | ⟨r, rest⟩⟩
  · exact absurd hzero (by decide)
  · exact absurd hmark (show ¬ isRadixMark 0 = true by decide)
  obtain rfl : z = byte '0' := hzero
  have hpeek (s : Bytes) : peekAt (byte '0' :: r :: s) 1 = r := rfl
  have hstop (c : UInt8) := @radixDigit_stop (r ||| 0x20) c
  obtain ⟨ds, s, rfl, hlen, hds, hs⟩ :=
    width_split (radixDigit (r ||| 0x20)) (hstop _ (by decide)) rest
  have htake (s : Bytes) : (byte '0' :: r :: (ds ++ s)).take (2 + ds.length) =
      byte '0' :: r :: ds := by
    rw [add_comm, take_succ_cons, take_succ_cons, take_left]
  rw [scanRadixInt, hpeek, drop_succ_cons, drop_succ_cons, drop_zero, ← hlen] at h
  split at h
  · cases h
  rename_i hne
  rw [htake] at h
  cases h
  refine ⟨byte '0' :: r :: ds, s, .int, rfl, add_comm 2 _, rfl, by simp, ?_,
    fun off s' hs' => ⟨.inl rfl, ?_⟩⟩
  · refine plain_of_part (forall_mem_cons.mpr ⟨by decide, forall_mem_cons.mpr ⟨?_, ?_⟩⟩)
    · exact radixMark_part r hmark
    · exact fun c hc => radixDigit_part _ (hds c hc)
  · have hmark' : isRadixMark (peekAt (byte '0' :: r :: (ds ++ s')) 1) = true := hmark
    rw [cons_append, cons_append, hscan off _ ⟨rfl, hmark'⟩, scanRadixInt, hpeek, drop_succ_cons,
      drop_succ_cons, drop_zero, width_append hds,
      width_eq_zero (hs' _ (hstop _ (by decide)) (hstop _ (by decide)) hs), add_zero,
      if_neg hne, htake, add_comm]
    rfl

theorem scanNumber_parts {r : Bytes} {w f : ℕ}
    (hr : ¬ (peekAt r 0 = byte '0' ∧ isRadixMark (peekAt r 1) = true)) (hw : width isDigit r = w)
    (hf : fractionWidth (r.drop w) = f) : scanNumber off r =
      match exponentWidth (r.drop (w + f)) with
      | none => fail off "exponent has no digits"
      | some e => .ok (⟨if f = 0 ∧ e = 0 then .int else .float, r.take (w + f + e), off, [], 0⟩,
          w + f + e) := by
  subst hw hf
  exact if_neg fun hc => hr ⟨hc.1, by simpa [isRadixMark, or_assoc] using hc.2⟩

theorem scanNumber_decimal (hr : ¬ (peekAt rest 0 = byte '0' ∧ isRadixMark (peekAt rest 1) = true))
    (hstart : NumberStart rest) (h : scanNumber off rest = .ok (t, n)) : NumberAt off rest t n := by
  obtain ⟨whole, r₁, rfl, hwhole, hdigits, hstop⟩ := width_split isDigit rfl rest
  obtain ⟨frac, r₂, rfl, hfrac, hplain₁, hread₁⟩ := fraction_reads r₁
  have hdrop (s : Bytes) : (whole ++ (frac ++ s)).drop (whole.length + frac.length) = s := by
    rw [← append_assoc, ← length_append, drop_left]
  rw [scanNumber_parts hr hwhole.symm ((congrArg _ drop_left).trans hfrac.symm), hdrop] at h
  split at h
  · cases h
  rename_i e he
  obtain ⟨exp, s, rfl, rfl, hplain₂, hread₂⟩ := exponent_reads he
  have hassoc (s : Bytes) : whole ++ (frac ++ exp) ++ s = whole ++ (frac ++ (exp ++ s)) := by simp
  have hlen : whole.length + frac.length + exp.length = (whole ++ (frac ++ exp)).length := by
    simp [add_assoc]
  rw [hlen, ← hassoc, take_left] at h
  cases h
  have hhead : ∃ c v, whole ++ (frac ++ exp) = c :: v ∧ ∀ s', NumberStart (c :: v ++ s') := by
    rcases whole with _ | ⟨c, whole⟩
    · obtain ⟨hpoint, hd⟩ : peekAt (frac ++ (exp ++ s)) 0 = byte '.' ∧
          isDigit (peekAt (frac ++ (exp ++ s)) 1) = true :=
        hstart.resolve_left (Bool.eq_false_iff.mp hstop)
      have htwo : 2 ≤ frac.length := by
        rw [hfrac, fractionWidth, if_pos hpoint]
        rcases hr₁ : frac ++ (exp ++ s) with _ | ⟨c, r⟩
        · rw [hr₁] at hpoint
          cases hpoint
        · rw [hr₁] at hd
          exact Nat.add_le_add_left (width_pos rfl hd) 1
      obtain ⟨c, _ | ⟨d, frac⟩, rfl⟩ := exists_cons_of_ne_nil (ne_nil_of_length_pos (Nat.zero_lt_of_lt htwo))
      · exact absurd htwo (by simp)
      · exact ⟨c, d :: (frac ++ exp), rfl, fun _ => .inr ⟨hpoint, hd⟩⟩
    · exact ⟨c, _, rfl, fun _ => .inl (hdigits c mem_cons_self)⟩
  obtain ⟨c, v, hu, hhead⟩ := hhead
  refine ⟨whole ++ (frac ++ exp), s, _, (hassoc s).symm, rfl, rfl, ?_, ?_,
    fun off s' hs' => ⟨hu ▸ hhead s', ?_⟩⟩
  · split <;> simp
  · exact (plain_digits hdigits).append (hplain₁.append hplain₂)
  · have hr' : ¬ (peekAt (whole ++ (frac ++ (exp ++ s'))) 0 = byte '0' ∧
        isRadixMark (peekAt (whole ++ (frac ++ (exp ++ s'))) 1) = true) := by
      rw [← hassoc, hu] at hr ⊢
      rintro ⟨hzero, hmark⟩
      refine hr ⟨hzero, ?_⟩
      by_contra hno
      have := hs'.append v isRadixMark rfl rfl (Bool.eq_false_iff.mpr hno)
      exact Bool.false_ne_true (this.symm.trans hmark)
    have hwidth : width isDigit (whole ++ (frac ++ (exp ++ s'))) = whole.length := by
      rw [width_append hdigits, width_eq_zero ((hs'.append exp).append frac _ rfl rfl hstop),
        add_zero]
    have hfrac' : fractionWidth ((whole ++ (frac ++ (exp ++ s'))).drop whole.length) =
        frac.length := by
      rw [drop_left, hread₁ _ (hs'.append exp)]
    rw [hassoc, scanNumber_parts hr' hwidth hfrac', hdrop, hread₂ s' hs', ← hassoc]
    dsimp only
    rw [hlen, take_left]

theorem scanNumber_reads (hstart : NumberStart rest) (h : scanNumber off rest = .ok (t, n)) :
    NumberAt off rest t n := by
  by_cases hr : peekAt rest 0 = byte '0' ∧ isRadixMark (peekAt rest 1) = true
  · exact scanNumber_radix hr h
  · exact scanNumber_decimal hr hstart h

end VecDb.VectorSql

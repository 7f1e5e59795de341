import VecDb.VectorSql.Layout

/-! # Statements of a text

The tokens between two semicolons are a statement. Pieces of a text are its statements if lexing
them one by one gives the same tokens; white space at the ends of a piece does not matter.
-/

namespace VecDb.VectorSql

open List

def isSemicolon (t : Token) : Bool := t.kind == .semicolon

/-- Lexing the pieces one by one gives the tokens between the semicolons of the text. A last
statement without tokens may be left out. -/
def CutAtSemicolons (pieces : List Bytes) (sql : Bytes) : Prop :=
  ∃ toks groups, tokens sql = .ok toks ∧ pieces.mapM tokens = .ok groups ∧
    (groups = toks.splitOnP isSemicolon ∨ groups ++ [[]] = toks.splitOnP isSemicolon)

def Lexeme.endsStatement (l : Lexeme) : Bool := (l.tok 0).any isSemicolon

def statements (ls : List Lexeme) : List (List Lexeme) := ls.splitOnP Lexeme.endsStatement

theorem statements_nil : statements [] = [[]] := splitOnP_nil

theorem statements_cons (l : Lexeme) (ls : List Lexeme) : statements (l :: ls) =
    if l.endsStatement then [] :: statements ls else (statements ls).modifyHead (l :: ·) :=
  splitOnP_cons_eq_if_modifyHead l ls

theorem statements_nil_append (ls : List Lexeme) :
    (statements ls).modifyHead ([] ++ ·) = statements ls := by
  cases statements ls <;> rfl

theorem bareTokens_statements (ls : List Lexeme) :
    (statements ls).map bareTokens = (bareTokens ls).splitOnP isSemicolon := by
  induction ls with
  | nil => simp [statements_nil]
  | cons l ls ih =>
    obtain ⟨seg, segs, hsegs⟩ : ∃ seg segs, statements ls = seg :: segs :=
      exists_cons_of_ne_nil (splitOnP_ne_nil _ ls)
    rw [hsegs, map_cons] at ih
    rw [statements_cons, bareTokens_cons, Lexeme.endsStatement, hsegs]
    rcases ht : l.tok 0 with _ | t
    · simp [ht, ← ih]
    · have hbare : isSemicolon t.bare = isSemicolon t := rfl
      cases hsemi : isSemicolon t <;>
        simp [ht, hsemi, hbare, splitOnP_cons_eq_if_modifyHead, ← ih]

/-- Pieces that have the tokens of the statements. -/
inductive Pieces : List Bytes → List (List Lexeme) → Prop
  | last {p : Bytes} {seg : List Lexeme} : tokens p = .ok (bareTokens seg) → Pieces [p] [seg]
  | blank {seg : List Lexeme} : bareTokens seg = [] → Pieces [] [seg]
  | cons {p : Bytes} {seg : List Lexeme} {ps : List Bytes} {segs : List (List Lexeme)} :
      tokens p = .ok (bareTokens seg) → Pieces ps segs → Pieces (p :: ps) (seg :: segs)

theorem Pieces.tokens {ps : List Bytes} {segs : List (List Lexeme)} (h : Pieces ps segs) :
    ∃ groups, ps.mapM VectorSql.tokens = .ok groups ∧
      (groups = segs.map bareTokens ∨ groups ++ [[]] = segs.map bareTokens) := by
  induction h with
  | last hp => 
    refine ⟨[_], ?_, .inl rfl⟩
    rw [mapM_cons, hp]
    rfl
  | blank hseg => exact ⟨[], rfl, .inr (by simp [hseg])⟩
  | @cons p seg ps segs hp _ ih =>
    obtain ⟨groups, hgroups, hsegs⟩ := ih
    refine ⟨bareTokens seg :: groups, ?_, ?_⟩
    · rw [mapM_cons, hp, hgroups]
      rfl
    · rcases hsegs with hsegs | hsegs
      · exact .inl (by rw [hsegs]; rfl)
      · exact .inr (by rw [cons_append, hsegs]; rfl)

theorem Pieces.cut {ps : List Bytes} {ls : List Lexeme} (hls : Laid [] ls)
    (h : Pieces ps (statements ls)) : CutAtSemicolons ps (text ls) := by
  obtain ⟨groups, hgroups, hsegs⟩ := h.tokens
  rw [bareTokens_statements] at hsegs
  exact ⟨_, groups, tokens_text hls, hgroups, hsegs⟩

section Shapes

variable {s raw : Bytes} {tok : ℕ → Option Token}

theorem Shape.of_endsStatement (h : Shape s raw tok) (hends : (tok 0).any isSemicolon = true) :
    raw = [byte ';'] := by
  cases h with
  | blank _ | line _ _ | block _ | string _ _ | quoted _ => exact absurd hends Bool.false_ne_true
  | semicolon => rfl
  | plain _ _ _ _ ht => exact absurd (by simpa [isSemicolon] using hends) ht

theorem Shape.of_semicolon (h : Shape s [byte ';'] tok) : (tok 0).any isSemicolon = true := by
  generalize hraw : [byte ';'] = raw at h
  cases h with
  | blank hc => cases hraw; exact absurd hc (by decide)
  | line _ _ | block _ | string _ _ | quoted _ => cases hraw
  | semicolon => rfl
  | plain _ hbytes _ _ _ =>
    subst hraw
    exact absurd (hbytes _ mem_cons_self) (by decide)

end Shapes

section Trim

variable {s raw p q : Bytes} {tok : ℕ → Option Token} {ls : List Lexeme} {v : Bytes}

theorem space_facts : ∀ c, spaceByte c = true → tokenByte c = false ∧ c ≠ byte '\'' ∧
    c ≠ byte '"' ∧ c ≠ byte ';' ∧ c ≠ byte '/' ∧ c ≠ byte '-' := by
  -- the few bytes of white space are gone through, not all bytes
  have hall : ∀ c ∈ spaceRunes.flatMap Utf8.encodeRune, tokenByte c = false ∧ c ≠ byte '\'' ∧
      c ≠ byte '"' ∧ c ≠ byte ';' ∧ c ≠ byte '/' ∧ c ≠ byte '-' := by decide +kernel
  exact fun c hc => hall c (by simpa [spaceByte] using hc)

theorem Shape.blank_of_space {c : UInt8} (h : Shape s (c :: v) tok)
    (hspace : spaceByte c = true) : v = [] ∧ tok = fun _ => none := by
  obtain ⟨htoken, hquote, hdouble, hsemi, hslash, hdash⟩ := space_facts c hspace
  cases h with
  | blank _ => exact ⟨rfl, rfl⟩
  | line _ _ => exact absurd rfl hdash
  | block _ => exact absurd rfl hslash
  | string _ _ => exact absurd rfl hquote
  | quoted _ => exact absurd rfl hdouble
  | semicolon => exact absurd rfl hsemi
  | plain _ hbytes _ _ _ =>
    exact absurd (htoken.symm.trans (hbytes c mem_cons_self)) Bool.false_ne_true

theorem Shape.of_space_last {c : UInt8} (h : Shape s (v ++ [c]) tok)
    (hspace : spaceByte c = true) : (v = [] ∧ isBlank c = true ∨
      ∃ body, v ++ [c] = byte '-' :: byte '-' :: body ∧ byte '\n' ∉ body) ∧ tok = fun _ => none := by
  obtain ⟨htoken, hquote, hdouble, hsemi, hslash, hdash⟩ := space_facts c hspace
  have hne {d : UInt8} {w : Bytes} (heq : v ++ [c] = w ++ [d]) (hd : c ≠ d) : False :=
    hd (concat_inj.mp (by simpa using heq)).2
  generalize hraw : v ++ [c] = raw at h
  cases h with
  | blank hc =>
    obtain ⟨rfl, hc'⟩ := append_eq_singleton_iff.mp hraw |>.resolve_right (by simp)
    cases hc'
    exact ⟨.inl ⟨rfl, hc⟩, rfl⟩
  | line hbody _ => exact ⟨.inr ⟨_, rfl, hbody⟩, rfl⟩
  | block hu =>
    obtain ⟨w, rfl⟩ := hu
    exact (hne (w := byte '/' :: byte '*' :: w) hraw hslash).elim
  | string hu _ =>
    obtain ⟨w, rfl⟩ := hu.last
    exact (hne (w := byte '\'' :: w) hraw hquote).elim
  | quoted hu =>
    obtain ⟨w, rfl⟩ := hu.last
    exact (hne (w := byte '"' :: w) hraw hdouble).elim
  | semicolon => exact (hne (w := []) hraw hsemi).elim
  | plain _ hbytes _ _ _ =>
    have := hbytes c (by rw [← hraw]; simp)
    exact absurd (htoken.symm.trans this) Bool.false_ne_true

theorem Laid.trim_front (h : Laid s ls) (htext : text ls = p ++ q)
    (hp : ∀ c ∈ p, spaceByte c = true) :
    ∃ ls', Laid s ls' ∧ text ls' = q ∧ bareTokens ls' = bareTokens ls := by
  induction ls generalizing p with
  | nil =>
    obtain ⟨rfl, rfl⟩ := append_eq_nil_iff.mp htext.symm
    exact ⟨[], trivial, rfl, rfl⟩
  | cons l ls ih =>
    rcases p with _ | ⟨c, p⟩
    · exact ⟨l :: ls, h, htext, rfl⟩
    obtain ⟨hc, hp'⟩ := forall_mem_cons.mp hp
    obtain ⟨d, v, hraw, -⟩ := h.1.ascii
    have hshape := h.1.shape
    rw [text_cons, hraw, cons_append, cons_append, List.cons.injEq] at htext
    obtain ⟨rfl, htext⟩ := htext
    rw [hraw] at hshape
    obtain ⟨rfl, htok⟩ := hshape.blank_of_space hc
    obtain ⟨ls', hls', hq, hbare⟩ := ih h.2 htext hp'
    refine ⟨ls', hls', hq, ?_⟩
    rw [bareTokens_cons, htok, hbare]
    rfl

theorem Laid.comment {body body' : Bytes} (h : Laid (byte '-' :: byte '-' :: body) ls) :
    Laid (byte '-' :: byte '-' :: body') ls := by
  have hops (v : Bytes) (y : Bytes × TokenKind) (hy : y ∈ operators)
      (hpre : y.1 <+: v ++ byte '-' :: byte '-' :: body') :
      y.1 <+: v ++ byte '-' :: byte '-' :: body := by
    have hone (w : Bytes) : v ++ [byte '-'] <+: v ++ byte '-' :: byte '-' :: w :=
      ⟨byte '-' :: w, by simp⟩
    by_cases hlen : y.1.length ≤ (v ++ [byte '-']).length
    · exact (prefix_of_prefix_length_le hpre (hone body') hlen).trans (hone body)
    · have htwo : v ++ [byte '-', byte '-'] <+: y.1 := by
        refine prefix_of_prefix_length_le ⟨body', by simp⟩ hpre ?_
        rw [length_append] at hlen ⊢
        exact Nat.lt_of_not_le hlen
      exact absurd ((suffix_append v _).isInfix.trans htwo.isInfix) (operators_facts y hy).2.2.2.2
  exact h.change (fun l _ hl => hl.congr (by decide) (hops l.raw)) hops

theorem Laid.trim_back (h : Laid [] ls) (htext : text ls = q ++ p)
    (hp : ∀ c ∈ p, spaceByte c = true) :
    ∃ ls', Laid [] ls' ∧ text ls' = q ∧ bareTokens ls' = bareTokens ls := by
  induction ls using List.reverseRecOn generalizing p with
  | nil =>
    obtain ⟨rfl, rfl⟩ := append_eq_nil_iff.mp htext.symm
    exact ⟨[], trivial, rfl, rfl⟩
  | append_singleton ls l ih =>
    rcases eq_nil_or_concat p with rfl | ⟨p, c, rfl⟩
    · exact ⟨ls ++ [l], h, by rwa [append_nil] at htext, rfl⟩
    obtain ⟨hls, hl, -⟩ := laid_append.mp h
    rcases eq_nil_or_concat l.raw with hnil | ⟨v, d, hraw⟩
    · exact absurd hnil hl.ne_nil
    have hshape := hl.shape
    simp only [concat_eq_append] at htext hp hraw
    rw [hraw] at hshape
    simp only [text_append, text_cons, text_nil, append_nil] at hls htext hshape
    have hc := hp c (by simp)
    have hsplit : text ls ++ v = q ++ p ∧ [d] = [c] := by
      refine append_inj' ?_ rfl
      rw [append_assoc, ← hraw, htext, append_assoc]
    obtain ⟨hv, hd⟩ := hsplit
    cases hd
    obtain ⟨hcases, htok⟩ := hshape.of_space_last hc
    have hbare : bareTokens (ls ++ [l]) = bareTokens ls := by simp [htok]
    rw [hbare]
    rcases hcases with ⟨rfl, -⟩ | ⟨body, hbody, hnl⟩
    · rw [append_nil] at hv
      exact ih (hls.ends (.inl rfl)) hv fun c hc => hp c (mem_append_left _ hc)
    · have hdash : ∀ e ∈ p ++ [c], e ≠ byte '-' := fun e he => (space_facts e (hp e he)).2.2.2.2.2
      rw [hraw, hbody] at htext hls
      obtain ⟨body', rfl, rfl⟩ : ∃ body', q = text ls ++ byte '-' :: byte '-' :: body' ∧
          body = body' ++ (p ++ [c]) := by
        have happ : (text ls ++ [byte '-', byte '-']) ++ body = q ++ (p ++ [c]) := by
          rw [← htext, append_assoc]
          rfl
        rcases append_eq_append_iff.mp happ with ⟨a, rfl, hbody'⟩ | ⟨b, hq, hp'⟩
        · exact ⟨a, by simp, hbody'⟩
        · rcases eq_nil_or_concat b with rfl | ⟨b, e, rfl⟩
          · exact ⟨[], by simpa using hq.symm, by simpa using hp'.symm⟩
          · -- the part that is taken off would reach into the dashes
            have he : e = byte '-' := by
              have := congrArg List.getLast? hq
              simpa using this.symm
            exact absurd he (hdash e (by rw [hp']; simp))
      refine ⟨ls ++ [⟨byte '-' :: byte '-' :: body', fun _ => none⟩], ?_, by simp, by simp⟩
      have hnl' : byte '\n' ∉ body' := fun hm => hnl (mem_append_left _ hm)
      exact laid_append.mpr ⟨by simpa using hls.comment, reads_line hnl' (.inl rfl), trivial⟩

theorem tokens_trimSpace (h : Laid [] ls) : tokens (trimSpace (text ls)) = .ok (bareTokens ls) := by
  obtain ⟨p, q, htext, hall⟩ := trimSpace_append (text ls)
  obtain ⟨ls₁, h₁, htext₁, hbare₁⟩ := h.trim_front (by rw [htext, append_assoc])
    fun c hc => hall c (mem_append_left _ hc)
  obtain ⟨ls₂, h₂, htext₂, hbare₂⟩ := h₁.trim_back htext₁
    fun c hc => hall c (mem_append_right _ hc)
  rw [← htext₂, tokens_text h₂, hbare₂, hbare₁]

end Trim

section Comments

variable {s raw : Bytes} {tok : ℕ → Option Token} {ls : List Lexeme}

def Lexeme.isLine (l : Lexeme) : Bool := (l.tok 0).isNone && peekAt l.raw 0 == byte '-'

def uncommented (ls : List Lexeme) : List Lexeme := ls.filter fun l => !l.isLine

theorem Shape.of_isLine (h : Shape s raw tok) (hnone : tok 0 = none)
    (hdash : peekAt raw 0 = byte '-') : s = [] ∨ peekAt s 0 = byte '\n' := by
  cases h with
  | blank hc =>
    rw [peekAt_cons_zero] at hdash
    rw [hdash] at hc
    exact absurd hc (by decide)
  | line _ hs => exact hs
  | block _ => exact absurd hdash (by rw [peekAt_cons_zero]; decide)
  | string _ _ | quoted _ | semicolon | plain _ _ _ _ _ => cases hnone

theorem isLine_iff (l : Lexeme) : l.isLine = true ↔ l.tok 0 = none ∧ peekAt l.raw 0 = byte '-' := by
  simp [Lexeme.isLine, Option.isNone_iff_eq_none]

theorem Laid.head_ascii {c : UInt8} {t : Bytes} (h : Laid s ls) (htext : text ls = c :: t) :
    c < 0x80 := by
  rcases ls with _ | ⟨l, ls⟩
  · cases htext
  · obtain ⟨d, v, hraw, hd⟩ := h.1.ascii
    rw [text_cons, hraw, cons_append, List.cons.injEq] at htext
    exact htext.1 ▸ hd

theorem Laid.uncommented_text (h : Laid [] ls) :
    ∃ w r t, text ls = w ++ r ∧ text (uncommented ls) = w ++ t ∧
      (t = r ∨ t = [] ∨ peekAt t 0 = byte '\n') := by
  induction ls with
  | nil => exact ⟨[], [], [], rfl, rfl, .inl rfl⟩
  | cons l ls ih =>
    obtain ⟨hl, hls⟩ := h
    obtain ⟨w, r, t, htext, hkept, ht⟩ := ih hls
    rw [append_nil] at hl
    by_cases hline : l.isLine = true
    · obtain ⟨hnone, hdash⟩ := (isLine_iff l).mp hline
      have hun : uncommented (l :: ls) = uncommented ls := by simp [uncommented, hline]
      refine ⟨[], _, text (uncommented ls), rfl, by rw [hun]; rfl, .inr ?_⟩
      have hend : text ls = [] ∨ peekAt (text ls) 0 = byte '\n' := hl.shape.of_isLine hnone hdash
      rw [hkept]
      rw [htext] at hend
      rcases w with _ | ⟨c, w⟩
      · rcases ht with rfl | ht
        · exact hend
        · exact ht
      · exact .inr (hend.resolve_left (cons_ne_nil _ _))
    · have hun : uncommented (l :: ls) = l :: uncommented ls := by simp [uncommented, hline]
      exact ⟨l.raw ++ w, r, t, by simp [htext], by simp [hun, hkept], ht⟩

theorem Laid.uncommented (h : Laid [] ls) : Laid [] (uncommented ls) := by
  induction ls with
  | nil => trivial
  | cons l ls ih =>
    obtain ⟨hl, hls⟩ := h
    rw [append_nil] at hl
    rw [VectorSql.uncommented]
    by_cases hline : l.isLine = true
    · rw [filter_cons_of_neg (by simp [hline])]
      exact ih hls
    · rw [filter_cons_of_pos (by simp [hline])]
      refine ⟨?_, ih hls⟩
      change Reads (text (VectorSql.uncommented ls) ++ []) l.raw l.tok
      rw [append_nil]
      obtain ⟨w, r, t, htext, hkept, ht⟩ := hls.uncommented_text
      rw [hkept]
      rw [htext] at hl
      rcases ht with rfl | ht
      · exact hl
      rcases w with _ | ⟨c, w⟩
      · exact hl.ends ht
      · refine hl.congr (hls.head_ascii htext) fun y hy hpre => ?_
        have := @operator_before_end r t (l.raw ++ (c :: w)) ht y hy (by simpa using hpre)
        simpa using this

theorem bareTokens_uncommented (ls : List Lexeme) :
    bareTokens (VectorSql.uncommented ls) = bareTokens ls := by
  induction ls with
  | nil => rfl
  | cons l ls ih =>
    rw [VectorSql.uncommented]
    by_cases hline : l.isLine = true
    · rw [filter_cons_of_neg (by simp [hline]), bareTokens_cons, ((isLine_iff l).mp hline).1]
      exact ih
    · rw [filter_cons_of_pos (by simp [hline]), bareTokens_cons, bareTokens_cons]
      exact congrArg _ ih

end Comments

section Tame

/-- A string has no escaped quotes, a quoted identifier no quotes of strings and no semicolons, a
comment none of both; a block comment has neither double quotes nor two dashes. -/
def tame : Option Token × Bytes → Bool
  | (none, raw) =>
    !raw.contains (byte '\'') && !raw.contains (byte ';') &&
      (peekAt raw 0 != byte '/' || !raw.contains (byte '"') && !dashes raw)
  | (some t, raw) =>
    match t.kind with
    | .string => !escapedQuote raw.tail
    | .ident => !raw.contains (byte '\'') && !raw.contains (byte ';')
    | _ => true

def isTame (sql : Bytes) : Bool := ((lexemes sql).toOption.getD []).all tame

theorem exists_laid_tame {sql : Bytes} {toks : List Token} (hlex : lex sql = .ok toks)
    (ht : isTame sql = true) :
    ∃ ls, Laid [] ls ∧ text ls = sql ∧ ∀ x ∈ placed 0 ls, tame x = true := by
  rw [lex_eq] at hlex
  obtain ⟨cuts, hcuts, -⟩ := Fallible.map_eq_ok.mp hlex
  rw [isTame, hcuts] at ht
  obtain ⟨ls, hls, htext, rfl⟩ := exists_laid hcuts
  exact ⟨ls, hls, htext, all_eq_true.mp ht⟩

end Tame

end VecDb.VectorSql

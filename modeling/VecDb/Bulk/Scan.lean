import VecDb.VectorSql.Statements

/-! # The statements of a dump

The scanner of a dump knows strings, quoted identifiers and line comments, which it leaves out. On
texts whose lexemes are tame it cuts at the semicolons that the lexer sees.
-/

namespace VecDb.Bulk

open VectorSql List

inductive ScanMode
  | plain | inString | inIdent | inComment
  deriving DecidableEq

/-- Read a statement; the result has the statement and the input after its semicolon. The first
argument says that the next byte is read already. -/
def nextFrom : Bool → ScanMode → Bool → Bytes → Bytes → Option (Bytes × Bytes)
  | _, _, any, buf, [] => if any ∧ trimSpace buf ≠ [] then some (buf, []) else none
  | true, mode, any, buf, _ :: r => nextFrom false mode any buf r
  | false, .inComment, _, buf, c :: r =>
    if c = byte '\n' then nextFrom false .plain true (buf ++ [c]) r
    else nextFrom false .inComment true buf r
  | false, .inString, _, buf, c :: r =>
    if c = byte '\'' then
      -- a doubled quote goes on with the string
      if peekAt r 0 = byte '\'' then nextFrom true .inString true (buf ++ [c, byte '\'']) r
      else nextFrom false .plain true (buf ++ [c]) r
    else nextFrom false .inString true (buf ++ [c]) r
  | false, .inIdent, _, buf, c :: r =>
    nextFrom false (if c = byte '"' then .plain else .inIdent) true (buf ++ [c]) r
  | false, .plain, _, buf, c :: r =>
    if c = byte '\'' then nextFrom false .inString true (buf ++ [c]) r
    else if c = byte '"' then nextFrom false .inIdent true (buf ++ [c]) r
    else if c = byte '-' then
      if peekAt r 0 = byte '-' then nextFrom true .inComment true buf r
      else nextFrom false .plain true (buf ++ [c]) r
    else if c = byte ';' then some (buf, r)
    else nextFrom false .plain true (buf ++ [c]) r

def next (s : Bytes) : Option (Bytes × Bytes) := nextFrom false .plain false [] s

def scanned : ℕ → Bytes → List Bytes
  | 0, _ => []
  | n + 1, s =>
    match next s with
    | none => []
    | some (stmt, r) => stmt :: scanned n r

/-- All statements of a dump; a statement takes at least its semicolon. -/
def scanStatements (s : Bytes) : List Bytes := scanned (s.length + 1) s

example : scanStatements (ascii "a 'x;''' -- b; c\n;;d") = [ascii "a 'x;''' \n", [], ascii "d"] := by
  decide

section Lexemes

variable {any : Bool} {buf s u raw : Bytes} {tok : ℕ → Option Token} {off : ℕ}

theorem nextFrom_any (hs : s ≠ []) :
    nextFrom false .plain any buf s = nextFrom false .plain true buf s := by
  obtain ⟨c, r, rfl⟩ := exists_cons_of_ne_nil hs
  rfl

theorem nextFrom_plain (hu : ∀ c ∈ u, c ≠ byte '\'' ∧ c ≠ byte '"' ∧ c ≠ byte ';')
    (hdash : dashes u = false) (hlast : u.getLast? = some (byte '-') → peekAt s 0 ≠ byte '-') :
    nextFrom false .plain true buf (u ++ s) = nextFrom false .plain true (buf ++ u) s := by
  induction u generalizing buf with
  | nil => rw [append_nil]; rfl
  | cons c u ih =>
    obtain ⟨⟨hquote, hdouble, hsemi⟩, hu⟩ := forall_mem_cons.mp hu
    obtain ⟨hrest, hnext⟩ := of_dashes_cons hdash
    have hpeek (hc : c = byte '-') : peekAt (u ++ s) 0 ≠ byte '-' := by
      rcases u with _ | ⟨d, u⟩
      · exact hlast (by rw [hc]; rfl)
      · exact hnext hc
    have hstep : nextFrom false .plain true buf (c :: (u ++ s)) =
        nextFrom false .plain true (buf ++ [c]) (u ++ s) := by
      rw [nextFrom, if_neg hquote, if_neg hdouble]
      split
      · rename_i hc
        rw [if_neg (hpeek hc)]
      · rfl
    rw [cons_append, hstep, ih hu hrest fun h => hlast (by rw [getLast?_cons, h]; rfl)]
    simp

theorem nextFrom_doubled (hu : Doubled (byte '\'') u) (hs : peekAt s 0 ≠ byte '\'') :
    nextFrom false .inString true buf (u ++ s) = nextFrom false .plain true (buf ++ u) s := by
  induction hu generalizing buf with
  | close => rw [singleton_append, nextFrom, if_pos rfl, if_neg hs]
  | quote _ ih =>
    rw [cons_append, cons_append, nextFrom, if_pos rfl, peekAt_cons_zero, if_pos rfl, nextFrom, ih]
    simp
  | plain hc _ ih =>
    rw [cons_append, nextFrom, if_neg hc, ih]
    simp

theorem nextFrom_quoted (hu : Doubled (byte '"') u) :
    nextFrom false .inIdent true buf (u ++ s) = nextFrom false .plain true (buf ++ u) s := by
  induction hu generalizing buf with
  | close => rw [singleton_append, nextFrom, if_pos rfl]
  | quote _ ih =>
    rw [cons_append, cons_append, nextFrom, if_pos rfl, nextFrom, if_neg (by decide),
      if_pos rfl, ih]
    simp
  | plain hc _ ih =>
    rw [cons_append, nextFrom, if_neg hc, ih]
    simp

theorem nextFrom_comment (hu : byte '\n' ∉ u) (hs : s = [] ∨ peekAt s 0 = byte '\n') :
    nextFrom false .inComment true buf (u ++ s) = nextFrom false .plain true buf s := by
  induction u with
  | nil =>
    rcases s with _ | ⟨c, s⟩
    · rfl
    · have hc : c = byte '\n' := hs.resolve_left (cons_ne_nil c s)
      subst hc
      rfl
  | cons c u ih =>
    rw [mem_cons, not_or] at hu
    rw [cons_append, nextFrom, if_neg (Ne.symm hu.1), ih hu.2]

theorem token_facts : ∀ c, tokenByte c = true → c ≠ byte '\'' ∧ c ≠ byte '"' ∧ c ≠ byte ';' := by
  refine fun c hc => ⟨?_, ?_, ?_⟩ <;>
  · rintro rfl
    exact absurd hc (by decide)

theorem blank_facts : ∀ c, isBlank c = true →
    c ≠ byte '\'' ∧ c ≠ byte '"' ∧ c ≠ byte ';' ∧ c ≠ byte '-' := by
  refine fun c hc => ⟨?_, ?_, ?_, ?_⟩ <;>
  · rintro rfl
    exact absurd hc (by decide)

theorem nextFrom_lexeme {l : Lexeme} (h : Shape s l.raw l.tok) (ht : tame (l.tok off, l.raw) = true)
    (hsemi : l.raw ≠ [byte ';']) : nextFrom false .plain any buf (l.raw ++ s) =
      nextFrom false .plain true (buf ++ text (uncommented [l])) s := by
  obtain ⟨raw, tok⟩ := l
  have hkept (hline : Lexeme.isLine ⟨raw, tok⟩ = false) : text (uncommented [⟨raw, tok⟩]) = raw := by
    simp [uncommented, hline]
  have hnone (hmem : !raw.contains (byte '\'') && !raw.contains (byte ';'))
      (hdouble : !raw.contains (byte '"')) :
      ∀ c ∈ raw, c ≠ byte '\'' ∧ c ≠ byte '"' ∧ c ≠ byte ';' := by
    simp only [Bool.and_eq_true, Bool.not_eq_true', contains_eq_mem, decide_eq_false_iff_not]
      at hmem hdouble
    exact fun c hc => ⟨fun h => hmem.1 (h ▸ hc), fun h => hdouble (h ▸ hc), fun h => hmem.2 (h ▸ hc)⟩
  cases h with
  | blank hc =>
    obtain ⟨hquote, hdouble, hs, hdash⟩ := blank_facts _ hc
    rw [hkept (by simp [Lexeme.isLine, hdash]), nextFrom_any (by simp)]
    exact nextFrom_plain (by simpa using ⟨hquote, hdouble, hs⟩) rfl
      fun h => absurd (by simpa using h) hdash
  | @line body hbody hs =>
    have hdrop : text (uncommented [⟨byte '-' :: byte '-' :: body, fun _ => none⟩]) = [] := rfl
    rw [hdrop, append_nil, ← nextFrom_comment hbody hs]
    rfl
  | block hu =>
    simp only [tame, peekAt_cons_zero, Bool.and_eq_true, Bool.or_eq_true] at ht
    obtain ⟨hmem, hslash | ⟨hdouble, hdash⟩⟩ := ht
    · exact absurd hslash (by decide)
    rw [hkept rfl, nextFrom_any (by simp)]
    refine nextFrom_plain (hnone (by simpa using hmem) hdouble) (by simpa using hdash) fun h => ?_
    obtain ⟨v, rfl⟩ := hu
    rw [← cons_append, ← cons_append, getLast?_append_of_ne_nil _ (cons_ne_nil _ _)] at h
    exact absurd h (by decide)
  | string hu hs =>
    rw [tame, Bool.not_eq_true'] at ht
    rw [hkept rfl, cons_append, nextFrom, if_pos rfl, nextFrom_doubled (hu.doubled ht) hs]
    simp
  | quoted hu =>
    rw [hkept rfl, cons_append, nextFrom, if_neg (by decide), if_pos rfl, nextFrom_quoted hu]
    simp
  | semicolon => exact absurd rfl hsemi
  | plain hne hbytes hdash hlast _ =>
    rw [hkept rfl, nextFrom_any (by simp [hne])]
    exact nextFrom_plain (fun c hc => token_facts c (hbytes c hc)) hdash hlast

end Lexemes

section Runs

variable {ls pre : List Lexeme} {any : Bool} {off n : ℕ}

def scannedFrom (n : ℕ) (any : Bool) (buf s : Bytes) : List Bytes :=
  match nextFrom false .plain any buf s with
  | none => []
  | some (stmt, r) => stmt :: scanned n r

theorem scanned_succ (n : ℕ) (s : Bytes) : scanned (n + 1) s = scannedFrom n false [] s := rfl

theorem scanned_nil (n : ℕ) : scanned n [] = [] := by
  cases n <;> rfl

theorem uncommented_append (ls ls' : List Lexeme) :
    uncommented (ls ++ ls') = uncommented ls ++ uncommented ls' := filter_append _ _

theorem scannedFrom_pieces (h : Laid [] ls) (ht : ∀ x ∈ placed off ls, tame x = true)
    (hpre : Laid (text ls) pre) (hany : any = false → pre = []) (hn : (text ls).length ≤ n) :
    Pieces (scannedFrom n any (text (uncommented pre)) (text ls))
      ((statements ls).modifyHead (pre ++ ·)) := by
  induction ls generalizing off pre any n with
  | nil =>
    have hkept := tokens_text hpre.uncommented
    have hpieces := tokens_trimSpace hpre.uncommented
    rw [bareTokens_uncommented] at hkept hpieces
    rw [statements_nil, text_nil, scannedFrom, nextFrom]
    simp only [modifyHead_cons, append_nil]
    by_cases hsome : any = true ∧ trimSpace (text (uncommented pre)) ≠ []
    · rw [if_pos hsome]
      dsimp only
      rw [scanned_nil]
      exact .last hkept
    · rw [if_neg hsome]
      refine .blank ?_
      rw [not_and_or, not_not, Bool.not_eq_true] at hsome
      rcases hsome with hfalse | hblank
      · rw [hany hfalse]
        rfl
      · rw [hblank] at hpieces
        exact (Except.ok.inj hpieces).symm
  | cons l ls ih =>
    obtain ⟨hl, hls⟩ := h
    rw [append_nil] at hl
    obtain ⟨htl, htls⟩ := forall_mem_cons.mp ht
    rw [text_cons, length_append] at hn
    have hpos := length_pos_iff.mpr hl.ne_nil
    rw [statements_cons]
    by_cases hends : l.endsStatement = true
    · have hraw := hl.shape.of_endsStatement hends
      rw [text_cons, hraw] at hpre
      obtain ⟨m, rfl⟩ := Nat.exists_eq_succ_of_ne_zero (show n ≠ 0 by omega)
      rw [if_pos hends, text_cons, hraw, singleton_append, scannedFrom, nextFrom,
        if_neg (by decide), if_neg (by decide), if_neg (by decide), if_pos rfl]
      simp only [modifyHead_cons, append_nil]
      have hpre' := hpre.ends (.inl rfl)
      refine .cons ?_ ?_
      · rw [tokens_text hpre'.uncommented, bareTokens_uncommented]
      · rw [scanned_succ, ← statements_nil_append]
        exact ih hls htls (laid_nil _) (fun _ => rfl) (by omega)
    · have hraw : l.raw ≠ [byte ';'] := fun heq => hends (Shape.of_semicolon (heq ▸ hl.shape))
      have hpre' : Laid (text ls) (pre ++ [l]) :=
        laid_append.mpr ⟨by simpa using hpre, by simpa using hl, trivial⟩
      have hrest := ih hls htls hpre' (fun h => absurd h.symm Bool.false_ne_true) (n := n) (by omega)
      rw [uncommented_append, text_append, scannedFrom,
        ← nextFrom_lexeme hl.shape htl hraw] at hrest
      rw [if_neg hends, text_cons, scannedFrom]
      simpa [Function.comp_def] using hrest

theorem scanStatements_cut (h : Laid [] ls) (ht : ∀ x ∈ placed 0 ls, tame x = true) :
    CutAtSemicolons (scanStatements (text ls)) (text ls) := by
  refine Pieces.cut h ?_
  rw [← statements_nil_append]
  exact scannedFrom_pieces h ht (laid_nil _) (fun _ => rfl) (Nat.le_refl _)

end Runs

end VecDb.Bulk

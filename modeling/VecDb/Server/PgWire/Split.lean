import VecDb.Bulk.Scan
import VecDb.Server.PgWire.Conn

/-! # The statements of a simple query

The splitter of the wire knows only the quotes of strings. On texts whose lexemes are tame it cuts
at the semicolons that the lexer sees, and so does the scanner of dumps.
-/

namespace VecDb.PgWire

open VectorSql

variable {acc s u raw : Bytes} {tok : ℕ → Option Token} {ls pre : List Lexeme} {off : ℕ}

theorem splitFrom_plain (hu : ∀ c ∈ u, c ≠ byte '\'' ∧ c ≠ byte ';') :
    splitFrom false acc (u ++ s) = splitFrom false (u.reverse ++ acc) s := by
  induction u generalizing acc with
  | nil => rfl
  | cons c u ih =>
    obtain ⟨⟨hquote, hsemi⟩, hu⟩ := List.forall_mem_cons.mp hu
    rw [List.cons_append, splitFrom, if_neg hquote, if_neg fun h => hsemi h.1, ih hu,
      List.reverse_cons, List.append_assoc]
    rfl

theorem splitFrom_doubled (hu : Doubled (byte '\'') u) :
    splitFrom true acc (u ++ s) = splitFrom false (u.reverse ++ acc) s := by
  induction hu generalizing acc with
  | close => rfl
  | quote _ ih =>
    rw [List.cons_append, List.cons_append, splitFrom, if_pos rfl, splitFrom, if_pos rfl]
    exact ih.trans (by simp)
  | plain hc _ ih =>
    rw [List.cons_append, splitFrom, if_neg hc, if_neg fun h => Bool.false_ne_true h.2.symm, ih]
    simp

theorem tokenByte_facts : ∀ c, tokenByte c = true ∨ isBlank c = true →
    c ≠ byte '\'' ∧ c ≠ byte ';' := by
  refine fun c hc => ⟨?_, ?_⟩ <;>
  · rintro rfl
    exact absurd hc (by decide)

theorem splitFrom_lexeme (h : Shape s raw tok) (ht : tame (tok off, raw) = true)
    (hsemi : raw ≠ [byte ';']) :
    splitFrom false acc (raw ++ s) = splitFrom false (raw.reverse ++ acc) s := by
  have hnot (hmem : !raw.contains (byte '\'') && !raw.contains (byte ';')) :
      ∀ c ∈ raw, c ≠ byte '\'' ∧ c ≠ byte ';' := by
    simp only [Bool.and_eq_true, Bool.not_eq_true', List.contains_eq_mem, decide_eq_false_iff_not]
      at hmem
    exact fun c hc => ⟨fun h => hmem.1 (h ▸ hc), fun h => hmem.2 (h ▸ hc)⟩
  cases h with
  | blank hc => exact splitFrom_plain (by simpa using tokenByte_facts _ (.inr hc))
  | line _ _ | block _ => 
    rw [tame, Bool.and_eq_true] at ht
    exact splitFrom_plain (hnot ht.1)
  | string hu _ =>
    rw [tame, Bool.not_eq_true'] at ht
    rw [List.cons_append, splitFrom, if_pos rfl]
    exact (splitFrom_doubled (hu.doubled ht)).trans (by simp)
  | quoted _ => exact splitFrom_plain (hnot ht)
  | semicolon => exact absurd rfl hsemi
  | plain _ hbytes _ _ _ => exact splitFrom_plain fun c hc => tokenByte_facts c (.inl (hbytes c hc))

theorem splitFrom_pieces (h : Laid [] ls) (ht : ∀ x ∈ placed off ls, tame x = true)
    (hpre : Laid (text ls) pre) : Pieces (splitFrom false (text pre).reverse (text ls))
      ((statements ls).modifyHead (pre ++ ·)) := by
  induction ls generalizing off pre with
  | nil =>
    have hpieces := tokens_trimSpace hpre
    rw [text_nil, splitFrom, statements_nil, List.reverse_reverse]
    simp only [List.modifyHead_cons, List.append_nil]
    split
    · rename_i hblank
      rw [hblank] at hpieces
      exact .blank (Except.ok.inj hpieces).symm
    · exact .last hpieces
  | cons l ls ih =>
    obtain ⟨hl, hls⟩ := h
    rw [List.append_nil] at hl
    obtain ⟨htl, htls⟩ := List.forall_mem_cons.mp ht
    rw [statements_cons]
    by_cases hends : l.endsStatement = true
    · have hraw := hl.shape.of_endsStatement hends
      rw [text_cons, hraw] at hpre
      rw [if_pos hends, text_cons, hraw, List.singleton_append, splitFrom, if_neg (by decide),
        if_pos ⟨rfl, rfl⟩, List.reverse_reverse]
      simp only [List.modifyHead_cons, List.append_nil]
      refine .cons (tokens_trimSpace (hpre.ends (.inl rfl))) ?_
      rw [← statements_nil_append]
      exact ih hls htls (laid_nil _)
    · have hraw : l.raw ≠ [byte ';'] := fun heq =>
        hends (Shape.of_semicolon (heq ▸ hl.shape))
      rw [if_neg hends, text_cons, splitFrom_lexeme hl.shape htl hraw]
      have hpre' : Laid (text ls) (pre ++ [l]) :=
        laid_append.mpr ⟨by simpa using hpre, by simpa using hl, trivial⟩
      have := ih hls htls hpre'
      simpa [Function.comp_def] using this

theorem splitStatements_cut (h : Laid [] ls) (ht : ∀ x ∈ placed 0 ls, tame x = true) :
    CutAtSemicolons (splitStatements (text ls)) (text ls) := by
  refine Pieces.cut h ?_
  rw [← statements_nil_append]
  exact splitFrom_pieces h ht (laid_nil _)

/-- Both splitters cut a text that the lexer accepts at its semicolons, if its lexemes are tame. -/
theorem splitters_cut_at_semicolons {sql : Bytes} {toks : List Token} (hlex : lex sql = .ok toks)
    (ht : isTame sql = true) :
    CutAtSemicolons (splitStatements sql) sql ∧ CutAtSemicolons (Bulk.scanStatements sql) sql := by
  obtain ⟨ls, hls, rfl, htame⟩ := exists_laid_tame hlex ht
  exact ⟨splitStatements_cut hls htame, Bulk.scanStatements_cut hls htame⟩

def twoStatements : Bytes := ascii "SELECT 'a;''b\\n' -- \"one\"\n; /* two */ SELECT \"c d\""

theorem splitters_cut_twoStatements :
    CutAtSemicolons (splitStatements twoStatements) twoStatements ∧
      CutAtSemicolons (Bulk.scanStatements twoStatements) twoStatements := by
  have hok : (lex twoStatements).isOk = true := by decide +kernel
  rcases hlex : lex twoStatements with e | toks
  · rw [hlex] at hok
    exact absurd hok Bool.false_ne_true
  · exact splitters_cut_at_semicolons hlex (by decide +kernel)

/-- A string with an escaped quote and a semicolon is cut in two by both splitters. -/
theorem escaped_quote_cut :
    tokens (ascii "'\\';'") = .ok [⟨.string, ascii "';", 0, [], 0⟩] ∧
      ¬ CutAtSemicolons (splitStatements (ascii "'\\';'")) (ascii "'\\';'") ∧
      ¬ CutAtSemicolons (Bulk.scanStatements (ascii "'\\';'")) (ascii "'\\';'") := by
  have hcut (parts : List Bytes) (hfails : (parts.mapM tokens).isOk = false) :
      ¬ CutAtSemicolons parts (ascii "'\\';'") := by
    rintro ⟨toks, groups, -, hgroups, -⟩
    rw [hgroups] at hfails
    exact absurd hfails.symm Bool.false_ne_true
  exact ⟨by decide +kernel, hcut _ (by decide +kernel), hcut _ (by decide +kernel)⟩

end VecDb.PgWire

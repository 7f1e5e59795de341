import VecDb.VectorSql.Number
import VecDb.VectorSql.Quoted

/-! # The lexical grammar

What the lexer reads in one round, and what may follow it. What is read in one place is read as well
in another one, if what follows there stops the scanner too.
-/

namespace VecDb.VectorSql

open List Fallible

variable {off n : ℕ} {raw s s' s'' rest u : Bytes} {t : Option Token} {c : UInt8} {x : Token × ℕ}
  {kind : TokenKind} {tok : ℕ → Option Token}

section Dispatch

def startsOperator (c : UInt8) : Bool :=
  !isBlank c && c != byte '\'' && c != byte '"' && c != byte '$' && !isDigit c && !isIdentStart c

/-- The two bytes at the front are not the start of something else than an operator. -/
def operatorNext (c d : UInt8) : Bool :=
  !(c == byte '-' && d == byte '-') && !(c == byte '/' && d == byte '*') &&
    !(c == byte ':' && d != byte ':') && !(c == byte '.' && isDigit d)

def token (r : Except VecError (Token × ℕ)) : Except VecError (Option Token × ℕ) :=
  r.map fun x => (some x.1, x.2)

theorem step_blank (h : isBlank (peekAt rest 0) = true) : step off rest = .ok (none, 1) := by
  exact if_pos h

theorem step_line (h₀ : peekAt rest 0 = byte '-') (h₁ : peekAt rest 1 = byte '-') :
    step off rest = .ok (none, skipLineComment rest) := by
  unfold step
  rw [h₀, h₁]
  rfl

theorem step_block (h₀ : peekAt rest 0 = byte '/') (h₁ : peekAt rest 1 = byte '*') :
    step off rest = (skipBlockComment off rest).map fun n => (none, n) := by
  unfold step
  rw [h₀, h₁]
  rfl

theorem step_string (h : peekAt rest 0 = byte '\'') :
    step off rest = token (scanString off rest) := by
  unfold step
  rw [h]
  rfl

theorem step_quoted (h : peekAt rest 0 = byte '"') :
    step off rest = token (scanQuotedIdent off rest) := by
  unfold step
  rw [h]
  rfl

theorem step_named (h₀ : peekAt rest 0 = byte ':') (h₁ : peekAt rest 1 ≠ byte ':') :
    step off rest = token (scanNamedParam off rest) := by
  simp only [step, h₀]
  rw [if_neg (by decide), if_neg (fun h => absurd h.1 (by decide)),
    if_neg (fun h => absurd h.1 (by decide)), if_neg (by decide), if_neg (by decide),
    if_pos ⟨trivial, h₁⟩]
  rfl

theorem step_positional (h : peekAt rest 0 = byte '$') :
    step off rest = token (scanPositionalParam off rest) := by
  unfold step
  rw [h]
  rfl

theorem digit_start : ∀ c, isDigit c = true → isBlank c = false ∧ c ≠ byte '-' ∧ c ≠ byte '/' ∧
    c ≠ byte '\'' ∧ c ≠ byte '"' ∧ c ≠ byte ':' ∧ c ≠ byte '$' :=
  forall_byte (by decide +kernel)

theorem step_digit (h : isDigit (peekAt rest 0) = true) :
    step off rest = token (scanNumber off rest) := by
  obtain ⟨h1, h2, h3, h4, h5, h6, h7⟩ := digit_start _ h
  simp only [step, h, h1, h2, h3, h4, h5, h6, h7, false_and, if_false, if_true, Bool.false_eq_true]
  rfl

theorem step_number (h : NumberStart rest) : step off rest = token (scanNumber off rest) := by
  rcases h with h | ⟨h₀, h₁⟩
  · exact step_digit h
  · unfold step
    rw [h₀, h₁]
    rfl

theorem identStart_start : ∀ c, isIdentStart c = true → isBlank c = false ∧ c ≠ byte '-' ∧
    c ≠ byte '/' ∧ c ≠ byte '\'' ∧ c ≠ byte '"' ∧ c ≠ byte ':' ∧ c ≠ byte '$' ∧
    isDigit c = false ∧ c ≠ byte '.' :=
  forall_byte (by decide +kernel)

theorem step_word (h : isIdentStart (peekAt rest 0) = true) :
    step off rest = token (scanWord off rest) := by
  obtain ⟨h1, h2, h3, h4, h5, h6, h7, h8, h9⟩ := identStart_start _ h
  simp only [step, h, h1, h2, h3, h4, h5, h6, h7, h8, h9, false_and, if_false, if_true,
    Bool.false_eq_true]
  rfl

theorem step_operator (h₀ : startsOperator (peekAt rest 0) = true)
    (h₁ : operatorNext (peekAt rest 0) (peekAt rest 1) = true) :
    step off rest = token (scanOperator off rest) := by
  simp only [startsOperator, operatorNext, Bool.and_eq_true, Bool.not_eq_true', bne_iff_ne,
    Bool.and_eq_false_imp, beq_iff_eq, beq_eq_false_iff_ne] at h₀ h₁
  obtain ⟨⟨⟨⟨⟨hblank, hquote⟩, hdquote⟩, hdollar⟩, hdigit⟩, hident⟩ := h₀
  obtain ⟨⟨⟨hline, hblock⟩, hnamed⟩, hpoint⟩ := h₁
  simp only [step, hblank, hquote, hdquote, hdollar, hdigit, hident, if_false, Bool.false_eq_true]
  rw [if_neg fun h => hline h.1 h.2, if_neg fun h => hblock h.1 h.2,
    if_neg fun h => h.2 (by simpa using hnamed h.1), if_neg]
  · rfl
  · exact fun h => Bool.false_ne_true ((hpoint h.1).symm.trans h.2)

end Dispatch

/-- What of a lexeme matters to where a statement ends. -/
inductive Shape (s : Bytes) : Bytes → (ℕ → Option Token) → Prop
  | blank {c : UInt8} : isBlank c = true → Shape s [c] fun _ => none
  | line {body : Bytes} : byte '\n' ∉ body → s = [] ∨ peekAt s 0 = byte '\n' →
      Shape s (byte '-' :: byte '-' :: body) fun _ => none
  | block {u : Bytes} : (∃ v, u = v ++ [byte '/']) → Shape s (byte '/' :: byte '*' :: u) fun _ => none
  | string {u text : Bytes} : StringParts u text → peekAt s 0 ≠ byte '\'' →
      Shape s (byte '\'' :: u) fun off => some ⟨.string, text, off, [], 0⟩
  | quoted {u text : Bytes} : Doubled (byte '"') u →
      Shape s (byte '"' :: u) fun off => some ⟨.ident, text, off, [], 0⟩
  | semicolon : Shape s [byte ';'] fun off => some ⟨.semicolon, [byte ';'], off, [], 0⟩
  | plain {raw : Bytes} {t : Token} : raw ≠ [] → (∀ c ∈ raw, tokenByte c = true) →
      dashes raw = false → (raw.getLast? = some (byte '-') → peekAt s 0 ≠ byte '-') →
      t.kind ≠ .semicolon → Shape s raw fun off => some { t with offset := off }

theorem Shape.of_plain {t : Token} (h : Plain raw) (hne : raw ≠ []) (ht : t.kind ≠ .semicolon) :
    Shape s raw fun off => some { t with offset := off } :=
  .plain hne h.bytes h.dashes (fun hl => absurd hl h.last) ht

/-- After the bytes, `s'` lets no scanner go on that stops before `s`. -/
structure Follows (raw s s' : Bytes) : Prop where
  stops : Stops s s'
  line : s = [] ∨ peekAt s 0 = byte '\n' → s' = [] ∨ peekAt s' 0 = byte '\n'
  rune : RuneNext s → RuneNext s'
  operators : ∀ y ∈ operators, y.1 <+: raw ++ s' → y.1 <+: raw ++ s

/-- The bytes are read in one round if they come before `s`; a token depends on the offset. -/
structure Reads (s raw : Bytes) (tok : ℕ → Option Token) : Prop where
  step (off : ℕ) {s' : Bytes} : Follows raw s s' → step off (raw ++ s') = .ok (tok off, raw.length)
  shape : Shape s raw tok

theorem Follows.refl (raw s : Bytes) : Follows raw s s :=
  ⟨fun _ _ _ h => h, id, id, fun _ _ h => h⟩

theorem Follows.trans (h : Follows raw s s') (h' : Follows raw s' s'') : Follows raw s s'' where
  stops p h0 hn hp := h'.stops p h0 hn (h.stops p h0 hn hp)
  line := h'.line ∘ h.line
  rune := h'.rune ∘ h.rune
  operators y hy hpre := h.operators y hy (h'.operators y hy hpre)

theorem Shape.follows (h : Shape s raw tok) (hf : Follows raw s s') : Shape s' raw tok := by
  cases h with
  | blank hc => exact .blank hc
  | line hbody hs => exact .line hbody (hf.line hs)
  | block hu => exact .block hu
  | string hu hs => exact .string hu (hf.stops.ne hs (by decide) (by decide))
  | quoted hu => exact .quoted hu
  | semicolon => exact .semicolon
  | plain hne hbytes hdash hlast ht =>
    exact .plain hne hbytes hdash (fun h => hf.stops.ne (hlast h) (by decide) (by decide)) ht

theorem Reads.follows (h : Reads s raw tok) (hf : Follows raw s s') : Reads s' raw tok :=
  ⟨fun off _ hf' => h.step off (hf.trans hf'), h.shape.follows hf⟩

theorem identPart_of_start (h : isIdentStart c = true) : isIdentPart c = true := by
  simp [isIdentPart, h]

section Operators

theorem operators_ne_nil : ∀ x ∈ operators, x.1 ≠ [] := by decide

theorem reads_of_scanOperator
    (h : scanOperator off (c :: rest) = .ok x) : ∃ kind raw s, rest = raw ++ s ∧
      x = (⟨kind, c :: raw, off, [], 0⟩, (c :: raw).length) ∧ ∀ off,
        scanOperator off (c :: raw ++ s) = .ok (⟨kind, c :: raw, off, [], 0⟩, (c :: raw).length) := by
  unfold scanOperator at h
  split at h
  · rename_i text kind hfind
    have hmem := mem_of_find?_eq_some hfind
    have htext : text = (c :: rest).take text.length := by
      simpa using find?_some hfind
    have hsplit : c :: rest = text ++ (c :: rest).drop text.length := by
      nth_rewrite 1 [← take_append_drop text.length (c :: rest), ← htext]
      rfl
    obtain ⟨d, raw, hraw⟩ := exists_cons_of_ne_nil (operators_ne_nil _ hmem)
    subst hraw
    rw [cons_append, List.cons.injEq] at hsplit
    obtain ⟨rfl, hsplit⟩ := hsplit
    refine ⟨kind, raw, _, hsplit, (Except.ok.inj h).symm, fun off => ?_⟩
    rw [cons_append, ← hsplit, scanOperator, hfind]
  · rename_i hfind
    rw [peekAt_cons_zero] at h
    dsimp only at h
    split at h
    · rename_i kind hkind
      refine ⟨kind, [], rest, rfl, (Except.ok.inj h).symm, fun off => ?_⟩
      rw [cons_append, nil_append, scanOperator, hfind, peekAt_cons_zero]
      dsimp only
      rw [hkind]
      rfl
    · cases h

theorem scanOperator_congr (h : scanOperator off (u ++ s) = .ok (⟨kind, u, off, [], 0⟩, u.length))
    (hne : u ≠ []) (hs : ∀ y ∈ operators, y.1 <+: u ++ s' → y.1 <+: u ++ s) :
    scanOperator off (u ++ s') = .ok (⟨kind, u, off, [], 0⟩, u.length) := by
  have hpred (s : Bytes) (y : Bytes × TokenKind) :
      decide (y.1 = (u ++ s).take y.1.length) = true ↔ y.1 <+: u ++ s := by
    rw [decide_eq_true_iff, prefix_iff_eq_take]
  have hold : ∀ y ∈ operators, ¬ y.1 <+: u ++ s → ¬ y.1 <+: u ++ s' := fun y hy hno hyes =>
    hno (hs y hy hyes)
  obtain ⟨c, v, rfl⟩ := exists_cons_of_ne_nil hne
  unfold scanOperator at h ⊢
  rcases hf : operators.find? fun y => y.1 = (c :: v ++ s).take y.1.length with _ | ⟨o, k⟩
  · rw [hf] at h
    have hnone : (operators.find? fun y => y.1 = (c :: v ++ s').take y.1.length) = none := by
      rw [find?_eq_none] at hf ⊢
      intro y hy
      rw [hpred]
      exact hold y hy (mt (hpred s y).mpr (hf y hy))
    rw [hnone]
    exact h
  · rw [hf] at h
    cases h
    have hsome : (operators.find? fun y => y.1 = (c :: v ++ s').take y.1.length) =
        some (c :: v, kind) := by
      rw [find?_eq_some_iff_append] at hf ⊢
      obtain ⟨-, as, bs, hsplit, hbefore⟩ := hf
      refine ⟨(hpred s' _).mpr (prefix_append _ _), as, bs, hsplit, fun y hy => ?_⟩
      have hmem : y ∈ operators := by
        rw [hsplit]
        exact mem_append_left _ hy
      have hno : ¬ y.1 <+: c :: v ++ s := by
        rw [← hpred]
        simpa using hbefore y hy
      have := mt (hpred s' y).mp (hold y hmem hno)
      simpa using this
    rw [hsome]

theorem ne_colon_of_operator (hnext : operatorNext c (peekAt s 0) = true)
    (hop : ∀ off, scanOperator off ([c] ++ s) = .ok (⟨kind, [c], off, [], 0⟩, 1)) :
    c ≠ byte ':' := by
  rintro rfl
  rcases s with _ | ⟨d, s⟩
  · cases hnext
  have hd : d = byte ':' := by
    simp only [operatorNext, peekAt_cons_zero, Bool.and_eq_true] at hnext
    simpa using hnext.1.2
  subst hd
  have hcast : scanOperator 0 ([byte ':'] ++ byte ':' :: s) =
      .ok (⟨.cast, ascii "::", 0, [], 0⟩, 2) := rfl
  cases (hop 0).symm.trans hcast

theorem prefix_of_prefix_append {y : Bytes} (h : y <+: u ++ f :: s) (hf : f ∉ y) : y <+: u := by
  by_cases hlen : y.length ≤ u.length
  · exact prefix_of_prefix_length_le h (prefix_append u _) hlen
  · have hlong : u ++ [f] <+: u ++ f :: s := ⟨s, by simp⟩
    have hmem : u ++ [f] <+: y := prefix_of_prefix_length_le hlong h (by simp; omega)
    exact absurd (hmem.subset (by simp)) hf

theorem newline_not_mem_operators : ∀ y ∈ operators, byte '\n' ∉ y.1 := by decide

theorem operator_before_end (hs : s' = [] ∨ peekAt s' 0 = byte '\n') {y : Bytes × TokenKind}
    (hy : y ∈ operators) (h : y.1 <+: u ++ s') : y.1 <+: u ++ s := by
  refine List.IsPrefix.trans ?_ (prefix_append u s)
  rcases hs with rfl | hs
  · rwa [append_nil] at h
  · rcases s' with _ | ⟨f, s'⟩
    · exact absurd hs (by decide)
    · rw [peekAt_cons_zero] at hs
      subst hs
      exact prefix_of_prefix_append h (newline_not_mem_operators y hy)

theorem operator_cases
    (h : scanOperator off (c :: raw ++ s) = .ok (⟨kind, c :: raw, off, [], 0⟩, (c :: raw).length)) :
    (c :: raw, kind) ∈ operators ∨ raw = [] ∧ scanSingle c = some kind := by
  unfold scanOperator at h
  split at h
  · rename_i o k hf
    cases h
    exact .inl (mem_of_find?_eq_some hf)
  · rw [cons_append, peekAt_cons_zero] at h
    dsimp only at h
    split at h
    · rename_i k hk
      cases h
      exact .inr ⟨rfl, hk⟩
    · cases h

theorem operators_facts : ∀ y ∈ operators, y.2 ≠ .semicolon ∧ (∀ c ∈ y.1, tokenByte c = true) ∧
    dashes y.1 = false ∧ y.1.getLast? ≠ some (byte '-') ∧
    ¬ [byte '-', byte '-'] <:+: y.1 := by decide +kernel

theorem scanSingle_facts : ∀ c, (scanSingle c ≠ none → tokenByte c = true ∨ c = byte ';') ∧
    (scanSingle c = some .semicolon → c = byte ';') := forall_byte (by decide +kernel)

theorem shape_operator (hnext : operatorNext c (peekAt (raw ++ s) 0) = true)
    (hop : ∀ off, scanOperator off (c :: raw ++ s) =
      .ok (⟨kind, c :: raw, off, [], 0⟩, (c :: raw).length)) :
    Shape s (c :: raw) fun off => some ⟨kind, c :: raw, off, [], 0⟩ := by
  rcases operator_cases (hop 0) with hmem | ⟨rfl, hkind⟩
  · obtain ⟨hsemi, hbytes, hdash, hlast, -⟩ := operators_facts _ hmem
    exact .of_plain (t := ⟨kind, c :: raw, 0, [], 0⟩) ⟨hbytes, hdash, hlast⟩ (cons_ne_nil c raw) hsemi
  · by_cases hc : c = byte ';'
    · subst hc
      cases hkind
      exact .semicolon
    · have hbyte := ((scanSingle_facts c).1 (by simp [hkind])).resolve_right hc
      refine .plain (t := ⟨kind, [c], 0, [], 0⟩) (cons_ne_nil c []) (by simpa using hbyte) rfl ?_ ?_
      · intro hlast hdash
        obtain rfl : c = byte '-' := by simpa using hlast
        rw [nil_append, hdash] at hnext
        exact absurd hnext (by decide)
      · rintro rfl
        exact hc ((scanSingle_facts c).2 hkind)

theorem reads_operator (hstart : startsOperator c = true)
    (hnext : operatorNext c (peekAt (raw ++ s) 0) = true)
    (hop : ∀ off, scanOperator off (c :: raw ++ s) =
      .ok (⟨kind, c :: raw, off, [], 0⟩, (c :: raw).length)) :
    Reads s (c :: raw) fun off => some ⟨kind, c :: raw, off, [], 0⟩ := by
  refine ⟨fun off s' hf => ?_, shape_operator hnext hop⟩
  have hnext' : operatorNext c (peekAt (raw ++ s') 0) = true := by
    rcases raw with _ | ⟨d, raw⟩
    · have hc := ne_colon_of_operator hnext hop
      have hclass (f : UInt8) (h₀ : f ≠ byte '-') (h₁ : f ≠ byte '*') (h₂ : isDigit f = false) :
          (!operatorNext c f) = false := by
        simp [operatorNext, hc, h₀, h₁, h₂]
      simpa using hf.stops (fun f => !operatorNext c f) (hclass _ (by decide) (by decide) rfl)
        (hclass _ (by decide) (by decide) rfl) (by simpa using hnext)
    · exact hnext
  rw [@step_operator off (c :: raw ++ s') hstart hnext',
    scanOperator_congr (hop off) (cons_ne_nil c raw) hf.operators]
  rfl

end Operators

theorem line_split (rest : Bytes) : ∃ body s, rest = body ++ s ∧ byte '\n' ∉ body ∧
    (s = [] ∨ peekAt s 0 = byte '\n') ∧
      skipLineComment (byte '-' :: byte '-' :: rest) = (byte '-' :: byte '-' :: body).length := by
  refine ⟨rest.takeWhile (· != byte '\n'), rest.dropWhile (· != byte '\n'),
    takeWhile_append_dropWhile.symm, fun h => ?_, ?_, rfl⟩
  · exact absurd (mem_takeWhile_imp h) (by decide)
  · rcases hr : rest.dropWhile (· != byte '\n') with _ | ⟨c, s⟩
    · exact .inl rfl
    · have hc := @List.head_dropWhile_not _ (· != byte '\n') rest
        (by rw [hr]; exact cons_ne_nil c s)
      simp only [hr, head_cons] at hc
      exact .inr (by simpa using hc)

theorem reads_line {body : Bytes} (hbody : byte '\n' ∉ body)
    (hs : s = [] ∨ peekAt s 0 = byte '\n') :
    Reads s (byte '-' :: byte '-' :: body) fun _ => none := by
  refine ⟨fun off s' hf => ?_, .line hbody hs⟩
  have hall : ∀ c ∈ byte '-' :: byte '-' :: body, (c != byte '\n') = true := by
    refine forall_mem_cons.mpr ⟨by decide, forall_mem_cons.mpr ⟨by decide, fun c hc => ?_⟩⟩
    rw [bne_iff_ne]
    rintro rfl
    exact hbody hc
  rw [step_line rfl rfl, skipLineComment, width_append hall]
  rcases hf.line hs with rfl | hs
  · rfl
  · rw [width_eq_zero (by rw [hs]; rfl)]
    rfl

/-- What the step reads is a lexeme at the front of the text. -/
def Lexes (off : ℕ) (rest : Bytes) (t : Option Token) (n : ℕ) : Prop :=
  ∃ raw s tok, rest = raw ++ s ∧ n = raw.length ∧ raw ≠ [] ∧ Reads s raw tok ∧ t = tok off

section Kinds

variable (h : step off (c :: rest) = .ok (t, n))
include h

theorem lexes_blank (hc : isBlank c = true) : Lexes off (c :: rest) t n := by
  rw [@step_blank off (c :: rest) hc] at h
  cases h
  exact ⟨[c], rest, _, rfl, rfl, cons_ne_nil c [],
    ⟨fun off s' _ => @step_blank off (c :: s') hc, .blank hc⟩, rfl⟩

theorem lexes_line (hc : c = byte '-') (hnext : peekAt rest 0 = byte '-') :
    Lexes off (c :: rest) t n := by
  subst hc
  rw [step_line rfl hnext] at h
  cases h
  rcases rest with _ | ⟨d, rest⟩
  · exact absurd hnext (by decide)
  rw [peekAt_cons_zero] at hnext
  subst hnext
  obtain ⟨body, s, rfl, hbody, hs, hwidth⟩ := line_split rest
  exact ⟨byte '-' :: byte '-' :: body, s, _, rfl, hwidth, cons_ne_nil _ _, reads_line hbody hs, rfl⟩

theorem lexes_block (hc : c = byte '/') (hnext : peekAt rest 0 = byte '*') :
    Lexes off (c :: rest) t n := by
  subst hc
  rw [step_block rfl hnext] at h
  obtain ⟨m, hm, heq⟩ := map_eq_ok.mp h
  cases heq
  obtain ⟨k, hk, rfl⟩ := map_eq_ok.mp hm
  rcases rest with _ | ⟨d, rest⟩
  · exact absurd hnext (by decide)
  rw [peekAt_cons_zero] at hnext
  subst hnext
  obtain ⟨u, s, heq, rfl, hlast, hbody⟩ := blockBody_eq_ok hk
  rw [drop_succ_cons, drop_succ_cons, drop_zero] at heq
  subst heq
  refine ⟨byte '/' :: byte '*' :: u, s, _, rfl, rfl, cons_ne_nil _ _,
    ⟨fun off s' _ => ?_, .block hlast⟩, rfl⟩
  rw [step_block rfl rfl, skipBlockComment]
  change ((blockBody off (off + 2) (u ++ s')).map _).map _ = _
  rw [hbody]
  rfl

theorem lexes_string (hc : c = byte '\'') : Lexes off (c :: rest) t n := by
  subst hc
  rw [step_string rfl] at h
  obtain ⟨x, hx, heq⟩ := map_eq_ok.mp h
  cases heq
  obtain ⟨y, hy, rfl⟩ := map_eq_ok.mp hx
  obtain ⟨u, s, heq, hn, hu, hs⟩ := stringBody_eq_ok hy
  rw [tail_cons] at heq
  subst heq
  refine ⟨byte '\'' :: u, s, _, rfl, by rw [hn]; rfl, cons_ne_nil _ u,
    ⟨fun off s' hf => ?_, .string hu hs⟩, rfl⟩
  rw [step_string rfl, scanString]
  change token ((stringBody off 0 (off + 1) (u ++ s')).map _) = _
  rw [hu.body _ _ (hf.stops.ne hs (by decide) (by decide))]
  rfl

theorem lexes_quoted (hc : c = byte '"') : Lexes off (c :: rest) t n := by
  subst hc
  rw [step_quoted rfl] at h
  obtain ⟨x, hx, heq⟩ := map_eq_ok.mp h
  cases heq
  obtain ⟨y, hy, rfl⟩ := map_eq_ok.mp hx
  obtain ⟨u, s, heq, hn, hu, hs, hbody⟩ := quotedBody_eq_ok hy
  rw [tail_cons] at heq
  subst heq
  refine ⟨byte '"' :: u, s, _, rfl, by rw [hn]; rfl, cons_ne_nil _ u,
    ⟨fun off s' hf => ?_, .quoted hu⟩, rfl⟩
  rw [step_quoted rfl, scanQuotedIdent]
  change token ((quotedBody off (u ++ s')).map _) = _
  rw [hbody off s' (hf.stops.ne hs (by decide) (by decide))]
  rfl

theorem lexes_named (hc : c = byte ':') (hnext : peekAt rest 0 ≠ byte ':') :
    Lexes off (c :: rest) t n := by
  subst hc
  rw [step_named rfl hnext] at h
  obtain ⟨x, hx, heq⟩ := map_eq_ok.mp h
  cases heq
  obtain ⟨name, s, rfl, hn, hne, hname, hs, heq⟩ := scanNamedParam_eq_ok hx
  have hplain : Plain (byte ':' :: name) :=
    (plain_singleton (by decide) (by decide)).append (plain_of_part hname)
  refine ⟨byte ':' :: name, s, _, rfl, hn, cons_ne_nil _ _, ⟨fun off s' hf => ?_,
    .of_plain (t := x.1) hplain (cons_ne_nil _ _) (by simp [heq])⟩, by rw [heq]⟩
  obtain ⟨d, name, rfl⟩ := exists_cons_of_ne_nil hne
  rw [@step_named off (byte ':' :: (d :: name) ++ s') rfl hnext,
    scanNamedParam_append hne hname (hf.stops _ rfl rfl hs), heq]
  rfl

theorem lexes_positional (hc : c = byte '$') : Lexes off (c :: rest) t n := by
  subst hc
  rw [step_positional rfl] at h
  obtain ⟨x, hx, heq⟩ := map_eq_ok.mp h
  cases heq
  obtain ⟨num, s, rfl, hn, hne, hnum, hpos, hs, heq⟩ := scanPositionalParam_eq_ok hx
  have hplain : Plain (byte '$' :: num) :=
    (plain_singleton (by decide) (by decide)).append (plain_digits hnum)
  refine ⟨byte '$' :: num, s, _, rfl, hn, cons_ne_nil _ _, ⟨fun off s' hf => ?_,
    .of_plain (t := x.1) hplain (cons_ne_nil _ _) (by simp [heq])⟩, by rw [heq]⟩
  rw [step_positional rfl, scanPositionalParam_append hne hnum hpos (hf.stops _ rfl rfl hs), heq]
  rfl

theorem lexes_number (hc : NumberStart (c :: rest)) : Lexes off (c :: rest) t n := by
  rw [step_number hc] at h
  obtain ⟨x, hx, heq⟩ := map_eq_ok.mp h
  cases heq
  obtain ⟨u, s, kind, hrest, hn, ht, hkind, hplain, hread⟩ := scanNumber_reads hc hx
  have hne : u ≠ [] := by
    rintro rfl
    rcases (hread 0 [] fun _ h0 _ _ => h0).1 with hd | hd
    · cases hd
    · cases hd.1
  refine ⟨u, s, _, hrest, hn, hne, ⟨fun off s' hf => ?_, .of_plain (t := x.1) hplain hne ?_⟩, ?_⟩
  · obtain ⟨hstart, hscan⟩ := hread off s' hf.stops
    rw [step_number hstart, hscan, ht]
    rfl
  · rwa [ht]
  · rw [ht]

theorem lexes_word (hc : isIdentStart c = true) : Lexes off (c :: rest) t n := by
  rw [@step_word off (c :: rest) hc] at h
  obtain ⟨x, hx, heq⟩ := map_eq_ok.mp h
  cases heq
  obtain ⟨raw, s, heq, hn, hraw, hnext, hs, htok⟩ := scanWord_eq_ok hx
  rcases raw with _ | ⟨d, raw⟩
  · rw [nil_append] at heq
    rw [← heq, peekAt_cons_zero, identPart_of_start hc] at hs
    cases hs
  · rw [cons_append, List.cons.injEq] at heq
    obtain ⟨rfl, rfl⟩ := heq
    refine ⟨c :: raw, s, _, rfl, hn, cons_ne_nil _ _, ⟨fun off s' hf => ?_,
      .of_plain (t := x.1) (plain_of_part hraw) (cons_ne_nil _ _) ?_⟩, by rw [htok]; rfl⟩
    · rw [@step_word off (c :: raw ++ s') hc,
        scanWord_append hraw (hf.rune hnext) (hf.stops _ rfl rfl hs), htok]
      rfl
    · rw [htok, wordToken]
      split <;> simp

theorem lexes_operator (hc : startsOperator c = true)
    (hnext : operatorNext c (peekAt rest 0) = true) : Lexes off (c :: rest) t n := by
  rw [@step_operator off (c :: rest) hc hnext] at h
  obtain ⟨x, hx, heq⟩ := map_eq_ok.mp h
  cases heq
  obtain ⟨kind, raw, s, rfl, rfl, hop⟩ := reads_of_scanOperator hx
  exact ⟨c :: raw, s, _, rfl, rfl, cons_ne_nil _ _, reads_operator hc hnext hop, rfl⟩

end Kinds

theorem step_eq_ok (hrest : rest ≠ []) (h : step off rest = .ok (t, n)) : Lexes off rest t n := by
  obtain ⟨c, rest, rfl⟩ := exists_cons_of_ne_nil hrest
  by_cases hblank : isBlank c = true
  · exact lexes_blank h hblank
  by_cases hline : c = byte '-' ∧ peekAt rest 0 = byte '-'
  · exact lexes_line h hline.1 hline.2
  by_cases hblock : c = byte '/' ∧ peekAt rest 0 = byte '*'
  · exact lexes_block h hblock.1 hblock.2
  by_cases hquote : c = byte '\''
  · exact lexes_string h hquote
  by_cases hdquote : c = byte '"'
  · exact lexes_quoted h hdquote
  by_cases hnamed : c = byte ':' ∧ peekAt rest 0 ≠ byte ':'
  · exact lexes_named h hnamed.1 hnamed.2
  by_cases hdollar : c = byte '$'
  · exact lexes_positional h hdollar
  by_cases hnumber : NumberStart (c :: rest)
  · exact lexes_number h hnumber
  by_cases hident : isIdentStart c = true
  · exact lexes_word h hident
  apply lexes_operator h
  · have hdigit : isDigit c = false := Bool.eq_false_iff.mpr fun hd => hnumber (.inl hd)
    simp [startsOperator, hblank, hquote, hdquote, hdollar, hdigit, hident]
  · simp only [operatorNext, Bool.and_eq_true, Bool.not_eq_true', Bool.and_eq_false_imp, beq_iff_eq,
      beq_eq_false_iff_ne]
    refine ⟨⟨⟨fun h₀ h₁ => hline ⟨h₀, h₁⟩, fun h₀ h₁ => hblock ⟨h₀, h₁⟩⟩, fun h₀ => ?_⟩,
      fun h₀ => ?_⟩
    · simpa using fun h₁ => hnamed ⟨h₀, h₁⟩
    · exact Bool.eq_false_iff.mpr fun h₁ => hnumber (.inr ⟨h₀, h₁⟩)

end VecDb.VectorSql

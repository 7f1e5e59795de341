import VecDb.VectorSql.Lexeme

/-! # Texts as lists of lexemes

A text that the lexer accepts is a list of lexemes, each of which is read before the rest of the
text. What is put together from lexemes in this way is read as these lexemes again.
-/

namespace VecDb.VectorSql

open List Scan

/-- Bytes that are read in one round, and the token that they give at an offset. -/
structure Lexeme where
  raw : Bytes
  tok : ℕ → Option Token

def text (ls : List Lexeme) : Bytes := ls.flatMap Lexeme.raw

@[simp] theorem text_nil : text [] = [] := rfl

@[simp] theorem text_cons (l : Lexeme) (ls : List Lexeme) : text (l :: ls) = l.raw ++ text ls :=
  flatMap_cons

@[simp] theorem text_append (ls ls' : List Lexeme) : text (ls ++ ls') = text ls ++ text ls' :=
  flatMap_append

/-- Each lexeme is read before the next ones and `s`. -/
def Laid (s : Bytes) : List Lexeme → Prop
  | [] => True
  | l :: ls => Reads (text ls ++ s) l.raw l.tok ∧ Laid s ls

@[simp] theorem laid_nil (s : Bytes) : Laid s [] := trivial

variable {ls : List Lexeme} {s : Bytes}

@[simp] theorem laid_cons {l : Lexeme} :
    Laid s (l :: ls) ↔ Reads (text ls ++ s) l.raw l.tok ∧ Laid s ls := Iff.rfl

theorem laid_append {ls ls' : List Lexeme} :
    Laid s (ls ++ ls') ↔ Laid (text ls' ++ s) ls ∧ Laid s ls' := by
  induction ls with
  | nil => simp
  | cons l ls ih => simp [ih, and_assoc]

/-- The lexemes with their tokens at the offsets they have in a text. -/
def placed : ℕ → List Lexeme → List (Option Token × Bytes)
  | _, [] => []
  | off, l :: ls => (l.tok off, l.raw) :: placed (off + l.raw.length) ls

def lexemes (src : Bytes) : Except VecError (List (Option Token × Bytes)) :=
  Scan.run (Scan.traced step) 0 0 src

variable {tok : ℕ → Option Token}

theorem Reads.ne_nil {s raw : Bytes} (h : Reads s raw tok) : raw ≠ [] := by
  cases h.shape with
  | plain hne _ _ _ _ => exact hne
  | _ => exact cons_ne_nil _ _

theorem run_of_laid (h : Laid [] ls) (off : ℕ) :
    run (traced step) 0 off (text ls) = .ok (placed off ls) := by
  induction ls generalizing off with
  | nil => rfl
  | cons l ls ih =>
    obtain ⟨hl, hls⟩ := laid_cons.mp h
    rw [append_nil] at hl
    have hstep : traced step off (l.raw ++ text ls) =
        .ok (some (l.tok off, l.raw), l.raw.length) := by
      rw [traced, hl.step off (.refl _ _)]
      change Except.ok (some (l.tok off, (l.raw ++ text ls).take l.raw.length), _) = _
      rw [take_left]
    rw [text_cons, run_step (by simp [hl.ne_nil]) (by simp [hl.ne_nil]) hstep, drop_left,
      ih hls]
    rfl

theorem lexemes_text (h : Laid [] ls) : lexemes (text ls) = .ok (placed 0 ls) :=
  run_of_laid h 0

variable {cuts : List (Option Token × Bytes)}

theorem laid_of_run {src : Bytes} {off : ℕ} (h : run (traced step) 0 off src = .ok cuts) :
    ∃ ls, Laid [] ls ∧ text ls = src ∧ cuts = placed off ls := by
  induction hm : src.length using Nat.strong_induction_on generalizing src off cuts with
  | h m ih =>
    by_cases hsrc : src = []
    · subst hsrc
      cases h
      exact ⟨[], trivial, rfl, rfl⟩
    rcases hs : step off src with e | ⟨t, n⟩
    · rw [run_error hsrc (e := e) (by rw [traced, hs]; rfl)] at h
      cases h
    · obtain ⟨raw, s, tok, rfl, rfl, hne, hreads, rfl⟩ := step_eq_ok hsrc hs
      have hstep : traced step off (raw ++ s) =
          .ok (some (tok off, raw), raw.length) := by
        rw [traced, hs]
        change Except.ok (some (tok off, (raw ++ s).take raw.length), _) = _
        rw [take_left]
      rw [run_step hsrc (by simp [hne]) hstep, drop_left] at h
      obtain ⟨cuts', hcuts, rfl⟩ := Fallible.map_eq_ok.mp h
      have hpos := length_pos_iff.mpr hne
      rw [length_append] at hm
      obtain ⟨ls, hls, rfl, rfl⟩ := ih _ (by omega) hcuts rfl
      exact ⟨⟨raw, tok⟩ :: ls, ⟨by rwa [append_nil], hls⟩, rfl, rfl⟩

theorem exists_laid {src : Bytes}
    (h : lexemes src = .ok cuts) : ∃ ls, Laid [] ls ∧ text ls = src ∧ cuts = placed 0 ls :=
  laid_of_run h

theorem lex_eq (src : Bytes) : lex src = (lexemes src).map fun cuts =>
    cuts.filterMap Prod.fst ++ [⟨.eof, [], src.length, [], 0⟩] := by
  rw [lex, run_traced, lexemes]
  rcases run (traced step) 0 0 src with e | cuts <;> rfl

section Context

variable {s s' raw : Bytes} {tok : ℕ → Option Token} {c : UInt8}

theorem follows_end (raw s : Bytes) (hs : s' = [] ∨ peekAt s' 0 = byte '\n') :
    Follows raw s s' := by
  have hpeek : peekAt s' 0 = 0 ∨ peekAt s' 0 = byte '\n' := hs.imp (fun h => by rw [h]; rfl) id
  refine ⟨fun p h0 hn _ => ?_, fun _ => hs, fun _ => runeNext_of_ascii ?_,
    fun y hy => operator_before_end hs hy⟩
  · rcases hpeek with h | h <;> rw [h] <;> assumption
  · rcases hpeek with h | h <;> rw [h] <;> decide

theorem Reads.ends (h : Reads s raw tok) (hs : s' = [] ∨ peekAt s' 0 = byte '\n') :
    Reads s' raw tok := h.follows (follows_end raw s hs)

/-- Only the next byte matters to what is read, if no operator goes on over it. -/
theorem Reads.congr {t t' : Bytes} (h : Reads (c :: t) raw tok) (hc : c < 0x80)
    (hops : ∀ y ∈ operators, y.1 <+: raw ++ c :: t' → y.1 <+: raw ++ c :: t) :
    Reads (c :: t') raw tok :=
  h.follows ⟨fun _ _ _ hp => hp, fun hs => .inr (hs.resolve_left (cons_ne_nil c t)),
    fun _ => runeNext_of_ascii hc, hops⟩

theorem starts_ascii : ∀ c, isBlank c = true ∨ tokenByte c = true → c < 0x80 :=
  forall_byte (by decide +kernel)

theorem Reads.ascii (h : Reads s raw tok) : ∃ c v, raw = c :: v ∧ c < 0x80 := by
  cases h.shape with
  | blank hc => exact ⟨_, [], rfl, starts_ascii _ (.inl hc)⟩
  | line _ _ | block _ | string _ _ | quoted _ | semicolon => exact ⟨_, _, rfl, by decide⟩
  | plain hne hbytes _ _ _ =>
    obtain ⟨c, v, rfl⟩ := exists_cons_of_ne_nil hne
    exact ⟨c, v, rfl, starts_ascii c (.inr (hbytes c mem_cons_self))⟩

theorem Laid.change (h : Laid s ls) (hlast : ∀ l ∈ ls, Reads s l.raw l.tok → Reads s' l.raw l.tok)
    (hops : ∀ v, ∀ y ∈ operators, y.1 <+: v ++ s' → y.1 <+: v ++ s) : Laid s' ls := by
  induction ls with
  | nil => trivial
  | cons l ls ih =>
    have hls := ih h.2 fun l hl => hlast l (mem_cons_of_mem _ hl)
    refine ⟨?_, hls⟩
    rcases ls with _ | ⟨l', ls⟩
    · exact hlast l mem_cons_self h.1
    · obtain ⟨c, v, hraw, hc⟩ := h.2.1.ascii
      have hl := h.1
      rw [text_cons, hraw, append_assoc, cons_append] at hl ⊢
      refine hl.congr hc fun y hy hprefix => ?_
      have := hops (l.raw ++ (c :: (v ++ text ls))) y hy (by simpa using hprefix)
      simpa using this

theorem Laid.ends (h : Laid s ls) (hs : s' = [] ∨ peekAt s' 0 = byte '\n') : Laid s' ls := by
  exact h.change (fun l _ hl => hl.ends hs) fun v y hy => operator_before_end hs hy

end Context

section Bare

def Token.bare (t : Token) : Token := { t with offset := 0 }

def tokens (src : Bytes) : Except VecError (List Token) :=
  (lex src).map fun ts => ts.dropLast.map Token.bare

def bareTokens (ls : List Lexeme) : List Token := ls.filterMap fun l => (l.tok 0).map Token.bare

@[simp] theorem bareTokens_nil : bareTokens [] = [] := rfl

@[simp] theorem bareTokens_cons (l : Lexeme) (ls : List Lexeme) :
    bareTokens (l :: ls) = ((l.tok 0).map Token.bare).toList ++ bareTokens ls := by
  rcases h : l.tok 0 with _ | t <;> simp [bareTokens, h]

@[simp] theorem bareTokens_append (ls ls' : List Lexeme) :
    bareTokens (ls ++ ls') = bareTokens ls ++ bareTokens ls' := filterMap_append

theorem Reads.bare {s raw : Bytes} (h : Reads s raw tok) (off : ℕ) :
    (tok off).map Token.bare = (tok 0).map Token.bare := by
  cases h.shape <;> rfl

theorem bare_placed (h : Laid s ls) (off : ℕ) :
    ((placed off ls).filterMap Prod.fst).map Token.bare = bareTokens ls := by
  induction ls generalizing off with
  | nil => rfl
  | cons l ls ih =>
    rw [placed, bareTokens_cons, ← h.1.bare off, ← ih h.2 (off + l.raw.length)]
    cases l.tok off <;> rfl

theorem tokens_text (h : Laid [] ls) : tokens (text ls) = .ok (bareTokens ls) := by
  rw [tokens, lex_eq, lexemes_text h]
  change Except.ok (((placed 0 ls).filterMap Prod.fst ++ [_]).dropLast.map Token.bare) = _
  rw [dropLast_concat, bare_placed h]

theorem tokens_eq_ok {src : Bytes} {ts : List Token} (h : tokens src = .ok ts) :
    ∃ ls, Laid [] ls ∧ text ls = src ∧ bareTokens ls = ts := by
  rcases hl : lexemes src with e | cuts
  · rw [tokens, lex_eq, hl] at h
    cases h
  · obtain ⟨ls, hls, rfl, -⟩ := exists_laid hl
    exact ⟨ls, hls, rfl, Except.ok.inj ((tokens_text hls).symm.trans h)⟩

/-- Whatever a text ends with, a newline parts it from the next one: the two are read as they are
alone. -/
theorem tokens_newline {a b : Bytes} {ts us : List Token} (ha : tokens a = .ok ts)
    (hb : tokens b = .ok us) : tokens (a ++ byte '\n' :: b) = .ok (ts ++ us) := by
  obtain ⟨ls, hls, rfl, rfl⟩ := tokens_eq_ok ha
  obtain ⟨ms, hms, rfl, rfl⟩ := tokens_eq_ok hb
  have hnew : isBlank (byte '\n') = true := by decide
  have hread : Reads (text ms ++ []) [byte '\n'] fun _ => none :=
    ⟨fun off s' _ => @step_blank off (_ :: s') hnew, .blank hnew⟩
  have hlaid : Laid [] (ls ++ ⟨_, _⟩ :: ms) := laid_append.mpr ⟨hls.ends (.inr rfl), hread, hms⟩
  simpa using tokens_text hlaid

theorem tokens_newline_comment : tokens (ascii "a--b\nc") =
    .ok [⟨.ident, ascii "a", 0, [], 0⟩, ⟨.ident, ascii "c", 0, [], 0⟩] :=
  @tokens_newline (ascii "a--b") (ascii "c") _ _ rfl rfl

end Bare

end VecDb.VectorSql

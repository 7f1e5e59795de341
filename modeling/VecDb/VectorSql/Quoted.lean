import VecDb.Base.Fallible
import VecDb.VectorSql.Munch

/-! # Strings, quoted identifiers and comments

The bytes between the quotes of a string are read in parts: a doubled quote, an escape or
a plain byte. What is read is read again before anything that is no quote.
-/

namespace VecDb.VectorSql

open List Fallible Nat

variable {start off n : ℕ} {u v s rest text : Bytes} {c q : UInt8} {out : Bytes}

section Escapes

theorem mapM_hexVal {hex : Bytes} {ds : List ℕ} (h : hex.mapM hexVal = some ds) :
    ∀ c ∈ hex, c ≠ byte '\'' ∧ c ≠ byte '\\' := by
  induction hex generalizing ds with
  | nil => exact fun c hc => nomatch hc
  | cons c hex ih =>
    rw [mapM_cons] at h
    obtain ⟨d, hd, h⟩ := Option.bind_eq_some_iff.mp h
    obtain ⟨ds', hds, -⟩ := Option.bind_eq_some_iff.mp h
    refine forall_mem_cons.mpr ⟨⟨?_, ?_⟩, ih hds⟩ <;>
    · rintro rfl
      cases hd

/-- The input after a backslash starts with an escape, which is one whatever follows. -/
def EscapeAt (rest out : Bytes) (n : ℕ) : Prop :=
  ∃ e hex s, rest = e :: (hex ++ s) ∧ n = hex.length + 2 ∧ (∀ c ∈ hex, c ≠ byte '\'' ∧ c ≠ byte '\\') ∧
    ∀ off s, scanEscape off (byte '\\' :: e :: (hex ++ s)) = .ok (out, n)

theorem escapeAt_unicode {digits : ℕ} {e : UInt8}
    (hscan : ∀ off u, scanEscape off (byte '\\' :: e :: u) =
      scanUnicodeEscape off (byte '\\' :: e :: u) digits)
    (h : scanEscape off (byte '\\' :: e :: rest) = .ok (out, n)) : EscapeAt (e :: rest) out n := by
  have hdrop (s : Bytes) : (byte '\\' :: e :: s).drop 2 = s := rfl
  rw [hscan, scanUnicodeEscape, hdrop] at h
  split at h
  · cases h
  rename_i hlen
  have hhex : (rest.take digits).length = digits := by
    have := length_take_le digits rest
    omega
  have htake (s : Bytes) : (rest.take digits ++ s).take digits = rest.take digits := by
    rw [take_append_of_le_length hhex.ge, take_of_length_le hhex.le]
  rcases hds : (rest.take digits).mapM hexVal with _ | ds
  · rw [hds] at h
    cases h
  rw [hds] at h
  dsimp only at h
  split at h
  · rename_i hvalid
    cases h
    refine ⟨e, rest.take digits, rest.drop digits, by rw [take_append_drop], ?_, mapM_hexVal hds,
      fun off s => ?_⟩
    · rw [hhex, add_comm]
    · rw [hscan, scanUnicodeEscape, hdrop, htake]
      rw [if_neg hlen, hds]
      exact if_pos hvalid
  · cases h

theorem scanEscape_eq_ok (h : scanEscape off (byte '\\' :: rest) = .ok (out, n)) :
    EscapeAt rest out n := by
  rcases rest with _ | ⟨e, rest⟩
  · cases h
  have simple {b : UInt8} (hesc : ∀ off s, scanEscape off (byte '\\' :: e :: s) = .ok ([b], 2)) :
      EscapeAt (e :: rest) out n := by
    cases (hesc off rest).symm.trans h
    exact ⟨e, [], rest, rfl, rfl, by simp, fun off s => hesc off s⟩
  by_cases h1 : e = byte 'n'
  · subst h1
    exact simple fun _ _ => rfl
  by_cases h2 : e = byte 'r'
  · subst h2
    exact simple fun _ _ => rfl
  by_cases h3 : e = byte 't'
  · subst h3
    exact simple fun _ _ => rfl
  by_cases h4 : e = byte '\\'
  · subst h4
    exact simple fun _ _ => rfl
  by_cases h5 : e = byte '\''
  · subst h5
    exact simple fun _ _ => rfl
  by_cases h6 : e = byte 'u'
  · subst h6
    exact escapeAt_unicode (fun _ _ => rfl) h
  by_cases h7 : e = byte 'U'
  · subst h7
    exact escapeAt_unicode (fun _ _ => rfl) h
  · have hfail : scanEscape off (byte '\\' :: e :: rest) = fail off "invalid escape sequence" := by
      simp only [scanEscape, peekAt_cons_succ, peekAt_cons_zero, h1, h2, h3, h4, h5, h6, h7, if_false]
    rw [hfail] at h
    cases h

end Escapes

section Doubled

/-- The bytes after a quote up to the next one that is not doubled. -/
inductive Doubled (q : UInt8) : Bytes → Prop
  | close : Doubled q [q]
  | quote {u : Bytes} : Doubled q u → Doubled q (q :: q :: u)
  | plain {c : UInt8} {u : Bytes} : c ≠ q → Doubled q u → Doubled q (c :: u)

theorem Doubled.append (hu : ∀ c ∈ u, c ≠ q) (h : Doubled q v) : Doubled q (u ++ v) := by
  induction u with
  | nil => exact h
  | cons c u ih =>
    obtain ⟨hc, hu⟩ := forall_mem_cons.mp hu
    exact .plain hc (ih hu)

/-- There is a quote after a backslash, in the text of a string. -/
def escapedQuote : Bytes → Bool
  | c :: d :: u => if c = byte '\\' then d == byte '\'' || escapedQuote u else escapedQuote (d :: u)
  | _ => false

theorem escapedQuote_cons (hc : c ≠ byte '\\') : escapedQuote (c :: u) = escapedQuote u := by
  rcases u with _ | ⟨d, u⟩
  · rfl
  · rw [escapedQuote, if_neg hc]

theorem escapedQuote_append (hu : ∀ c ∈ u, c ≠ byte '\\') :
    escapedQuote (u ++ v) = escapedQuote v := by
  induction u with
  | nil => rfl
  | cons c u ih =>
    obtain ⟨hc, hu⟩ := forall_mem_cons.mp hu
    rw [cons_append, escapedQuote_cons hc, ih hu]

end Doubled

section Strings

variable {e : UInt8} {hex : Bytes}

theorem stringBody_skip {k : ℕ} (hk : k ≤ rest.length) : stringBody start k off rest =
    (stringBody start 0 (off + k) (rest.drop k)).map fun x => (x.1, x.2 + k) := by
  induction k generalizing off rest with
  | zero =>
    rcases h : stringBody start 0 off rest with _ | x <;>
      rw [drop_zero, add_zero, h] <;> rfl
  | succ k ih =>
    rcases rest with _ | ⟨c, rest⟩
    · exact absurd hk (not_succ_le_zero k)
    · rw [stringBody, ih (le_of_succ_le_succ hk), drop_succ_cons, add_right_comm off 1 k]
      rcases stringBody start 0 (off + k + 1) (rest.drop k) with _ | x <;> rfl

theorem stringBody_escape
    (h : ∀ off s, scanEscape off (byte '\\' :: e :: (hex ++ s)) = .ok (out, hex.length + 2)) :
    stringBody start 0 off (byte '\\' :: e :: (hex ++ s)) =
      (stringBody start 0 (off + (hex.length + 2)) s).map fun x =>
        (out ++ x.1, x.2 + (hex.length + 2)) := by
  rw [stringBody, if_neg (by decide), if_pos rfl, h]
  change (stringBody start (hex.length + 1) (off + 1) (e :: (hex ++ s))).map _ = _
  rw [stringBody_skip (by simp), drop_succ_cons, drop_left, add_assoc, add_comm 1]
  rcases stringBody start 0 (off + (hex.length + 1 + 1)) s with _ | x <;> rfl

theorem stringBody_quote : stringBody start 0 off (byte '\'' :: byte '\'' :: s) =
    (stringBody start 0 (off + 2) s).map fun x => (byte '\'' :: x.1, x.2 + 2) := by
  rw [stringBody, if_pos rfl, peekAt_cons_zero, if_pos rfl, stringBody]
  rcases stringBody start 0 (off + 1 + 1) s with _ | x <;> rfl

theorem stringBody_plain (hq : c ≠ byte '\'') (hb : c ≠ byte '\\') :
    stringBody start 0 off (c :: s) =
      (stringBody start 0 (off + 1) s).map fun x => (c :: x.1, x.2 + 1) := by
  rw [stringBody, if_neg hq, if_neg hb]

/-- The bytes of a string after its first quote. -/
structure StringParts (u text : Bytes) : Prop where
  body (start off : ℕ) {s : Bytes} : peekAt s 0 ≠ byte '\'' →
    stringBody start 0 off (u ++ s) = .ok (text, u.length)
  last : ∃ v, u = v ++ [byte '\'']
  doubled : escapedQuote u = false → Doubled (byte '\'') u

theorem StringParts.quote (h : StringParts u text) :
    StringParts (byte '\'' :: byte '\'' :: u) (byte '\'' :: text) where
  body start off s hs := by
    rw [cons_append, cons_append, stringBody_quote, h.body _ _ hs]
    rfl
  last := by
    obtain ⟨v, rfl⟩ := h.last
    exact ⟨byte '\'' :: byte '\'' :: v, rfl⟩
  doubled ht := by
    rw [escapedQuote_cons (by decide), escapedQuote_cons (by decide)] at ht
    exact .quote (h.doubled ht)

theorem StringParts.escape (h : StringParts u text)
    (hhex : ∀ c ∈ hex, c ≠ byte '\'' ∧ c ≠ byte '\\')
    (hesc : ∀ off s, scanEscape off (byte '\\' :: e :: (hex ++ s)) = .ok (out, hex.length + 2)) :
    StringParts (byte '\\' :: e :: (hex ++ u)) (out ++ text) where
  body start off s hs := by
    rw [cons_append, cons_append, append_assoc, stringBody_escape hesc, h.body _ _ hs]
    have hlen : u.length + (hex.length + 2) = (byte '\\' :: e :: (hex ++ u)).length := by
      rw [length_cons, length_cons, length_append]
      omega
    rw [← hlen]
    rfl
  last := by
    obtain ⟨v, rfl⟩ := h.last
    exact ⟨byte '\\' :: e :: (hex ++ v), by simp⟩
  doubled ht := by
    rw [escapedQuote, if_pos rfl, Bool.or_eq_false_iff, beq_eq_false_iff_ne,
      escapedQuote_append fun c hc => (hhex c hc).2] at ht
    exact .plain (by decide) (.plain ht.1 (.append (fun c hc => (hhex c hc).1) (h.doubled ht.2)))

theorem StringParts.plain (hq : c ≠ byte '\'') (hb : c ≠ byte '\\') (h : StringParts u text) :
    StringParts (c :: u) (c :: text) where
  body start off s hs := by
    rw [cons_append, stringBody_plain hq hb, h.body _ _ hs]
    rfl
  last := by
    obtain ⟨v, rfl⟩ := h.last
    exact ⟨c :: v, rfl⟩
  doubled ht := by
    rw [escapedQuote_cons hb] at ht
    exact .plain hq (h.doubled ht)

theorem stringBody_eq_ok (h : stringBody start 0 off rest = .ok (text, n)) :
    ∃ u s, rest = u ++ s ∧ n = u.length ∧ StringParts u text ∧ peekAt s 0 ≠ byte '\'' := by
  induction hm : rest.length using Nat.strong_induction_on generalizing off rest text n with
  | h m ih =>
    rcases rest with _ | ⟨c, rest⟩
    · cases h
    subst hm
    by_cases hq : c = byte '\''
    · subst hq
      by_cases hd : peekAt rest 0 = byte '\''
      · rcases rest with _ | ⟨d, rest⟩
        · cases hd
        rw [peekAt_cons_zero] at hd
        subst hd
        rw [stringBody_quote] at h
        obtain ⟨x, hx, h⟩ := map_eq_ok.mp h
        cases h
        obtain ⟨u, s, rfl, hn, hu, hs⟩ := ih _ (by simp only [length_cons]; omega) hx rfl
        exact ⟨_, s, rfl, by rw [hn]; rfl, hu.quote, hs⟩
      · rw [stringBody, if_pos rfl, if_neg hd] at h
        cases h
        refine ⟨[byte '\''], rest, rfl, rfl, ⟨fun _ _ s hs => ?_, ⟨[], rfl⟩, fun _ => .close⟩, hd⟩
        rw [singleton_append, stringBody, if_pos rfl, if_neg hs]
        rfl
    by_cases hb : c = byte '\\'
    · subst hb
      rcases hesc : scanEscape off (byte '\\' :: rest) with e | ⟨out, k⟩
      · rw [stringBody, if_neg hq, if_pos rfl, hesc] at h
        cases h
      · obtain ⟨e, hex, s', rfl, rfl, hhex, hall⟩ := scanEscape_eq_ok hesc
        rw [stringBody_escape hall] at h
        obtain ⟨x, hx, h⟩ := map_eq_ok.mp h
        cases h
        obtain ⟨u, s, rfl, hn, hparts, hs⟩ :=
          ih _ (by simp only [length_cons, length_append]; omega) hx rfl
        refine ⟨_, s, by simp, ?_, hparts.escape hhex hall, hs⟩
        rw [hn, length_cons, length_cons, length_append]
        omega
    · rw [stringBody_plain hq hb] at h
      obtain ⟨x, hx, h⟩ := map_eq_ok.mp h
      cases h
      obtain ⟨u, s, rfl, hn, hu, hs⟩ := ih _ (by simp) hx rfl
      exact ⟨c :: u, s, rfl, by rw [hn]; rfl, hu.plain hq hb, hs⟩

end Strings

section Identifiers

theorem quotedBody_quote : quotedBody start (byte '"' :: byte '"' :: s) =
    (quotedBody start s).map fun x => (byte '"' :: x.1, x.2 + 2) := by
  rw [quotedBody]
  exact if_pos rfl

theorem quotedBody_plain (hq : c ≠ byte '"') : quotedBody start (c :: s) =
    (quotedBody start s).map fun x => (c :: x.1, x.2 + 1) := by
  rw [quotedBody.eq_def]
  exact if_neg hq

theorem quotedBody_close (hs : peekAt s 0 ≠ byte '"') :
    quotedBody start (byte '"' :: s) = .ok ([], 1) := by
  rcases s with _ | ⟨d, s⟩
  · rfl
  · rw [quotedBody]
    exact if_neg hs

theorem quotedBody_eq_ok (h : quotedBody start rest = .ok (text, n)) :
    ∃ u s, rest = u ++ s ∧ n = u.length ∧ Doubled (byte '"') u ∧ peekAt s 0 ≠ byte '"' ∧
      ∀ start s, peekAt s 0 ≠ byte '"' → quotedBody start (u ++ s) = .ok (text, u.length) := by
  induction hm : rest.length using Nat.strong_induction_on generalizing rest text n with
  | h m ih =>
    rcases rest with _ | ⟨c, rest⟩
    · cases h
    subst hm
    by_cases hq : c = byte '"'
    · subst hq
      by_cases hd : peekAt rest 0 = byte '"'
      · rcases rest with _ | ⟨d, rest⟩
        · cases hd
        rw [peekAt_cons_zero] at hd
        subst hd
        rw [quotedBody_quote] at h
        obtain ⟨x, hx, h⟩ := map_eq_ok.mp h
        cases h
        obtain ⟨u, s, rfl, hn, hu, hs, hbody⟩ := ih _ (by simp only [length_cons]; omega) hx rfl
        refine ⟨_, s, rfl, by rw [hn]; rfl, .quote hu, hs, fun start s hs => ?_⟩
        rw [cons_append, cons_append, quotedBody_quote, hbody start s hs]
        rfl
      · rw [quotedBody_close hd] at h
        cases h
        exact ⟨[byte '"'], rest, rfl, rfl, .close, hd, fun _ _ hs => quotedBody_close hs⟩
    · rw [quotedBody_plain hq] at h
      obtain ⟨x, hx, h⟩ := map_eq_ok.mp h
      cases h
      obtain ⟨u, s, rfl, hn, hu, hs, hbody⟩ := ih _ (by simp) hx rfl
      refine ⟨c :: u, s, rfl, by rw [hn]; rfl, .plain hq hu, hs, fun start s hs => ?_⟩
      rw [cons_append, quotedBody_plain hq, hbody start s hs]
      rfl

theorem Doubled.last (h : Doubled q u) : ∃ v, u = v ++ [q] := by
  induction h with
  | close => exact ⟨[], rfl⟩
  | quote _ ih =>
    obtain ⟨v, rfl⟩ := ih
    exact ⟨q :: q :: v, rfl⟩
  | @plain c _ _ _ ih =>
    obtain ⟨v, rfl⟩ := ih
    exact ⟨c :: v, rfl⟩

end Identifiers

section Comments

theorem blockBody_eq_ok (h : blockBody start off rest = .ok n) :
    ∃ u s, rest = u ++ s ∧ n = u.length ∧ (∃ v, u = v ++ [byte '/']) ∧
      ∀ start off s, blockBody start off (u ++ s) = .ok u.length := by
  induction rest generalizing off n with
  | nil => cases h
  | cons c rest ih =>
    rw [blockBody] at h
    split at h
    · cases h
    rename_i hopen
    split at h
    · rename_i hclose
      cases h
      rcases rest with _ | ⟨d, rest⟩
      · exact absurd hclose.2 (by decide)
      · rw [peekAt_cons_zero] at hclose
        obtain ⟨rfl, rfl⟩ := hclose
        exact ⟨[byte '*', byte '/'], rest, rfl, rfl, ⟨[byte '*'], rfl⟩, fun _ _ _ => rfl⟩
    · rename_i hclose
      obtain ⟨m, hm, rfl⟩ := map_eq_ok.mp h
      obtain ⟨u, s, rfl, rfl, ⟨v, hlast⟩, hbody⟩ := ih hm
      refine ⟨c :: u, s, rfl, rfl, ⟨c :: v, by rw [hlast]; rfl⟩, fun start off s' => ?_⟩
      have hpeek : peekAt (u ++ s') 0 = peekAt (u ++ s) 0 := by
        rw [hlast]
        rcases v with _ | ⟨d, v⟩ <;> rfl
      rw [cons_append, blockBody, hpeek, if_neg hopen, if_neg hclose, hbody]
      rfl

end Comments

end VecDb.VectorSql

import VecDb.Bulk.Ending
import VecDb.Bulk.Import

/-! # Progress of imports

Each source has a measure that a row makes smaller. A failed row does so too, unless the source is
a JSON decoder that has met something malformed.
-/

namespace VecDb.Bulk

open JsonSource RowSource Loop

variable {ρ δ : Type} {out : Except DecodeErr (List (Bytes × Json))} {rt : Runtime} {dec : δ}

theorem length_readFull {n : ℕ} {input rest : Bytes} {r : Except ReadErr Bytes}
    (h : readFull n input = (r, rest)) : rest.length ≤ input.length := by
  rcases lt_or_ge input.length n with hlt | hle
  · obtain ⟨e, he⟩ := readFull_short hlt
    cases he.symm.trans h
    exact Nat.zero_le _
  · cases (readFull_full hle).symm.trans h
    exact (List.length_drop ..).trans_le (Nat.sub_le _ _)

namespace RowSource

def size (csv : CsvReader ρ) (d : JsonDecoder δ) : RowSource ρ δ → ℕ
  | .csv s => csv.remaining s.r
  | .json s => d.remaining s.dec
  | .fbin s => s.count.toUInt64.toNat - s.rowIdx.toNat
  | .xvecs s => s.input.length
  | .npy s _ => s.rows.toUInt64.toNat - s.rowIdx.toNat

end RowSource

theorem XvecsSource.next_lt {s : XvecsSource} (h : (s.next rt).1 ≠ .stop) :
    (s.next rt).2.input.length < s.input.length := by
  rw [ne_eq, XvecsSource.stop_iff, not_lt] at h
  have hlt : (s.input.drop 4).length < s.input.length := by
    rw [List.length_drop]
    omega
  rw [XvecsSource.next, readFull_full h]
  dsimp only
  split
  · exact hlt
  · split
    · exact hlt
    · split <;> exact (length_readFull ‹_›).trans_lt hlt

theorem CsvSource.next_lt {csv : CsvReader ρ} (hd : csv.Documented)
    {s : CsvSource ρ} (h : (s.next rt csv).1 ≠ .stop) :
    csv.remaining (s.next rt csv).2.r < csv.remaining s.r := by
  rw [CsvSource.next] at h ⊢
  split
  · rename_i hr
    simp [hr] at h
  · rename_i hr
    exact hd _ _ _ hr (by simp)
  · rename_i hr
    split <;> exact hd _ _ _ hr (by simp)

namespace JsonSource

variable (rt : Runtime) {d : JsonDecoder δ} {s : JsonSource δ} {obj : List (Bytes × Json)}

theorem rowOf_spec : (rowOf rt s obj).1 ≠ .stop ∧ (rowOf rt s obj).2.dec = s.dec ∧
    (rowOf rt s obj).2.array = s.array ∧ (rowOf rt s obj).2.started = s.started := by
  rw [rowOf]
  split
  · exact ⟨nofun, rfl, rfl, rfl⟩
  · split
    · exact ⟨nofun, rfl, rfl, rfl⟩
    · split <;> exact ⟨nofun, rfl, rfl, rfl⟩

theorem nextElement_flags : (nextElement rt d s).2.array = s.array ∧
    (nextElement rt d s).2.started = s.started := by
  rw [nextElement]
  split
  · exact ⟨rfl, rfl⟩
  · split
    · exact ⟨rfl, rfl⟩
    · exact ⟨rfl, rfl⟩
    · exact (rowOf_spec rt).2.2

theorem nextElement_of_decode
    (hm : s.array = true → d.more s.dec = true) (hd : d.decode s.dec = (out, dec)) :
    ((nextElement rt d s).1 = .stop ↔ out = .error .eof) ∧ (nextElement rt d s).2.dec = dec := by
  have hcond : (s.array && !d.more s.dec) = false := by
    cases ha : s.array
    · rfl
    · simp [hm ha]
  rw [nextElement, hcond, hd]
  cases out with
  | ok obj => exact ⟨iff_of_false (rowOf_spec rt).1 nofun, (rowOf_spec rt).2.1⟩
  | error e => cases e <;> simp

end JsonSource

namespace JsonDecoder

inductive Opens (d : JsonDecoder δ) : δ → δ → Prop
  | here {s s'} (h : d.token s = (.ok .openArray, s')) : Opens d s s'
  | later {s s₁ s'} (h : d.token s = (.ok .other, s₁)) (ho : Opens d s₁ s') : Opens d s s'

/-- Reading elements comes to the end of the array, if one is read, or of the input, and meets
nothing malformed but after the end of the array. -/
inductive Drains (d : JsonDecoder δ) (array : Bool) : δ → Prop
  | closed {s} (ha : array = true) (hm : d.more s = false) : Drains d array s
  | eof {s s'} (hm : array = true → d.more s = true) (h : d.decode s = (.error .eof, s')) :
    Drains d array s
  | element {s s' out} (hm : array = true → d.more s = true) (h : d.decode s = (out, s'))
    (hc : Consumed out) (hd : Drains d array s') : Drains d array s
  | malformed {s s' message} (hm : array = true → d.more s = true)
    (h : d.decode s = (.error (.malformed message), s')) (ha : array = true)
    (hc : d.more s' = false) : Drains d array s

end JsonDecoder

def JsonSource.Drains (d : JsonDecoder δ) (s : JsonSource δ) : Prop :=
  if s.array && !s.started then ∃ dec, d.Opens s.dec dec ∧ d.Drains true dec
  else d.Drains s.array s.dec

/-- A source that comes to its end whatever fails on the way. -/
def RowSource.Drains (d : JsonDecoder δ) : RowSource ρ δ → Prop
  | .json s => s.Drains d
  | _ => True

namespace JsonSource

variable (rt : Runtime) {d : JsonDecoder δ} {s : JsonSource δ}

theorem drains_started (h : (s.array && !s.started) = false) :
    s.Drains d ↔ d.Drains s.array s.dec := by
  rw [JsonSource.Drains, h]
  exact Iff.rfl

theorem nextElement_of_not_drains (hd : d.Documented) (hs : ¬ d.Drains s.array s.dec) :
    (nextElement rt d s).1 ≠ .stop ∧
      ¬ d.Drains (nextElement rt d s).2.array (nextElement rt d s).2.dec := by
  have hm : s.array = true → d.more s.dec = true := by
    intro ha
    by_contra hm
    exact hs (.closed ha (by simpa using hm))
  rcases h : d.decode s.dec with ⟨out, dec⟩
  obtain ⟨hstop, hdec⟩ := nextElement_of_decode rt hm h
  constructor
  · exact fun hs' => hs (.eof hm (hstop.mp hs' ▸ h))
  · rw [hdec, (nextElement_flags rt).1]
    intro hdr
    by_cases hc : JsonDecoder.Consumed out
    · exact hs (.element hm h hc hdr)
    · have hrep : d.decode dec = (out, dec) := hd.decode_repeats _ _ _ h hc
      cases out with
      | ok obj => exact hc trivial
      | error e =>
        cases e with
        | eof => exact hs (.eof hm h)
        | unmarshal message => exact hc trivial
        | malformed message =>
          cases hdr with
          | closed ha hm' => exact hs (.malformed hm h ha hm')
          | eof _ h' => cases hrep.symm.trans h'
          | element _ h' hc' _ =>
            cases hrep.symm.trans h'
            exact hc hc'
          | malformed _ h' ha hm' =>
            cases hrep.symm.trans h'
            exact hs (.malformed hm h ha hm')

theorem next_of_not_drains (hd : d.Documented) (hs : ¬ s.Drains d) :
    (s.next rt d).1 ≠ .stop ∧ ¬ (s.next rt d).2.Drains d := by
  have helement : ∀ t : JsonSource δ, (t.array && !t.started) = false →
      ¬ d.Drains t.array t.dec →
      (nextElement rt d t).1 ≠ .stop ∧ ¬ (nextElement rt d t).2.Drains d := by
    intro t ht hdr
    obtain ⟨hstop, hdr⟩ := nextElement_of_not_drains rt hd hdr
    refine ⟨hstop, ?_⟩
    rwa [drains_started]
    rwa [(nextElement_flags rt).1, (nextElement_flags rt).2]
  rw [JsonSource.next]
  cases hc : s.array && !s.started with
  | false => exact helement s hc (by rwa [drains_started hc] at hs)
  | true =>
    rw [JsonSource.Drains, hc] at hs
    simp only [if_true]
    rcases h : d.token s.dec with ⟨out, dec⟩
    cases out with
    | error e =>
      refine ⟨by simp, ?_⟩
      simp only [JsonSource.Drains, hc]
      rintro ⟨dec', ho, -⟩
      cases ho with
      | here h' | later h' _ => cases (hd.token_repeats _ _ _ h).symm.trans h'
    | ok t =>
      cases t with
      | other =>
        refine ⟨by simp, ?_⟩
        simp only [JsonSource.Drains, hc]
        rintro ⟨dec', ho, hdr⟩
        exact hs ⟨dec', .later h ho, hdr⟩
      | openArray =>
        have ha : s.array = true := by
          cases hs : s.array
          · simp [hs] at hc
          · rfl
        refine helement _ (by simp) ?_
        simp only [ha]
        exact fun hdr => hs ⟨dec, .here h, hdr⟩

theorem next_row_lt (hd : d.Documented) {r : Row} (h : (s.next rt d).1 = .row r) :
    d.remaining (s.next rt d).2.dec < d.remaining s.dec := by
  have helement : ∀ t : JsonSource δ, (nextElement rt d t).1 = .row r →
      d.remaining (nextElement rt d t).2.dec < d.remaining t.dec := by
    intro t h
    rw [nextElement] at h ⊢
    split at h
    · cases h
    · rename_i hc
      rw [if_neg hc]
      split at h
      · cases h
      · cases h
      · rename_i obj dec hdec
        rw [(rowOf_spec rt).2.1]
        exact hd.decode_consumes _ _ _ hdec trivial
  rw [JsonSource.next] at h ⊢
  split at h
  · rename_i hc
    rw [if_pos hc]
    split at h
    · cases h
    · cases h
    · rename_i dec ht
      exact (helement _ h).trans (hd.token_consumes _ _ _ ht)
  · rename_i hc
    rw [if_neg hc]
    exact helement s h

end JsonSource

namespace RowSource

variable (rt : Runtime) {csv : CsvReader ρ} {d : JsonDecoder δ} {src : RowSource ρ δ}

theorem next_lt_of_not_json (hc : csv.Documented) (hj : ∀ s, src ≠ .json s)
    (h : (src.next rt csv d).1 ≠ .stop) : (src.next rt csv d).2.size csv d < src.size csv d ∧
      ∀ s, (src.next rt csv d).2 ≠ .json s := by
  cases src with
  | csv s => exact ⟨CsvSource.next_lt hc h, by simp [RowSource.next]⟩
  | json s => exact absurd rfl (hj s)
  | fbin s =>
    exact ⟨Nat.lt_of_succ_le ((FbinSource.counts rt).next_row trivial rfl h).2.1.le,
      by simp [RowSource.next]⟩
  | xvecs s => exact ⟨XvecsSource.next_lt h, by simp [RowSource.next]⟩
  | npy s hs =>
    have hn := NpySource.next_eq_read (.inr (.inr hs))
    exact ⟨Nat.lt_of_succ_le (NpySource.counts.next_row hs hn h).2.1.le, by simp [RowSource.next]⟩

theorem next_row_lt (hc : csv.Documented) (hd : d.Documented) {r : Row}
    (h : (src.next rt csv d).1 = .row r) : (src.next rt csv d).2.size csv d < src.size csv d := by
  by_cases hj : ∃ s, src = .json s
  · obtain ⟨s, rfl⟩ := hj
    exact next_row_lt rt hd h
  · exact (next_lt_of_not_json rt hc (not_exists.mp hj) (h ▸ nofun)).1

end RowSource

namespace Importer

variable {im : Importer ρ δ} {env : Env} {st : State ρ δ} {dec dec' : δ} {array : Bool}
  {src : RowSource ρ δ} {s : JsonSource δ}

theorem ends_of_stop (h : (st.src.next im.rt im.csv im.dec).1 = .stop) : Ends (im.step env) st := by
  rcases hs : im.step env st with st' | r
  · exact absurd h (step_inl hs).2.1
  · exact .of_inr hs

theorem ends_of_next (h : ∀ st' : State ρ δ, st'.src = (st.src.next im.rt im.csv im.dec).2 →
      Ends (im.step env) st') : Ends (im.step env) st := by
  rcases hs : im.step env st with st' | r
  · exact .of_inl hs (h st' (step_inl hs).1)
  · exact .of_inr hs

theorem ends_of_abort (hc : im.csv.Documented) (hd : im.dec.Documented)
    (ha : im.opts.onError = .abort) : Ends (im.step env) st := by
  refine .of_measure (I := fun _ => True) (fun st => st.src.size im.csv im.dec) ?_ trivial
  intro st st' _ hs
  obtain ⟨hsrc, hstop, hfail, -⟩ := step_inl hs
  refine ⟨trivial, ?_⟩
  rw [hsrc]
  rcases hn : (st.src.next im.rt im.csv im.dec).1 with r | _ | e
  · exact next_row_lt _ hc hd hn
  · exact absurd hn hstop
  · exact absurd ha (hfail e hn)

theorem ends_of_not_json (hc : im.csv.Documented) (hj : ∀ s, st.src ≠ .json s) :
    Ends (im.step env) st := by
  refine .of_measure (I := fun st => ∀ s, st.src ≠ .json s)
    (fun st => st.src.size im.csv im.dec) ?_ hj
  intro st st' hj hs
  obtain ⟨hsrc, hstop, -, -⟩ := step_inl hs
  rw [hsrc]
  exact (next_lt_of_not_json _ hc hj hstop).symm

/-- The import is about to read an element with its decoder in the given state. -/
def AtElement (st : State ρ δ) (array : Bool) (dec : δ) : Prop :=
  ∃ s : JsonSource δ, st.src = .json s ∧ s.dec = dec ∧ s.array = array ∧
    (s.array && !s.started) = false

theorem next_json (hst : st.src = .json s) (hstart : (s.array && !s.started) = false) :
    st.src.next im.rt im.csv im.dec = (s.nextElement im.rt im.dec).map id .json := by
  rw [hst, RowSource.next, JsonSource.next, hstart]
  rfl

theorem AtElement.ends_of_closed (hs : AtElement st true dec)
    (hm : im.dec.more dec = false) : Ends (im.step env) st := by
  obtain ⟨s, hst, hdec, harr, hstart⟩ := hs
  refine ends_of_stop ?_
  rw [next_json hst hstart, JsonSource.nextElement, hdec, harr, hm]
  rfl

theorem AtElement.ends_of_eof (hs : AtElement st array dec)
    (hm : array = true → im.dec.more dec = true)
    (h : im.dec.decode dec = (.error .eof, dec')) : Ends (im.step env) st := by
  obtain ⟨s, hst, rfl, rfl, hstart⟩ := hs
  refine ends_of_stop ?_
  rw [next_json hst hstart]
  exact (nextElement_of_decode im.rt hm h).1.mpr rfl

theorem AtElement.ends_of_next (hs : AtElement st array dec)
    (hm : array = true → im.dec.more dec = true) (h : im.dec.decode dec = (out, dec'))
    (hnext : ∀ st' : State ρ δ, AtElement st' array dec' → Ends (im.step env) st') :
    Ends (im.step env) st := by
  obtain ⟨s, hst, rfl, rfl, hstart⟩ := hs
  refine Importer.ends_of_next fun st' hst' => hnext st' ?_
  obtain ⟨harr, hstarted⟩ := nextElement_flags im.rt (d := im.dec) (s := s)
  rw [next_json hst hstart] at hst'
  exact ⟨(s.nextElement im.rt im.dec).2, hst', (nextElement_of_decode im.rt hm h).2, harr,
    by rwa [harr, hstarted]⟩

theorem AtElement.ends (h : im.dec.Drains array dec)
    (hs : AtElement st array dec) : Loop.Ends (im.step env) st := by
  induction h generalizing st with
  | closed ha hm =>
    subst ha
    exact hs.ends_of_closed hm
  | eof hm h => exact hs.ends_of_eof hm h
  | element hm h _ _ ih => exact hs.ends_of_next hm h fun st' hs' => ih hs'
  | malformed hm h ha hc =>
    subst ha
    exact hs.ends_of_next hm h fun st' hs' => hs'.ends_of_closed hc

theorem step_congr (h : st.src.next im.rt im.csv im.dec = src.next im.rt im.csv im.dec) :
    im.step env st = im.step env { st with src } := by
  rw [step, step, h]

theorem ends_of_opens (ho : im.dec.Opens dec dec')
    (hdr : im.dec.Drains true dec') (hst : st.src = .json s) (hdec : s.dec = dec)
    (hstart : (s.array && !s.started) = true) : Ends (im.step env) st := by
  have ha : s.array = true := (Bool.and_eq_true_iff.mp hstart).1
  induction ho generalizing st s with
  | @here dec dec' h =>
    -- the first element is read in the same round as the bracket
    have hopen : st.src.next im.rt im.csv im.dec =
        (json { s with dec := dec', started := true }).next im.rt im.csv im.dec := by
      rw [hst, RowSource.next, RowSource.next, JsonSource.next, JsonSource.next, hstart, hdec, h]
      simp
    refine .congr (step_congr hopen) (AtElement.ends hdr ⟨_, rfl, rfl, ha, by simp⟩)
  | @later dec dec₁ dec' h _ ih =>
    refine ends_of_next fun st' hst' => ?_
    refine ih hdr (s := { s with dec := dec₁ }) ?_ rfl hstart ha
    rw [hst', hst, RowSource.next, JsonSource.next, hstart, hdec, h]
    rfl

theorem ends_of_drains (hc : im.csv.Documented) (h : st.src.Drains im.dec) :
    Ends (im.step env) st := by
  rcases hsrc : st.src with c | s | f | x | n
  case json =>
    rw [hsrc, RowSource.Drains, JsonSource.Drains] at h
    split at h
    · rename_i hstart
      obtain ⟨dec, ho, hd⟩ := h
      exact ends_of_opens ho hd hsrc rfl hstart
    · rename_i hstart
      exact AtElement.ends h ⟨s, hsrc, rfl, rfl, by simpa using hstart⟩
  all_goals exact ends_of_not_json hc (by simp [hsrc])

theorem not_ends_of_not_drains (hd : im.dec.Documented) (hs : im.opts.onError = .warnAndSkip)
    (h : ¬ st.src.Drains im.dec) : ¬ Ends (im.step Env.quiet) st := by
  refine not_ends (I := fun st => ¬ st.src.Drains im.dec) ?_ h
  intro st h
  rcases hsrc : st.src with c | s | f | x | n
  case json =>
    rw [hsrc] at h
    obtain ⟨hstop, hdr⟩ := next_of_not_drains im.rt hd h
    have hne : (st.src.next im.rt im.csv im.dec).1 ≠ .stop := by
      rw [hsrc]
      exact hstop
    obtain ⟨st', hstep⟩ := step_quiet hs hne
    refine ⟨st', hstep, ?_⟩
    rw [(step_inl hstep).1, hsrc]
    exact hdr
  all_goals
    rw [hsrc] at h
    exact absurd trivial h

theorem counted_of_run {n : ℕ} {stats : ImportStats} (h : im.run env src n = some (stats, none)) :
    stats.rowsRead = stats.rowsImported + stats.rowsErrored := by
  obtain ⟨st, hst, hlast⟩ := exists_last (I := State.Counted)
    (fun st st' hc hs => (step_inl hs).2.2.2 hc) (by rfl) h
  exact step_inr_none hst hlast

/-- An import ends, and when it succeeds every row it read is imported or failed: exactly if
failed rows abort it, or the source gets to its end. -/
theorem run_ends_iff (im : Importer ρ δ) (hc : im.csv.Documented) (hd : im.dec.Documented)
    (src : RowSource ρ δ) :
    (∀ env, ∃ n stats err, im.run env src n = some (stats, err) ∧
        (err = none → stats.rowsRead = stats.rowsImported + stats.rowsErrored)) ↔
      im.opts.onError = .abort ∨ src.Drains im.dec := by
  constructor
  · intro h
    by_contra hn
    rw [not_or] at hn
    have hskip : im.opts.onError = .warnAndSkip := by
      cases ho : im.opts.onError
      · rfl
      · exact absurd ho hn.1
    obtain ⟨n, stats, err, hrun, -⟩ := h Env.quiet
    exact absurd ⟨n, _, hrun⟩ (not_ends_of_not_drains hd hskip hn.2)
  · intro h env
    have hends : Loop.Ends (im.step env) { src } := by
      rcases h with ha | hdr
      · exact ends_of_abort hc hd ha
      · exact ends_of_drains hc hdr
    obtain ⟨n, ⟨stats, err⟩, hrun⟩ := hends
    refine ⟨n, stats, err, hrun, ?_⟩
    rintro rfl
    exact counted_of_run hrun

end Importer

/-- A decoder of a list of objects, which ends with something malformed or at the end. -/
def listDecoder (broken : Bool) : JsonDecoder (List (List (Bytes × Json))) where
  token s := (.error .eof, s)
  more s := !s.isEmpty
  decode
    | [] => (.error (if broken then .malformed (ascii "unexpected EOF") else .eof), [])
    | obj :: rest => (.ok obj, rest)
  remaining := List.length

theorem listDecoder_documented (broken : Bool) : (listDecoder broken).Documented where
  token_consumes s s' t h := by cases h
  decode_consumes s s' out h hc := by
    cases s with
    | nil =>
      cases h
      cases broken <;> exact hc.elim
    | cons obj rest =>
      cases h
      exact Nat.lt_succ_self _
  token_repeats s s' e h := by
    cases h
    rfl
  decode_repeats s s' out h hc := by
    cases s with
    | nil =>
      cases h
      rfl
    | cons obj rest =>
      cases h
      exact absurd trivial hc

def linesImporter (broken : Bool) : Importer Unit (List (List (Bytes × Json))) where
  rt := { shortest64 := fun _ => ⟨0, []⟩, shortest32 := fun _ => ⟨0, []⟩, parseFloat := fun _ => none,
          widen := fun _ => ⟨0⟩, parseFloat32 := fun _ => none, general64 := fun _ => [],
          general32 := fun _ => [], singleOfInt32 := fun _ => ⟨0⟩, jsonDouble := fun _ => none,
          narrow := fun _ => ⟨0⟩, jsonText := fun _ => [], mapOrder := id }
  csv := { read := fun r => (.error none, r), remaining := fun _ => 0 }
  dec := listDecoder broken
  mapRow _ := .error (ascii "vector length 0 does not match dimension 2")
  opts := {}

def lines (objs : List (List (Bytes × Json))) : RowSource Unit (List (List (Bytes × Json))) :=
  .json { dec := objs, vecField := [], array := false }

theorem linesImporter_documented (broken : Bool) : (linesImporter broken).csv.Documented := by
  intro r r' out h hout
  cases h
  exact absurd rfl hout

theorem run_ends_two_objects :
    ∃ n stats err, (linesImporter false).run Env.quiet (lines [[], []]) n = some (stats, err) ∧
      (err = none → stats.rowsRead = stats.rowsImported + stats.rowsErrored) := by
  have hm : ∀ s, false = true → (listDecoder false).more s = true :=
    fun _ h => absurd h Bool.false_ne_true
  refine (Importer.run_ends_iff (linesImporter false) (linesImporter_documented false)
    (listDecoder_documented false) (lines [[], []])).mpr (.inr ?_) Env.quiet
  exact .element (hm _) rfl trivial (.element (hm _) rfl trivial (.eof (hm _) rfl))

theorem truncated_object_never_ends :
    (linesImporter true).csv.Documented ∧ (linesImporter true).dec.Documented ∧
      ¬ ∃ n result, (linesImporter true).run Env.quiet (lines [[]]) n = some result := by
  refine ⟨linesImporter_documented true, listDecoder_documented true, ?_⟩
  refine Importer.not_ends_of_not_drains (listDecoder_documented true) rfl ?_
  have hend : ¬ (listDecoder true).Drains false [] := by
    intro h
    cases h with
    | closed ha _ => cases ha
    | eof _ h => cases h
    | element _ h hc _ =>
      cases h
      exact hc
    | malformed _ _ ha _ => cases ha
  intro h
  cases h with
  | closed ha _ => cases ha
  | eof _ h => cases h
  | element _ h _ hd =>
    cases h
    exact hend hd
  | malformed _ _ ha _ => cases ha

end VecDb.Bulk

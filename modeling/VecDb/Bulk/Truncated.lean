import VecDb.Bulk.Progress

/-! # Truncated files

An import without an error and without a rejected row has read nothing but rows up to the end that
its source signals. What a source does at the end of a truncated input therefore decides whether
the import of it is reported.
-/

namespace VecDb.Bulk

open List Loop

variable {ρ δ S : Type}

/-- Complete rows, each with its dimension in front, which all rows share. -/
inductive XvecsRows (width : ℕ) : ℕ → Bytes → Prop
  | nil {dim : ℕ} : XvecsRows width dim []
  | cons {dim : ℕ} {d body rest : Bytes} (hd : d.length = 4) (hpos : Bytes.getLE d ≠ 0)
    (hdim : dim = 0 ∨ Bytes.getLE d = dim) (hbody : body.length = Bytes.getLE d * width)
    (h : XvecsRows width (Bytes.getLE d) rest) : XvecsRows width dim (d ++ (body ++ rest))

theorem readFull_append {n : ℕ} {l : Bytes} (h : l.length = n) (r : Bytes) :
    readFull n (l ++ r) = (.ok l, r) := by
  subst h
  rw [readFull_full (by rw [length_append]; omega), take_left, drop_left]

namespace XvecsSource

variable {rt : Runtime} {s t : XvecsSource} {d body rest : Bytes}

theorem next_append (hs : s.input = d ++ (body ++ rest)) (hd : d.length = 4)
    (hpos : Bytes.getLE d ≠ 0) (hdim : s.dim = 0 ∨ Bytes.getLE d = s.dim)
    (hbody : body.length = Bytes.getLE d * s.elemWidth) : ∃ r, s.next rt =
      (.row r, { s with input := rest, dim := Bytes.getLE d, rowIdx := s.rowIdx + 1 }) := by
  have hread : readFull 4 s.input = (.ok d, body ++ rest) := hs ▸ readFull_append hd _
  have hsame : ¬ (s.dim ≠ 0 ∧ Bytes.getLE d ≠ s.dim) := by tauto
  have hrow : readFull (Bytes.getLE d *
      elemWidth { s with input := body ++ rest, dim := Bytes.getLE d }) (body ++ rest) =
        (.ok body, rest) := readFull_append hbody _
  rw [next, hread]
  dsimp only
  rw [if_neg hpos, if_neg hsame, hrow]
  exact ⟨_, rfl⟩

theorem exists_of_next_row {r : Row} (h : s.next rt = (.row r, t)) : ∃ d body,
    s.input = d ++ (body ++ t.input) ∧ d.length = 4 ∧ Bytes.getLE d ≠ 0 ∧
      (s.dim = 0 ∨ Bytes.getLE d = s.dim) ∧ body.length = Bytes.getLE d * s.elemWidth ∧
      t.dim = Bytes.getLE d ∧ t.elemWidth = s.elemWidth := by
  have hlong : 4 ≤ s.input.length :=
    not_lt.mp fun hlt => nomatch h ▸ (stop_iff rt s).mpr hlt
  rw [next, readFull_full hlong] at h
  dsimp only at h
  split_ifs at h with hpos hdim
  · cases h
  · cases h
  · split at h
    · cases h
    · rename_i scratch rest hread
      rcases lt_or_ge (s.input.drop 4).length (Bytes.getLE (s.input.take 4) * s.elemWidth)
        with hlt | hle
      · obtain ⟨e, he⟩ := readFull_short hlt
        cases he.symm.trans hread
      · cases (readFull_full hle).symm.trans hread
        cases h
        refine ⟨s.input.take 4, _, ?_, by simpa using hlong, hpos, ?_, length_take_of_le hle, rfl, rfl⟩
        · rw [take_append_drop, take_append_drop]
        · tauto

/-- The rows that a source gives are those at the front of its input. -/
theorem gives_iff {tail : Bytes} : (∃ t, Gives (fun s => some (next rt s)) s t ∧ t.input = tail) ↔
    ∃ front, s.input = front ++ tail ∧ XvecsRows s.elemWidth s.dim front := by
  constructor
  · rintro ⟨t, ht, rfl⟩
    induction ht using Relation.ReflTransGen.head_induction_on with
    | refl => exact ⟨[], rfl, .nil⟩
    | head h _ ih =>
      obtain ⟨r, hr⟩ := h
      obtain ⟨d, body, hin, hd, hpos, hdim, hbody, hdim', hwidth⟩ :=
        exists_of_next_row (Option.some.inj hr)
      obtain ⟨front, hfront, hrows⟩ := ih
      rw [hwidth, hdim'] at hrows
      refine ⟨d ++ (body ++ front), ?_, .cons hd hpos hdim hbody hrows⟩
      rw [hin, hfront]
      simp only [append_assoc]
  · rintro ⟨front, hin, hrows⟩
    generalize hw : s.elemWidth = w at hrows
    generalize hdim : s.dim = dim at hrows
    induction hrows generalizing s with
    | nil => exact ⟨s, .refl, hin⟩
    | @cons dim d body rest hd hpos hsame hbody _ ih =>
      subst hw hdim
      obtain ⟨r, hr⟩ := @next_append rt s d body (rest ++ tail) (by simpa using hin) hd hpos hsame hbody
      obtain ⟨t, ht, htail⟩ := @ih
        { s with input := rest ++ tail, dim := Bytes.getLE d, rowIdx := s.rowIdx + 1 } rfl rfl rfl
      exact ⟨t, .head ⟨r, congrArg some hr⟩ ht, htail⟩

theorem stops_iff : Stops (fun s => some (next rt s)) s ↔ s.input.length < 4 := by
  rw [← stop_iff rt]
  constructor
  · rintro ⟨t, ht⟩
    rw [Option.some.inj ht]
  · exact fun h => ⟨_, congrArg some (Prod.ext h rfl)⟩

/-- There are complete rows and then a part of a dimension. -/
def Cut (s : XvecsSource) : Prop :=
  ∃ front tail, s.input = front ++ tail ∧ XvecsRows s.elemWidth s.dim front ∧
    0 < tail.length ∧ tail.length < 4

theorem endsOnly_iff :
    EndsOnly (fun s => some (next rt s)) (fun t => t.input = []) s ↔ ¬ s.Cut := by
  constructor
  · rintro h ⟨front, tail, hin, hrows, hpos, hlt⟩
    obtain ⟨t, ht, rfl⟩ := (@gives_iff rt s tail).mpr ⟨front, hin, hrows⟩
    exact absurd (h t ht (stops_iff.mpr hlt)) (ne_nil_of_length_pos hpos)
  · intro h t ht hstop
    by_contra hne
    obtain ⟨front, hin, hrows⟩ := (@gives_iff rt s t.input).mp ⟨t, ht, rfl⟩
    exact h ⟨front, t.input, hin, hrows, length_pos_iff.mpr hne, stops_iff.mp hstop⟩

end XvecsSource

namespace Importer

variable {im : Importer ρ δ} {env : Env} {st st' : State ρ δ} {stats : ImportStats} {n : ℕ}
  {src : RowSource ρ δ} {next : S → Option (Outcome × S)} {R : S → RowSource ρ δ → Prop} {s t : S}

theorem errors_countError (stats : ImportStats) (err : RowErr) :
    (im.countError stats err).errors ≠ [] := by
  have hpos : 0 < im.opts.errorLimit := by
    rw [ImportOptions.errorLimit]
    split
    · assumption
    · decide
  rw [countError, recordError]
  split
  · simp
  · rename_i hfull
    intro (h : stats.errors = [])
    exact hfull (by simpa [h] using hpos)

/-- A round that leaves no error behind has found none and was given a row. -/
theorem row_of_step (h : im.step env st = .inl st') (he : st'.stats.errors = []) :
    st.stats.errors = [] ∧ ∃ r, st.src.next im.rt im.csv im.dec = (.row r, st'.src) := by
  obtain ⟨hsrc, -⟩ := step_inl h
  rw [hsrc]
  rw [step] at h
  split at h
  · cases h
  · split at h
    · split at h <;> cases h
    · split at h <;> cases h
      exact absurd he (errors_countError _ _)
    · rename_i row src hn
      refine ⟨?_, row, by rw [hn]⟩
      split at h
      · split at h <;> cases h
        exact absurd he (errors_countError _ _)
      · exact (addPoint_inl h).2.1.symm.trans he

theorem stop_of_step (h : im.step env st = .inr (stats, none)) :
    stats.errors = st.stats.errors ∧ (st.src.next im.rt im.csv im.dec).1 = .stop := by
  rw [step] at h
  split at h
  · cases h
  · split at h
    · rename_i hn
      rw [hn]
      split at h
      · cases h
      · rename_i hf
        cases h
        exact ⟨(flush_eq_ok hf).2.2.1, rfl⟩
    · split at h <;> cases h
    · split at h
      · split at h <;> cases h
      · exact absurd h addPoint_inr_none

/-- The source of the import does what `next` does. -/
def Follows (im : Importer ρ δ) (next : S → Option (Outcome × S)) (R : S → RowSource ρ δ → Prop) :
    Prop :=
  ∀ s src, R s src → ∃ o t src', next s = some (o, t) ∧
    src.next im.rt im.csv im.dec = (o, src') ∧ R t src'

/-- An import without an error and a rejected row was given rows up to the end. -/
theorem gives_of_run (hf : im.Follows next R) (hs : R s src)
    (h : im.run env src n = some (stats, none)) (he : stats.errors = []) :
    ∃ t, Gives next s t ∧ Stops next t := by
  obtain ⟨st, hst, hlast⟩ := exists_last
    (I := fun st : State ρ δ => st.stats.errors = [] → ∃ t, R t st.src ∧ Gives next s t)
    (fun st st' ih hstep he => by
      obtain ⟨he, r, hr⟩ := row_of_step hstep he
      obtain ⟨t, ht, hgives⟩ := ih he
      obtain ⟨o, u, src', hu, hsrc, hR⟩ := hf t st.src ht
      cases hsrc.symm.trans hr
      exact ⟨u, hR, hgives.tail ⟨r, hu⟩⟩)
    (fun _ => ⟨s, hs, .refl⟩) h
  obtain ⟨herr, hstop⟩ := stop_of_step hlast
  obtain ⟨t, ht, hgives⟩ := hst (herr ▸ he)
  obtain ⟨o, u, src', hu, hsrc, -⟩ := hf t st.src ht
  rw [hsrc] at hstop
  cases hstop
  exact ⟨t, hgives, u, hu⟩

/-- An import that maps every row and meets nothing from outside succeeds at the end. -/
theorem run_of_gives (im : Importer ρ δ) (st : State ρ δ) (hskip : im.opts.onError = .warnAndSkip)
    (hmap : ∀ r, ∃ p, im.mapRow r = .ok p) (hf : im.Follows next R)
    (hs : R s st.src) (he : st.stats.errors = []) (hg : Gives next s t) (hstop : Stops next t) :
    ∃ n stats, rounds (im.step Env.quiet) n st = some (stats, none) ∧ stats.errors = [] := by
  induction hg using Relation.ReflTransGen.head_induction_on generalizing st with
  | refl =>
    obtain ⟨u, hu⟩ := hstop
    obtain ⟨o, u', src', hu', hsrc, -⟩ := hf t st.src hs
    cases hu.symm.trans hu'
    obtain ⟨st', hflush⟩ := @flush_quiet ρ δ { st with src := src' }
    refine ⟨1, st'.stats, rounds_inr ?_ 0, (flush_eq_ok hflush).2.2.1.trans he⟩
    rw [step, hsrc]
    dsimp only [Env.quiet] at hflush ⊢
    rw [hflush]
  | @head s u hrow _ ih =>
    obtain ⟨r, hr⟩ := hrow
    obtain ⟨o, u', src', hu', hsrc, hR⟩ := hf s st.src hs
    cases hr.symm.trans hu'
    obtain ⟨p, hp⟩ := hmap r
    obtain ⟨st', hstep⟩ := step_quiet hskip (show (st.src.next _ _ _).1 ≠ .stop by simp [hsrc])
    have hsrc' : st'.src = src' := (step_inl hstep).1.trans (congrArg Prod.snd hsrc)
    have he' : st'.stats.errors = [] := by
      have hadd := hstep
      rw [step, hsrc] at hadd
      dsimp only [Env.quiet] at hadd
      rw [hp] at hadd
      exact (addPoint_inl hadd).2.1.trans he
    obtain ⟨n, stats, hn, hstats⟩ := ih st' (hsrc' ▸ hR) he'
    exact ⟨n + 1, stats, (rounds_inl hstep n).trans hn, hstats⟩

end Importer

/-- An import that takes every row. -/
def Importer.accepting (rt : Runtime) : Importer ρ δ where
  rt := rt
  csv := { read := fun r => (.error none, r), remaining := fun _ => 0 }
  dec := { token := fun s => (.error .eof, s), more := fun _ => false,
           decode := fun s => (.error .eof, s), remaining := fun _ => 0 }
  mapRow _ := .ok {}
  opts := {}

/-- The file is whole whenever an import of it ends without an error and without a rejected row. -/
def Reported (rt : Runtime) (src : RowSource ρ δ) (whole : Prop) : Prop :=
  ∀ (im : Importer ρ δ) env n stats, im.rt = rt → im.run env src n = some (stats, none) →
    stats.errors = [] → whole

theorem reported_iff {rt : Runtime} {src : RowSource ρ δ} {whole : Prop}
    {next : S → Option (Outcome × S)} {R : S → RowSource ρ δ → Prop} {s : S}
    (hf : ∀ im : Importer ρ δ, im.rt = rt → im.Follows next R) (hs : R s src) :
    Reported rt src whole ↔ ∀ t, Gives next s t → Stops next t → whole := by
  constructor
  · intro h t ht hstop
    obtain ⟨n, stats, hn, he⟩ := Importer.run_of_gives (.accepting rt) { src } rfl
      (fun _ => ⟨{}, rfl⟩) (hf _ rfl) hs rfl ht hstop
    exact h _ _ n stats rfl hn he
  · intro h im env n stats hrt hn he
    obtain ⟨t, ht, hstop⟩ := Importer.gives_of_run (hf im hrt) hs hn he
    exact h t ht hstop

/-- What the input of an array must have: the rows still to be read, or one if its vector cannot be
made. -/
def NpySource.Complete (s : NpySource) : Prop :=
  if s.Sized then (s.rows.toUInt64.toNat - s.rowIdx.toNat) * s.width ≤ s.input.length
  else s.rows.toUInt64 ≤ s.rowIdx ∨ s.width ≤ s.input.length

theorem NpySource.endsOnly_iff {s : NpySource} :
    EndsOnly NpySource.next (fun t => t.rows.toUInt64 ≤ t.rowIdx) s ↔ s.Complete := by
  rw [Complete]
  split
  · rename_i hs
    exact counts.endsOnly_iff hs
  · rename_i hs
    constructor
    · intro h
      by_contra hn
      rw [not_or, not_le] at hn
      exact hn.1 (h s .refl (counts.stop s (.inr hn.2)))
    · intro h t ht hstop
      have hnone (hle : ¬ s.rows.toUInt64 ≤ s.rowIdx) : s.next = none :=
        if_pos ⟨UInt64.not_le.mp hle, h.resolve_left hle, hs⟩
      -- the first call stops or panics, so no row is given
      rcases ht.cases_head with rfl | ⟨u, ⟨r, hr⟩, -⟩
      · by_contra hle
        obtain ⟨u, hu⟩ := hstop
        cases (hnone hle).symm.trans hu
      · by_cases hle : s.rows.toUInt64 ≤ s.rowIdx
        · obtain ⟨v, hv⟩ := counts.stop s (.inl hle)
          cases hr.symm.trans hv
        · cases (hnone hle).symm.trans hr

theorem Counts.reported_iff {next : S → Option (Outcome × S)} {I : S → Prop}
    {bound rowIdx : S → UInt64} {input : S → Bytes} {width : S → ℕ} {s : S}
    (h : Counts next I bound rowIdx input width) (hs : I s) :
    (∀ t, Gives next s t → Stops next t →
      ((bound s).toNat - (rowIdx s).toNat) * width s ≤ (input s).length) ↔
        ((bound s).toNat - (rowIdx s).toNat) * width s ≤ (input s).length := by
  refine ⟨fun hall => ?_, fun hw _ _ _ => hw⟩
  by_contra hn
  exact hn ((h.endsOnly_iff hs).mp fun t ht hstop => absurd (hall t ht hstop) hn)

theorem XvecsSource.reported_iff {rt : Runtime} {s : XvecsSource} :
    (∀ t, Gives (fun s => some (next rt s)) s t → Stops (fun s => some (next rt s)) t →
      XvecsRows s.elemWidth s.dim s.input) ↔ ¬ s.Cut := by
  constructor
  · rintro h ⟨front, tail, hin, hrows, hpos, hlt⟩
    obtain ⟨t, ht, rfl⟩ := (@gives_iff rt s tail).mpr ⟨front, hin, hrows⟩
    have hstop : Stops (fun s => some (next rt s)) t := stops_iff.mpr hlt
    obtain ⟨u, hu, hnil⟩ := (@gives_iff rt s []).mpr ⟨s.input, (append_nil _).symm, h t ht hstop⟩
    have htu : t = u := ht.stop_unique hu hstop (stops_iff.mpr (by rw [hnil]; decide))
    rw [htu, hnil] at hpos
    exact Nat.lt_irrefl 0 hpos
  · intro h t ht hstop
    obtain ⟨front, hin, hrows⟩ := (@gives_iff rt s t.input).mp ⟨t, ht, rfl⟩
    have hnil := endsOnly_iff.mpr h t ht hstop
    rw [hnil, append_nil] at hin
    rwa [hin]

/-- A source of counted rows ends, and an import of it succeeds, with fewer rows than declared just
if they are not all there; one with dimensions just if its input ends inside of a dimension. -/
theorem sources_end_iff (rt : Runtime) :
    (∀ s : FbinSource,
      let whole := (s.count.toUInt64.toNat - s.rowIdx.toNat) * (4 * s.dim) ≤ s.input.length
      (EndsOnly (fun s => some (FbinSource.next rt s)) (fun t => t.count.toUInt64 ≤ t.rowIdx) s ↔
          whole) ∧
        (Reported rt (.fbin s : RowSource ρ δ) whole ↔ whole)) ∧
    (∀ s : NpySource,
      (EndsOnly NpySource.next (fun t => t.rows.toUInt64 ≤ t.rowIdx) s ↔ s.Complete) ∧
        ∀ hs : s.Sized, Reported rt (.npy s hs : RowSource ρ δ) s.Complete ↔ s.Complete) ∧
    ∀ s : XvecsSource,
      (EndsOnly (fun s => some (XvecsSource.next rt s)) (fun t => t.input = []) s ↔ ¬ s.Cut) ∧
        (Reported rt (.xvecs s : RowSource ρ δ) (XvecsRows s.elemWidth s.dim s.input) ↔ ¬ s.Cut) := by
  refine ⟨fun s => ⟨(FbinSource.counts rt).endsOnly_iff trivial, ?_⟩,
    fun s => ⟨NpySource.endsOnly_iff, fun hs => ?_⟩, fun s => ⟨XvecsSource.endsOnly_iff, ?_⟩⟩
  · rw [reported_iff (R := fun s src => src = .fbin s) ?_ rfl]
    · exact (FbinSource.counts rt).reported_iff trivial
    · rintro im rfl s _ rfl
      exact ⟨_, _, _, rfl, rfl, rfl⟩
  · rw [reported_iff (R := fun s src => ∃ h, src = .npy s h) ?_ ⟨hs, rfl⟩]
    · rw [NpySource.Complete, if_pos hs]
      exact NpySource.counts.reported_iff hs
    · rintro im rfl s _ ⟨h, rfl⟩
      exact ⟨_, _, _, NpySource.next_eq_read (.inr (.inr h)), rfl, h.read, rfl⟩
  · rw [reported_iff (R := fun s src => src = .xvecs s) ?_ rfl]
    · exact @XvecsSource.reported_iff rt s
    · rintro im rfl s _ rfl
      exact ⟨_, _, _, rfl, rfl, rfl⟩

/-- Of the two rows that the header declares, one is there, and the import succeeds with it. -/
theorem truncated_npy_ends :
    let s : NpySource := { input := [0, 0, 0, 0], dim := 1, rows := 2 }
    let im : Importer Unit Unit := .accepting (linesImporter false).rt
    (∃ r t u, s.next = some (.row r, t) ∧ t.next = some (.stop, u) ∧ t.rowIdx = 1) ∧
      ∃ hs stats, im.run Env.quiet (.npy s hs) 2 = some (stats, none) ∧ stats.rowsRead = 1 ∧
        stats.errors = [] :=
  ⟨⟨_, _, _, rfl, rfl, rfl⟩, by decide, _, rfl, rfl, rfl⟩

end VecDb.Bulk

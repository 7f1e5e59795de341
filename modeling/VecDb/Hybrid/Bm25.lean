import Mathlib.Algebra.BigOperators.Group.List.Basic
import Mathlib.Algebra.Field.Rat
import VecDb.Hybrid.Sparse

/-! # The BM25 index

Removing a document lowers neither the frequencies of its terms nor, when it comes back, its
tombstone. The field of scores, the logarithm, rounding and the tokenizer are parameters.
-/

namespace VecDb.Hybrid

open Documents List

structure Posting where
  pos : UInt32
  tf : ℕ
  deriving DecidableEq

/-- A term's record; the empty one stands for a term that the dictionary does not have. -/
structure TermEntry where
  postings : List Posting := []
  df : ℕ := 0

/-- What an index is made with, and the arithmetic of the platform. -/
structure BM25Config (Text Term R : Type*) where
  tokenize : Text → List Term
  k1 : R
  b : R
  fieldWts : List R := []
  log : R → R
  round : R → ℤ

structure BM25Index (Term : Type*) where
  dict : Term → TermEntry := fun _ => {}
  docLen : AList fun _ : UInt32 => ℕ := ∅
  deleted : Finset UInt32 := ∅
  totalLen : ℤ := 0
  docCount : ℤ := 0

variable {Text Term R : Type*} [DecidableEq Term] [Field R]

namespace BM25Config

variable (cfg : BM25Config Text Term R)

def weightedTF (fields : List Text) : List (Term × R) :=
  Ranking.addAll (fields.zipIdx.flatMap fun f =>
    (cfg.tokenize f.1).map fun term => (term, cfg.fieldWts[f.2]?.getD 1))

/-- How often each term of a document counts. -/
def frequencies (fields : List Text) : List (Term × ℕ) :=
  (cfg.weightedTF fields).map fun e => (e.1, (max 1 (min (cfg.round e.2) 65535)).toNat)

def length (fields : List Text) : ℕ := ((cfg.frequencies fields).map Prod.snd).sum

end BM25Config

namespace BM25Index

variable (cfg : BM25Config Text Term R)

omit [DecidableEq Term] in
def removeLocked (idx : BM25Index Term) (pos : UInt32) : BM25Index Term :=
  match idx.docLen.lookup pos with
  | none => idx
  | some dl =>
    { idx with
      deleted := insert pos idx.deleted
      totalLen := idx.totalLen - dl
      docCount := idx.docCount - 1
      docLen := idx.docLen.erase pos }

def addDocFields (idx : BM25Index Term) (pos : UInt32) (fields : List Text) : BM25Index Term :=
  let idx := idx.removeLocked pos
  let tfs := cfg.frequencies fields
  if tfs = [] then
    { idx with docLen := idx.docLen.insert pos 0, docCount := idx.docCount + 1 }
  else
    { idx with
      dict := fun term => match tfs.lookup term with
        | none => idx.dict term
        | some tf => ⟨(idx.dict term).postings ++ [⟨pos, tf⟩], (idx.dict term).df + 1⟩
      docLen := idx.docLen.insert pos (cfg.length fields)
      totalLen := idx.totalLen + cfg.length fields
      docCount := idx.docCount + 1 }

def avgDocLen (idx : BM25Index Term) : R :=
  if idx.docCount = 0 then 1 else idx.totalLen / idx.docCount

def idf (n df : R) : R := cfg.log ((n - df + 1 / 2) / (df + 1 / 2) + 1)

/-- What a posting adds to the score of its document. -/
def score (idx : BM25Index Term) (term : Term) (p : Posting) : UInt32 × R :=
  let dl : R := ((idx.docLen.lookup p.pos).getD 0 : ℕ)
  let norm := p.tf * (cfg.k1 + 1) /
    (p.tf + cfg.k1 * (1 - cfg.b + cfg.b * dl / idx.avgDocLen))
  (p.pos, idf cfg idx.docCount (idx.dict term).df * norm)

def hits (idx : BM25Index Term) (query : Text) (filter : UInt32 → Bool) : List (UInt32 × R) :=
  (cfg.tokenize query).eraseDups.flatMap fun term =>
    ((idx.dict term).postings.filter fun p => p.pos ∉ idx.deleted ∧ filter p.pos).map
      (idx.score cfg term)

def search [LinearOrder R] (idx : BM25Index Term) (query : Text) (k : ℤ)
    (filter : UInt32 → Bool) : List (UInt32 × R) :=
  if idx.docCount = 0 ∨ k ≤ 0 then []
  else topKByScore (Ranking.addAll (hits cfg idx query filter)) k.toNat

def act (idx : BM25Index Term) : Op UInt32 (List Text) → BM25Index Term
  | .add pos fields => idx.addDocFields cfg pos fields
  | .remove pos => idx.removeLocked pos

/-- Nothing meets what a removal leaves behind: a document is added where none has been, and without
a term of a removed one, and a document that is removed shares no term with another. -/
def Plain (idx : BM25Index Term) : Op UInt32 (List Text) → Prop
  | .add pos fields => idx.docLen.lookup pos = none ∧ pos ∉ idx.deleted ∧
      ∀ e ∈ cfg.frequencies fields, ∀ p ∈ (idx.dict e.1).postings, p.pos ∉ idx.deleted
  | .remove pos => idx.docLen.lookup pos = none ∨ ∀ term, ∀ p ∈ (idx.dict term).postings,
      p.pos = pos → ∀ q ∈ (idx.dict term).postings, q.pos = pos

def posting (term : Term) (d : UInt32 × List Text) : Option Posting :=
  ((cfg.frequencies d.2).lookup term).map fun tf => ⟨d.1, tf⟩

/-- All that is not deleted is that of the documents, and no term has both. -/
structure Holds (idx : BM25Index Term) (docs : List (UInt32 × List Text)) : Prop where
  keys : (docs.map Prod.fst).Nodup
  live : ∀ d ∈ docs, d.1 ∉ idx.deleted
  dict : ∀ term, ((idx.dict term).postings.filter fun p => p.pos ∉ idx.deleted).Perm
    (docs.filterMap (posting cfg term))
  df : ∀ term, (idx.dict term).df = (idx.dict term).postings.length
  whole : ∀ term, ∀ p ∈ (idx.dict term).postings, p.pos ∉ idx.deleted →
    ∀ q ∈ (idx.dict term).postings, q.pos ∉ idx.deleted
  docLen : ∀ p n, idx.docLen.lookup p = some n ↔ ∃ d ∈ docs, d.1 = p ∧ cfg.length d.2 = n
  totalLen : idx.totalLen = ((docs.map fun d => cfg.length d.2).sum : ℕ)
  docCount : idx.docCount = docs.length

variable {cfg} {idx idx' : BM25Index Term} {docs docs' : List (UInt32 × List Text)} {pos : UInt32}
  {d : UInt32 × List Text} {term : Term} {a : Posting}

theorem pos_of_posting (h : posting cfg term d = some a) : a.pos = d.1 := by
  obtain ⟨_, -, rfl⟩ := Option.map_eq_some_iff.mp h
  rfl

section

variable (h : Holds cfg idx docs)
include h

theorem Holds.perm (hp : docs.Perm docs') : Holds cfg idx docs' where
  keys := (hp.map _).nodup_iff.mp h.keys
  live d hd := h.live d (hp.mem_iff.mpr hd)
  dict term := (h.dict term).trans (hp.filterMap _)
  df := h.df
  whole := h.whole
  docLen p n := by simp only [h.docLen, hp.mem_iff]
  totalLen := by rw [h.totalLen, (hp.map _).sum_eq]
  docCount := by rw [h.docCount, hp.length_eq]

theorem Holds.lookup_eq_none : idx.docLen.lookup pos = none ↔ pos ∉ docs.map Prod.fst := by
  rw [Option.eq_none_iff_forall_ne_some, mem_map]
  constructor
  · rintro hn ⟨d, hd, heq⟩
    exact hn _ ((h.docLen _ _).mpr ⟨d, hd, heq, rfl⟩)
  · intro hne n hn
    obtain ⟨d, hd, heq, -⟩ := (h.docLen _ _).mp hn
    exact hne ⟨d, hd, heq⟩

theorem Holds.add {fields : List Text} (hplain : Plain cfg idx (.add pos fields)) :
    Holds cfg (idx.addDocFields cfg pos fields) (survive docs (.add pos fields)) := by
  obtain ⟨hnew, hpos, hterms⟩ := hplain
  have hne := h.lookup_eq_none.mp hnew
  have hkeys := nodup_survive h.keys (.add pos fields)
  -- a document without terms is not a case of its own
  have hadd : idx.addDocFields cfg pos fields =
      { idx with
        dict := fun term => match (cfg.frequencies fields).lookup term with
          | none => idx.dict term
          | some tf => ⟨(idx.dict term).postings ++ [⟨pos, tf⟩], (idx.dict term).df + 1⟩
        docLen := idx.docLen.insert pos (cfg.length fields)
        totalLen := idx.totalLen + cfg.length fields
        docCount := idx.docCount + 1 } := by
    rw [addDocFields, removeLocked, hnew]
    split
    · simp [BM25Config.length, *]
    · rfl
  rw [survive, filter_eq_self hne] at hkeys ⊢
  rw [hadd]
  constructor
  · exact hkeys
  · simpa [or_imp, forall_and, hpos] using h.live
  · intro term
    rw [filterMap_append]
    rcases ht : (cfg.frequencies fields).lookup term with _ | tf
    · simpa [posting, ht] using h.dict term
    · simpa [posting, ht, hpos] using (h.dict term).append_right [⟨pos, tf⟩]
  · intro term
    rcases ht : (cfg.frequencies fields).lookup term with _ | tf <;> simp [ht, h.df]
  · intro term p hp hlive q hq
    rcases ht : (cfg.frequencies fields).lookup term with _ | tf <;> simp only [ht] at hp hq
    · exact h.whole term p hp hlive q hq
    · rcases mem_append.mp hq with hq | hq
      · obtain ⟨l₁, l₂, heq, -⟩ := lookup_eq_some_iff.mp ht
        exact hterms (term, tf) (by simp [heq]) q hq
      · obtain rfl := mem_singleton.mp hq
        exact hpos
  · intro p n
    by_cases hp : p = pos
    · subst hp
      have hno : ¬ ∃ d ∈ docs, d.1 = p ∧ cfg.length d.2 = n := by
        rintro ⟨d, hd, hdp, -⟩
        exact hne (hdp ▸ mem_map_of_mem hd)
      simp only [mem_append, or_and_right, exists_or, hno, false_or]
      simp [AList.lookup_insert]
    · simp [AList.lookup_insert_ne hp, h.docLen, or_and_right, exists_or, Ne.symm hp]
  · simp [h.totalLen]
  · simp [h.docCount]

theorem Holds.live_postings (term : Term) (g : UInt32 → Bool) (p : UInt32) :
    (((idx.dict term).postings.filter fun a => a.pos ∉ idx.deleted ∧ g a.pos).filter
        fun a => a.pos = p) =
      ((docs.filterMap (posting cfg term)).filter fun a => a.pos = p).filter fun a => g a.pos := by
  have hkeys : ((docs.filterMap (posting cfg term)).map Posting.pos).Nodup := by
    refine pairwise_map.mpr ((pairwise_map.mp h.keys).filterMap _ ?_)
    rintro d d' hne a ha a' ha'
    rwa [pos_of_posting ha, pos_of_posting ha']
  rw [← Assoc.filter_key_of_perm (h.dict term) (((h.dict term).map _).nodup_iff.mpr hkeys)]
  simp only [filter_filter]
  refine filter_congr fun a _ => ?_
  simp [and_comm, Bool.and_left_comm]

theorem Holds.df_eq (ha : a ∈ docs.filterMap (posting cfg term)) :
    (idx.dict term).df = (docs.filterMap (posting cfg term)).length := by
  obtain ⟨hin, hlive⟩ := mem_filter.mp ((h.dict term).mem_iff.mpr ha)
  rw [h.df, ← (h.dict term).length_eq, List.filter_eq_self.mpr fun q hq => ?_]
  exact decide_eq_true (h.whole term a hin (of_decide_eq_true hlive) q hq)

end

theorem Holds.remove (h : Holds cfg idx (d :: docs)) (hplain : ∀ term,
      ∀ p ∈ (idx.dict term).postings, p.pos = d.1 → ∀ q ∈ (idx.dict term).postings, q.pos = d.1) :
    Holds cfg (idx.removeLocked d.1) docs := by
  have hlookup := (h.docLen d.1 _).mpr ⟨d, mem_cons_self, rfl, rfl⟩
  obtain ⟨hne, hkeys⟩ := nodup_cons.mp (map_cons ▸ h.keys)
  have hother : ∀ x ∈ docs, x.1 ≠ d.1 := fun x hx heq => hne (heq ▸ mem_map_of_mem hx)
  rw [removeLocked, hlookup]
  constructor
  · exact hkeys
  · intro x hx
    simp [hother x hx, h.live x (mem_cons_of_mem d hx)]
  · intro term
    have hrest : (((d :: docs).filterMap (posting cfg term)).filter fun p => p.pos ≠ d.1) =
        docs.filterMap (posting cfg term) := by
      have hdocs : ∀ p ∈ docs.filterMap (posting cfg term), p.pos ≠ d.1 := by
        intro p hp
        obtain ⟨x, hx, heq⟩ := mem_filterMap.mp hp
        exact pos_of_posting heq ▸ hother x hx
      rw [filterMap_cons]
      split
      · exact List.filter_eq_self.mpr fun p hp => decide_eq_true (hdocs p hp)
      · rename_i p hp
        rw [filter_cons_of_neg (by simpa using pos_of_posting hp)]
        exact List.filter_eq_self.mpr fun p hp => decide_eq_true (hdocs p hp)
    have hperm := (h.dict term).filter fun p => p.pos ≠ d.1
    rw [hrest, filter_filter] at hperm
    simpa [not_or] using hperm
  · exact h.df
  · intro term p hp hlive q hq
    rw [Finset.mem_insert, not_or] at hlive ⊢
    exact ⟨fun heq => hlive.1 (hplain term q hq heq p hp), h.whole term p hp hlive.2 q hq⟩
  · intro p n
    by_cases hp : p = d.1
    · subst hp
      simpa using fun x hx => absurd rfl (hother (d.1, x) hx)
    · simp [AList.lookup_erase_ne hp, h.docLen, Ne.symm hp]
  · simp [h.totalLen]
  · simp [h.docCount]

theorem keeps : Keeps (act cfg) (Plain cfg) (fun idx => idx.deleted = ∅) (Holds cfg) where
  survive {idx docs op} h hp := by
    cases op with
    | add pos fields => exact h.add hp
    | remove pos =>
      rw [act, survive]
      by_cases hnone : idx.docLen.lookup pos = none
      · rw [removeLocked, hnone, filter_eq_self (h.lookup_eq_none.mp hnone)]
        exact h
      · obtain ⟨d, hd, rfl⟩ := mem_map.mp (not_not.mp (mt h.lookup_eq_none.mpr hnone))
        obtain ⟨l, m, rfl⟩ := append_of_mem hd
        have h := h.perm perm_middle
        have hrest : d.1 ∉ (l ++ m).map Prod.fst := (nodup_cons.mp (map_cons ▸ h.keys)).1
        rw [map_append, mem_append, not_or] at hrest
        rw [filter_append, filter_cons_of_neg (by simp), filter_eq_self hrest.1,
          filter_eq_self hrest.2]
        exact h.remove (hp.resolve_left hnone)
  new doc h hnew hpos := by
    have hnone := h.lookup_eq_none.mpr hpos
    refine ⟨⟨hnone, by simp [hnew], by simp [hnew]⟩, ?_⟩
    rw [act, addDocFields, removeLocked, hnone]
    dsimp only
    split <;> exact hnew
  nodup h := h.keys
  perm h hp := h.perm hp

theorem Holds.search_eq [LinearOrder R] (h : Holds cfg idx docs) (h' : Holds cfg idx' docs)
    (query : Text) (k : ℤ) (filter : UInt32 → Bool) :
    search cfg idx query k filter = search cfg idx' query k filter := by
  have hlen : ∀ p, idx.docLen.lookup p = idx'.docLen.lookup p := fun p =>
    Option.ext fun n => (h.docLen p n).trans (h'.docLen p n).symm
  have hscore : ∀ term, ∀ a ∈ docs.filterMap (posting cfg term),
      idx.score cfg term a = idx'.score cfg term a := fun term a ha => by
    simp [score, avgDocLen, hlen, h.df_eq ha, h'.df_eq ha, h.docCount, h'.docCount, h.totalLen,
      h'.totalLen]
  rw [search, search, h.docCount, h'.docCount]
  split
  · rfl
  refine topKByScore_of_perm (Ranking.addAll_perm fun p => ?_) _
  rw [hits, hits, filter_flatMap, filter_flatMap]
  refine flatMap_congr fun term _ => ?_
  rw [filter_map, filter_map]
  refine (congrArg _ (h.live_postings term filter p)).trans
    (Eq.trans ?_ (congrArg _ (h'.live_postings term filter p)).symm)
  exact map_congr_left fun a ha => hscore term a (mem_filter.mp (mem_filter.mp ha).1).1

/-- After a history in which nothing meets what a removal leaves behind, a search answers as a fresh
index of the survivors. -/
theorem bm25_search_after_history [LinearOrder R] (cfg : BM25Config Text Term R)
    (ops : List (Op UInt32 (List Text))) (hp : Along (step (act cfg)) (Plain cfg) {} ops)
    (docs : List (UInt32 × List Text)) (hdocs : docs.Perm (ops.foldl survive [])) (query : Text)
    (k : ℤ) (filter : UInt32 → Bool) :
    search cfg (ops.foldl (act cfg) {}) query k filter =
      search cfg (docs.foldl (fun idx d => idx.addDocFields cfg d.1 d.2) {}) query k filter := by
  have hempty : Holds cfg ({} : BM25Index Term) [] :=
    ⟨by simp, by simp, fun _ => .refl _, fun _ => rfl, by simp, by simp, rfl, rfl⟩
  obtain ⟨hrun, hfresh⟩ := keeps.fresh hempty rfl hp hdocs
  exact hrun.search_eq hfresh query k filter

def wordConfig : BM25Config (List (Fin 10)) (Fin 10) ℚ :=
  { tokenize := id, k1 := 6 / 5, b := 3 / 4, log := id, round := Rat.floor }

/-- A document that shares no term with the others is removed. -/
theorem bm25_search_two :
    search wordConfig (([.add 1 [[7]], .add 2 [[8]], .remove 1, .add 3 [[8, 9]]] :
        List (Op UInt32 (List (List (Fin 10))))).foldl (act wordConfig) {}) [8] 5 (fun _ => true) =
      search wordConfig ([(3, [[8, 9]]), (2, [[8]])].foldl
        (fun idx d => addDocFields wordConfig idx d.1 d.2) {}) [8] 5 fun _ => true := by
  refine bm25_search_after_history wordConfig _ ?_ _ (by decide) _ _ _
  refine ⟨by dsimp only [Plain]; decide +kernel, ?_⟩
  rintro _ ⟨⟩
  refine ⟨by dsimp only [Plain]; decide +kernel, ?_⟩
  rintro _ ⟨⟩
  refine ⟨by dsimp only [Plain]; decide +kernel, ?_⟩
  rintro _ ⟨⟩
  exact ⟨by dsimp only [Plain]; decide +kernel, fun _ _ => trivial⟩

theorem readded_document_lost :
    search wordConfig (([.add 1 [[7]], .remove 1, .add 1 [[7]]] :
        List (Op UInt32 (List (List (Fin 10))))).foldl (act wordConfig) {}) [7] 1 (fun _ => true) =
          [] ∧
      (search wordConfig (({} : BM25Index (Fin 10)).addDocFields wordConfig 1 [[7]]) [7] 1
        fun _ => true).map Prod.fst = [1] := by
  decide +kernel

end BM25Index

end VecDb.Hybrid

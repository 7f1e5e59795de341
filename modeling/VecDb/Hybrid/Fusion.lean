import VecDb.Base.Assoc
import VecDb.Base.Float

/-! # Fusing ranked lists

Ranked lists of positions are combined by reciprocal ranks or by normalized scores. The
arithmetic is that of the platform; which positions the result has does not depend on it.
-/

namespace VecDb.Hybrid

open List

structure ScoredPos where
  pos : UInt32
  score : Float64
  deriving DecidableEq

inductive FusionMethod
  | rrf | minMax | zScore
  deriving DecidableEq

abbrev Scores := List (UInt32 × Float64)

section Fuse

variable (ops : Float64.Ops)

def addScore (scores : Scores) (pos : UInt32) (x : Float64) : Scores :=
  Assoc.upsert pos (fun v => ops.add (v.getD (.ofInt 0)) x) scores

/-- Weights that average 1; a weight that is missing or not positive is 1. -/
def normalizeWeights (weights : List Float64) (n : ℕ) : List Float64 :=
  let out := (List.range n).map fun i =>
    match weights[i]? with
    | some w => if (Float64.ofInt 0).lt w then w else .ofInt 1
    | none => .ofInt 1
  let sum := out.foldl ops.add (.ofInt 0)
  if sum.eq (.ofInt 0) then out.map fun _ => .ofInt 1
  else
    let scale := ops.div (.ofInt n) sum
    out.map fun w => ops.mul w scale

def ScoredPos.less (a b : ScoredPos) : Bool :=
  if !a.score.eq b.score then b.score.lt a.score else decide (a.pos < b.pos)

def sortScored (scores : Scores) : List ScoredPos :=
  (scores.map fun x => ⟨x.1, x.2⟩).mergeSort fun a b => !ScoredPos.less b a

/-- Add up what each list gives to its positions. -/
def accumulate (lists : List (List ScoredPos)) (weights : List Float64)
    (terms : Float64 → List ScoredPos → Scores) : Scores :=
  (lists.zip (normalizeWeights ops weights lists.length)).foldl
    (fun scores x => (terms x.2 x.1).foldl (fun scores y => addScore ops scores y.1 y.2) scores) []

def weightedRRFuse (lists : List (List ScoredPos)) (weights : List Float64) (kRRF : Float64) :
    List ScoredPos :=
  let kRRF := if kRRF.le (.ofInt 0) then .ofInt 60 else kRRF
  sortScored (accumulate ops lists weights fun w list =>
    list.zipIdx.map fun x => (x.1.pos, ops.div w (ops.add kRRF (.ofInt (x.2 + 1)))))

def assignScores (list : List ScoredPos) (f : ScoredPos → Float64) : Scores :=
  list.foldl (fun out sp => Assoc.upsert sp.pos (fun _ => f sp) out) []

def minMaxNormalize (list : List ScoredPos) : Scores :=
  let lo := list.foldl (fun lo sp => if sp.score.lt lo then sp.score else lo)
    ((list.head?.map ScoredPos.score).getD (.ofInt 0))
  let hi := list.foldl (fun hi sp => if hi.lt sp.score then sp.score else hi)
    ((list.head?.map ScoredPos.score).getD (.ofInt 0))
  let span := ops.sub hi lo
  assignScores list fun sp =>
    if span.eq (.ofInt 0) then .ofInt 1 else ops.div (ops.sub sp.score lo) span

def zScoreNormalize (list : List ScoredPos) : Scores :=
  let n : Float64 := .ofInt list.length
  let mean := ops.div (list.foldl (fun sum sp => ops.add sum sp.score) (.ofInt 0)) n
  let varSum := list.foldl (fun sum sp =>
    ops.add sum (ops.mul (ops.sub sp.score mean) (ops.sub sp.score mean))) (.ofInt 0)
  let std := ops.sqrt (ops.div varSum n)
  assignScores list fun sp =>
    if std.eq (.ofInt 0) then .ofInt 0 else ops.div (ops.sub sp.score mean) std

def normFuse (lists : List (List ScoredPos)) (weights : List Float64)
    (norm : List ScoredPos → Scores) : List ScoredPos :=
  sortScored (accumulate ops lists weights fun w list =>
    (norm list).map fun x => (x.1, ops.mul w x.2))

def fuse (method : FusionMethod) (lists : List (List ScoredPos)) (weights : List Float64)
    (kRRF : Float64) : List ScoredPos :=
  match method with
  | .minMax => normFuse ops lists weights (minMaxNormalize ops)
  | .zScore => normFuse ops lists weights (zScoreNormalize ops)
  | .rrf => weightedRRFuse ops lists weights kRRF

end Fuse

def trimK (list : List ScoredPos) (k : ℤ) : List ScoredPos :=
  if 0 ≤ k ∧ k < list.length then list.take k.toNat else list

section Positions

variable {ops : Float64.Ops} {p : UInt32} {lists : List (List ScoredPos)} {list : List ScoredPos}
  {weights : List Float64} {terms : Float64 → List ScoredPos → Scores}

theorem length_normalizeWeights (weights : List Float64) (n : ℕ) :
    (normalizeWeights ops weights n).length = n := by
  unfold normalizeWeights
  dsimp only
  split <;> simp

theorem mem_sortScored {scores : Scores} :
    p ∈ (sortScored scores).map ScoredPos.pos ↔ p ∈ scores.map Prod.fst := by
  rw [sortScored, ((mergeSort_perm _ _).map _).mem_iff, map_map]
  rfl

theorem mem_accumulate (hterms : ∀ w list, p ∈ (terms w list).map Prod.fst ↔
    p ∈ list.map ScoredPos.pos) : p ∈ (accumulate ops lists weights terms).map Prod.fst ↔
      ∃ list ∈ lists, p ∈ list.map ScoredPos.pos := by
  have hfold : ∀ (l : List (List ScoredPos × Float64)) (m : Scores),
      p ∈ (l.foldl (fun scores x => (terms x.2 x.1).foldl
        (fun scores y => addScore ops scores y.1 y.2) scores) m).map Prod.fst ↔
        (∃ list ∈ l.map Prod.fst, p ∈ list.map ScoredPos.pos) ∨ p ∈ m.map Prod.fst := by
    intro l
    induction l with
    | nil => simp
    | cons x l ih =>
      intro m
      rw [foldl_cons, ih]
      simp only [addScore]
      rw [Assoc.mem_keys_foldl, hterms]
      simp [or_assoc, or_left_comm]
  have hzip : (lists.zip (normalizeWeights ops weights lists.length)).map Prod.fst = lists :=
    map_fst_zip (length_normalizeWeights weights lists.length).ge
  rw [accumulate, hfold, hzip]
  simp

theorem mem_assignScores {f : ScoredPos → Float64} :
    p ∈ (assignScores list f).map Prod.fst ↔ p ∈ list.map ScoredPos.pos := by
  unfold assignScores
  rw [Assoc.mem_keys_foldl]
  simp

theorem mem_fuse {method : FusionMethod} {kRRF : Float64} :
    p ∈ (fuse ops method lists weights kRRF).map ScoredPos.pos ↔
      ∃ list ∈ lists, p ∈ list.map ScoredPos.pos := by
  cases method
  · refine mem_sortScored.trans (mem_accumulate fun w list => ?_)
    rw [map_map]
    change p ∈ list.zipIdx.map (ScoredPos.pos ∘ Prod.fst) ↔ _
    rw [← map_map, zipIdx_map_fst]
  all_goals
    refine mem_sortScored.trans (mem_accumulate fun w list => ?_)
    rw [map_map]
    exact mem_assignScores

end Positions

end VecDb.Hybrid

import VecDb.Base.Fallible
import Mathlib.Order.Lattice

/-! # Lloyd's algorithm

The arithmetic of vectors, the order of distances and the random choices are parameters. A run that
does not panic returns one centroid for each cluster, and no more of them than it has rows.
-/

namespace VecDb.Quant

open List Fallible

inductive Fault where
  | panic | emptyTraining | notDivisible | nonFinite
deriving DecidableEq

/-- What the computation has from the floating-point and random packages. -/
structure Kernel (F D R : Type) where
  dist : List F → List F → D
  maxDist : D
  belowAll : D
  inv : ℕ → F
  isFinite : F → Bool
  seed : ℕ → R
  intn : ℕ → R → ℕ × R
  /-- The row whose share of the sum of all distances the next random number falls into. -/
  weighted : List D → R → ℕ × R

variable {F D R : Type} [LinearOrder D] (K : Kernel F D R)

def index {α : Type} (l : List α) (i : ℕ) : Except Fault α :=
  l[i]?.elim (.error .panic) .ok

/-- The number and the distance of the first centroid that is nearest, if one is nearer than
`maxDist`. -/
def Kernel.search (s : List F) (cents : List (List F)) : ℕ × D :=
  cents.zipIdx.foldl (fun best p => if K.dist s p.1 < best.2 then (p.2, K.dist s p.1) else best)
    (0, K.maxDist)

def Kernel.seeds (rows : List (List F)) :
    ℕ → List F → List D → R → Except Fault (List (List F) × R)
  | 0, _, _, rng => .ok ([], rng)
  | c + 1, prev, dist2, rng => do
    let dist2 := rows.zipWith (fun row d => min (K.dist row prev) d) dist2
    let (pick, rng) := K.weighted dist2 rng
    let row ← index rows (min pick (rows.length - 1))
    let (rest, rng) ← Kernel.seeds rows c row dist2 rng
    return (row :: rest, rng)

def Kernel.kmeansPlusPlusInit (rows : List (List F)) (dim k : ℕ) (rng : R) :
    Except Fault (List (List F) × R) := do
  let (first, rng) := K.intn rows.length rng
  let row ← index rows first
  match k with
  -- the slice for the first centroid is in range only if it is empty
  | 0 => if dim = 0 then return ([], rng) else throw .panic
  | k + 1 => do
    let (rest, rng) ← K.seeds rows k row (rows.map fun _ => K.maxDist) rng
    return (row :: rest, rng)

def Kernel.assignStep (rows cents : List (List F)) : List ℕ :=
  rows.map fun row => (K.search row cents).1

/-- An empty cluster `c` gets the row that is farthest from the centroid it has so far. -/
def Kernel.reseedEmpty (rows : List (List F)) (assign : List ℕ) (cents : List (List F)) (c : ℕ)
    (rng : R) : Except Fault (List (List F) × R) := do
  let (first, rng) := K.intn rows.length rng
  let worst := (rows.zip assign).zipIdx.foldl (fun worst ((row, a), i) =>
    let d := K.dist row (cents.getD a [])
    if a ≠ c ∧ worst.2 < d then (i, d) else worst) (first, K.belowAll)
  let row ← index rows worst.1
  return (cents.set c row, rng)

/-- The sum of the rows of cluster `c` becomes their mean. -/
def Kernel.mean [Mul F] (rows : List (List F)) (assign : List ℕ) (st : List (List F) × R) (c : ℕ) :
    Except Fault (List (List F) × R) :=
  if assign.count c = 0 then K.reseedEmpty rows assign st.1 c st.2
  else .ok (st.1.modify c (map (· * K.inv (assign.count c))), st.2)

/-- There are `k` centroids of `dim` numbers each. -/
def Shaped (dim k : ℕ) (cents : List (List F)) : Prop :=
  cents.length = k ∧ ∀ c ∈ cents, c.length = dim

variable {K} {rows cents out : List (List F)} {assign cs : List ℕ} {dim k c : ℕ} {rng rng' : R}

theorem index_eq_ok {α : Type} {l : List α} {i : ℕ} {x : α} :
    index l i = .ok x ↔ l[i]? = some x := by
  rw [index]
  cases l[i]? with
  | none => exact ⟨nofun, nofun⟩
  | some y => exact ⟨fun h => congrArg _ (Except.ok.inj h), fun h => congrArg _ (Option.some.inj h)⟩

section

variable (hrows : ∀ r ∈ rows, r.length = dim)
include hrows

theorem length_index {i : ℕ} {row : List F} (h : index rows i = .ok row) : row.length = dim :=
  hrows row (mem_of_getElem? (index_eq_ok.mp h))

theorem shaped_seeds {prev : List F} {dist2 : List D}
    (h : K.seeds rows k prev dist2 rng = .ok (out, rng')) : Shaped dim k out := by
  induction k generalizing prev dist2 rng out rng' with
  | zero =>
    cases h
    exact ⟨rfl, nofun⟩
  | succ k ih =>
    obtain ⟨row, hrow, h⟩ := bind_eq_ok.mp h
    obtain ⟨⟨rest, _⟩, hrest, h⟩ := bind_eq_ok.mp h
    cases h
    obtain ⟨hlen, hall⟩ := ih hrest
    exact ⟨congrArg _ hlen, forall_mem_cons.mpr ⟨length_index hrows hrow, hall⟩⟩

/-- Without a cluster the seeding goes through only if vectors have no components. -/
theorem shaped_init (h : K.kmeansPlusPlusInit rows dim k rng = .ok (out, rng')) :
    Shaped dim k out ∧ (k = 0 → dim = 0) := by
  obtain ⟨row, hrow, h⟩ := bind_eq_ok.mp h
  cases k with
  | zero =>
    dsimp only at h
    split at h
    · rename_i hdim
      cases h
      exact ⟨⟨rfl, nofun⟩, fun _ => hdim⟩
    · cases h
  | succ k =>
    obtain ⟨⟨rest, _⟩, hrest, h⟩ := bind_eq_ok.mp h
    cases h
    obtain ⟨hlen, hall⟩ := shaped_seeds hrows hrest
    exact ⟨⟨congrArg _ hlen, forall_mem_cons.mpr ⟨length_index hrows hrow, hall⟩⟩, nofun⟩

theorem shaped_reseedEmpty (hc : Shaped dim k cents)
    (h : K.reseedEmpty rows assign cents c rng = .ok (out, rng')) : Shaped dim k out := by
  obtain ⟨row, hrow, h⟩ := bind_eq_ok.mp h
  cases h
  refine ⟨(length_set ..).trans hc.1, fun r hr => ?_⟩
  rcases mem_or_eq_of_mem_set hr with hr | rfl
  · exact hc.2 r hr
  · exact length_index hrows hrow

theorem shaped_mean [Mul F] {st st' : List (List F) × R} (hc : Shaped dim k st.1)
    (h : K.mean rows assign st c = .ok st') : Shaped dim k st'.1 := by
  unfold Kernel.mean at h
  split at h
  · exact shaped_reseedEmpty hrows hc h
  · cases h
    refine ⟨(length_modify ..).trans hc.1, fun r hr => ?_⟩
    obtain ⟨i, hi⟩ := mem_iff_getElem?.mp hr
    rw [getElem?_modify] at hi
    obtain ⟨r', hr', he⟩ := Option.map_eq_some_iff.mp hi
    have hlen := hc.2 r' (mem_of_getElem? hr')
    split at he <;> subst he
    · rwa [length_map]
    · exact hlen

theorem shaped_means [Mul F] {st st' : List (List F) × R} (hc : Shaped dim k st.1)
    (h : cs.foldlM (K.mean rows assign) st = .ok st') : Shaped dim k st'.1 := by
  induction cs generalizing st with
  | nil =>
    cases h
    exact hc
  | cons c cs ih =>
    rw [foldlM_cons] at h
    obtain ⟨st₁, hst, h⟩ := bind_eq_ok.mp h
    exact ih (shaped_mean hrows hc hst) h

end

variable [Zero F] [Add F] [Mul F]

section

variable (K)

def Kernel.updateStep (rows : List (List F)) (dim k : ℕ) (assign : List ℕ) (rng : R) :
    Except Fault (List (List F) × R) :=
  if assign.any (k ≤ ·) then .error .panic
  else
    let sums := (range k).map fun c =>
      ((rows.zip assign).filter (·.2 = c)).foldl (fun sum p => sum.zipWith (· + ·) p.1)
        (replicate dim 0)
    (range k).foldlM (K.mean rows assign) (sums, rng)

def Kernel.lloyd (rows : List (List F)) (dim k : ℕ) :
    ℕ → ℕ → List (List F) → List ℕ → R → Except Fault (List (List F))
  | 0, _, cents, _, _ => .ok cents
  | left + 1, it, cents, assign, rng => do
    let assign' := K.assignStep rows cents
    let (cents, rng) ← K.updateStep rows dim k assign' rng
    if assign' = assign ∧ 0 < it then return cents else
      Kernel.lloyd rows dim k left (it + 1) cents assign' rng

def Kernel.kmeans (rows : List (List F)) (dim : ℕ) (k : ℤ) (iters : ℕ) (rng : R) :
    Except Fault (List (List F)) :=
  let k := min k rows.length
  if k < 0 then .error .panic
  else do
    let (cents, rng) ← K.kmeansPlusPlusInit rows dim k.toNat rng
    K.lloyd rows dim k.toNat iters 0 cents (rows.map fun _ => 0) rng

end

variable (hrows : ∀ r ∈ rows, r.length = dim)
include hrows

theorem shaped_updateStep (h : K.updateStep rows dim k assign rng = .ok (out, rng')) :
    Shaped dim k out := by
  unfold Kernel.updateStep at h
  dsimp only at h
  split at h
  · cases h
  refine shaped_means hrows ⟨by simp, ?_⟩ h
  intro sum hsum
  obtain ⟨c, -, rfl⟩ := mem_map.mp hsum
  have hmem : ∀ p ∈ (rows.zip assign).filter (·.2 = c), p.1.length = dim :=
    fun p hp => hrows _ (of_mem_zip (mem_of_mem_filter hp)).1
  -- adding a row of the right length keeps the length of the sum
  generalize (rows.zip assign).filter (·.2 = c) = ps at hmem
  have hsum : (replicate dim (0 : F)).length = dim := length_replicate
  generalize replicate dim (0 : F) = sum at hsum
  induction ps generalizing sum with
  | nil => exact hsum
  | cons p ps ih =>
    refine ih (fun q hq => hmem q (mem_cons_of_mem p hq)) _ ?_
    rw [length_zipWith, hsum, hmem p mem_cons_self, min_self]

theorem shaped_lloyd {left it : ℕ} (hc : Shaped dim k cents)
    (h : K.lloyd rows dim k left it cents assign rng = .ok out) : Shaped dim k out := by
  induction left generalizing it cents assign rng with
  | zero =>
    cases h
    exact hc
  | succ left ih =>
    obtain ⟨⟨cents', rng₁⟩, hup, h⟩ := bind_eq_ok.mp h
    have hup := shaped_updateStep hrows hup
    dsimp only at h
    split at h
    · cases h
      exact hup
    · exact ih hup h

theorem shaped_kmeans {k : ℤ} {iters : ℕ} (h : K.kmeans rows dim k iters rng = .ok out) :
    0 ≤ k ∧ Shaped dim (min k rows.length).toNat out ∧ (min k rows.length = 0 → dim = 0) := by
  unfold Kernel.kmeans at h
  dsimp only at h
  split at h
  · cases h
  rename_i hk
  obtain ⟨⟨cents, rng₁⟩, hinit, h⟩ := bind_eq_ok.mp h
  obtain ⟨hc, hzero⟩ := shaped_init hrows hinit
  exact ⟨by omega, shaped_lloyd hrows hc h, fun h0 => hzero (by omega)⟩

end VecDb.Quant

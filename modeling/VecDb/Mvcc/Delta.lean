import Mathlib.Tactic.Common

/-! # Clock, snapshots and version chains

A snapshot sees what its own transaction wrote, and what was committed up to its read point by
transactions that were not in flight. A version table keeps the chain of each key, the newest
version first; garbage collection cuts it below the newest version that the watermark covers.
-/

namespace VecDb.Mvcc

structure Clock where
  seq : ℕ
  txn : ℕ := 0
  deriving DecidableEq

def newClock (start : ℕ) : Clock := { seq := start }

def Clock.nextSeq (c : Clock) : Clock × ℕ := ({ c with seq := c.seq + 1 }, c.seq + 1)

def Clock.current (c : Clock) : ℕ := c.seq

def Clock.nextTxn (c : Clock) : Clock × ℕ := ({ c with txn := c.txn + 1 }, c.txn + 1)

structure Snapshot where
  readSeq : ℕ
  txnID : ℕ := 0
  inFlight : List ℕ := []
  deriving DecidableEq

def Snapshot.isVisible (s : Snapshot) (vSeq vTxn : ℕ) : Bool :=
  if vTxn = s.txnID then true
  else if vTxn ∈ s.inFlight then false
  else vSeq != 0 && decide (vSeq ≤ s.readSeq)

open List Function

/-- One version of a key. Sequence zero marks a write in flight. -/
structure VersionEntry (V : Type*) where
  seq : ℕ := 0
  txn : ℕ
  val : V
  tomb : Bool
  deriving DecidableEq

/-- A key without a chain has the empty one. -/
structure VersionTable (K V : Type*) where
  chains : K → List (VersionEntry V)
  staged : ℕ → List K

def newVersionTable (K V : Type*) : VersionTable K V := ⟨fun _ => [], fun _ => []⟩

section Chain

variable {V : Type*}

/-- What the version a snapshot stops at gives: nothing for a tombstone. -/
def VersionEntry.value (e : VersionEntry V) : Option V := if e.tomb then none else some e.val

def VersionEntry.sees (s : Snapshot) (e : VersionEntry V) : Bool := s.isVisible e.seq e.txn

def visibleEntry (s : Snapshot) (chain : List (VersionEntry V)) : Option (VersionEntry V) :=
  chain.find? (VersionEntry.sees s)

def visibleValue (s : Snapshot) (chain : List (VersionEntry V)) : Option V :=
  (visibleEntry s chain).bind VersionEntry.value

def VersionEntry.inFlight (txn : ℕ) (e : VersionEntry V) : Bool := e.txn == txn && e.seq == 0

def VersionEntry.stamp (txn seq : ℕ) (e : VersionEntry V) : VersionEntry V :=
  if e.inFlight txn then { e with seq } else e

def VersionEntry.committedBy (watermark : ℕ) (e : VersionEntry V) : Bool :=
  e.seq != 0 && decide (e.seq ≤ watermark)

/-- Cut a chain below its newest version committed at or below the watermark. A chain
that starts with such a tombstone is removed. -/
def gcChain (watermark : ℕ) (chain : List (VersionEntry V)) : List (VersionEntry V) :=
  match chain.findIdx? (VersionEntry.committedBy watermark) with
  | none => chain
  | some cut =>
    if (chain[cut]?.any VersionEntry.tomb) && cut == 0 then [] else chain.take (cut + 1)

theorem VersionEntry.stamp_stamp (txn seq : ℕ) (e : VersionEntry V) :
    (e.stamp txn seq).stamp txn seq = e.stamp txn seq := by
  by_cases he : e.inFlight txn
  · have hs : e.stamp txn seq = { e with seq } := if_pos he
    rw [hs, stamp]
    split <;> rfl
  · have hs : e.stamp txn seq = e := if_neg he
    rw [hs, hs]

theorem VersionEntry.stamp_of_ne_zero {txn seq : ℕ} {e : VersionEntry V} (he : e.seq ≠ 0) :
    e.stamp txn seq = e := by
  simp [stamp, inFlight, he]

theorem visibleValue_cons (s : Snapshot) (e : VersionEntry V) (chain : List (VersionEntry V)) :
    visibleValue s (e :: chain) = if e.sees s then e.value else visibleValue s chain := by
  by_cases he : e.sees s <;> simp [visibleValue, visibleEntry, he]

/-- The part of a chain down to its newest version committed by the watermark. -/
def reachable (watermark : ℕ) : List (VersionEntry V) → List (VersionEntry V)
  | [] => []
  | e :: chain => if e.committedBy watermark then [e] else e :: reachable watermark chain

theorem gcChain_cons (watermark : ℕ) (e : VersionEntry V) (chain : List (VersionEntry V)) :
    gcChain watermark (e :: chain) =
      if e.committedBy watermark && e.tomb then [] else reachable watermark (e :: chain) := by
  have htake : ∀ c : List (VersionEntry V),
      (match c.findIdx? (VersionEntry.committedBy watermark) with
        | none => c
        | some cut => c.take (cut + 1)) = reachable watermark c := by
    intro c
    induction c with
    | nil => rfl
    | cons d c ih =>
      rw [reachable, findIdx?_cons]
      by_cases hd : d.committedBy watermark
      · simp [hd]
      · simp only [hd, Bool.false_eq_true, if_false, ← ih]
        cases c.findIdx? (VersionEntry.committedBy watermark) <;> rfl
  rw [gcChain, ← htake, findIdx?_cons]
  by_cases he : e.committedBy watermark
  · cases ht : e.tomb <;> simp [he, ht]
  · simp only [he, Bool.false_eq_true, if_false, Bool.false_and]
    cases chain.findIdx? (VersionEntry.committedBy watermark) <;> simp

end Chain

namespace VersionTable

variable {K V : Type*} [DecidableEq K] (t : VersionTable K V)

def stage (key : K) (txn : ℕ) (val : V) (tombstone : Bool) : VersionTable K V where
  chains := update t.chains key ({ txn, val, tomb := tombstone } :: t.chains key)
  staged := update t.staged txn (t.staged txn ++ [key])

def visible (key : K) (s : Snapshot) : Option V := visibleValue s (t.chains key)

/-- Rewrite the chains of the keys a transaction has staged, one after the other. -/
def rewriteStaged (txn : ℕ) (f : List (VersionEntry V) → List (VersionEntry V)) :
    VersionTable K V where
  chains := (t.staged txn).foldl (fun chains key => update chains key (f (chains key)))
    t.chains
  staged := update t.staged txn []

def commit (txn seq : ℕ) : VersionTable K V :=
  t.rewriteStaged txn (List.map (VersionEntry.stamp txn seq))

def abort (txn : ℕ) : VersionTable K V :=
  t.rewriteStaged txn (List.filter fun e => !e.inFlight txn)

def gc (watermark : ℕ) : VersionTable K V :=
  { t with chains := fun key => gcChain watermark (t.chains key) }

variable {t} {f : List (VersionEntry V) → List (VersionEntry V)} {txn i : ℕ}

theorem stage_chains (key k : K) (txn : ℕ) (val : V) (tombstone : Bool) :
    (t.stage key txn val tombstone).chains k =
      if k = key then { txn, val, tomb := tombstone } :: t.chains k else t.chains k := by
  by_cases hk : k = key
  · subst hk; simp [stage]
  · simp [stage, hk]

theorem mem_stage_staged {key k : K} {val : V} {tombstone : Bool} :
    k ∈ (t.stage key txn val tombstone).staged i ↔ k ∈ t.staged i ∨ i = txn ∧ k = key := by
  by_cases hi : i = txn
  · subst hi; simp [stage]
  · simp [stage, hi]

/-- A rewriting that may be done twice is done once on every staged key. -/
theorem rewriteStaged_chains {txn : ℕ} (hf : ∀ c, f (f c) = f c) (k : K) :
    (t.rewriteStaged txn f).chains k =
      if k ∈ t.staged txn then f (t.chains k) else t.chains k := by
  have hfold : ∀ (keys : List K) (chains : K → List (VersionEntry V)),
      keys.foldl (fun chains key => update chains key (f (chains key))) chains k =
        if k ∈ keys then f (chains k) else chains k := by
    intro keys
    induction keys with
    | nil => intro chains; simp
    | cons key keys ih =>
      intro chains
      rw [foldl_cons, ih]
      by_cases hk : k = key
      · subst hk; simp [hf]
      · simp [hk]
  exact hfold (t.staged txn) t.chains

theorem mem_rewriteStaged_staged
    {k : K} : k ∈ (t.rewriteStaged txn f).staged i ↔ i ≠ txn ∧ k ∈ t.staged i := by
  by_cases hi : i = txn
  · subst hi; simp [rewriteStaged]
  · simp [rewriteStaged, hi]

theorem commit_chains (txn seq : ℕ) (k : K) : (t.commit txn seq).chains k =
      if k ∈ t.staged txn then (t.chains k).map (VersionEntry.stamp txn seq) else t.chains k :=
  rewriteStaged_chains (fun c => by
    rw [map_map]
    exact map_congr_left fun e _ => e.stamp_stamp txn seq) k

theorem abort_chains (txn : ℕ) (k : K) : (t.abort txn).chains k =
      if k ∈ t.staged txn then (t.chains k).filter (fun e => !e.inFlight txn) else t.chains k :=
  rewriteStaged_chains (fun c => by rw [filter_filter]; simp) k

end VersionTable

end VecDb.Mvcc

import VecDb.Storage.Value

/-! # Predicates and zone maps

Each column keeps, for every block of rows, the least and the largest value written there, and a
filter skips a block that its bounds rule out. A block whose first number was NaN keeps NaN as its
bounds, and is skipped by every strict comparison.
-/

namespace VecDb.Storage

open Bool Value

abbrev ColID := UInt32

inductive CmpOp
  | eq | ne | lt | le | gt | ge
  deriving DecidableEq

inductive Predicate
  | compare (col : ColID) (op : CmpOp) (lit : Value)
  | isNull (col : ColID) (negate : Bool)
  | and (terms : List Predicate)
  | or (terms : List Predicate)
  | not (term : Predicate)
  | always

/-- A comparison that involves a null fails. -/
def CmpOp.eval (op : CmpOp) (v lit : Value) : Bool :=
  if v.isNull ∨ lit.isNull then false
  else
    match op with
    | eq => v.equal lit
    | ne => !v.equal lit
    | lt => v.less lit
    | le => v.less lit || v.equal lit
    | gt => lit.less v
    | ge => lit.less v || v.equal lit

mutual

def Predicate.eval (get : ColID → Value) : Predicate → Bool
  | .compare col op lit => op.eval (get col) lit
  | .isNull col negate => if negate then !(get col).isNull else (get col).isNull
  | .and terms => evalAll get terms
  | .or terms => evalAny get terms
  | .not term => !term.eval get
  | .always => true

def evalAll (get : ColID → Value) : List Predicate → Bool
  | [] => true
  | t :: ts => t.eval get && evalAll get ts

def evalAny (get : ColID → Value) : List Predicate → Bool
  | [] => false
  | t :: ts => t.eval get || evalAny get ts

end

def zoneBlockSize : ℕ := 1024

/-- The bounds of the values written to a block of rows of one column. -/
structure ZoneBlock where
  min : Value := .null
  max : Value := .null
  /-- How many non-null values were ever folded into the block. -/
  written : ℕ := 0
  deriving DecidableEq

namespace ZoneBlock

/-- The counter of the source has 32 bits, and is 0 again after `2 ^ 32` values. -/
def count (b : ZoneBlock) : UInt32 := UInt32.ofNat b.written

def fold (b : ZoneBlock) (v : Value) : ZoneBlock :=
  if v.isNull then b
  else if b.count = 0 then { min := v, max := v, written := b.written + 1 }
  else
    { min := if v.less b.min then v else b.min
      max := if b.max.less v then v else b.max
      written := b.written + 1 }

def canSkip (b : ZoneBlock) (op : CmpOp) (lit : Value) : Bool :=
  if b.count = 0 then false
  else
    match op with
    | .eq => lit.less b.min || b.max.less lit
    | .lt => !b.min.less lit
    | .le => lit.less b.min
    | .gt => !lit.less b.max
    | .ge => b.max.less lit
    | .ne => false

end ZoneBlock

mutual

/-- Whether the bounds of a block rule out a conjunction of comparisons. -/
def blockSkippable (zones : ColID → ℕ → ZoneBlock) (block : ℕ) : Predicate → Bool
  | .compare col op lit => (zones col block).canSkip op lit
  | .and terms => anySkippable zones block terms
  | .isNull _ _ | .or _ | .not _ | .always => false

def anySkippable (zones : ColID → ℕ → ZoneBlock) (block : ℕ) : List Predicate → Bool
  | [] => false
  | t :: ts => blockSkippable zones block t || anySkippable zones block ts

end

namespace ZoneBlock

variable {z z' z'' : ZoneBlock} {v w lit : Value} {t : ColType} {op : CmpOp}

/-- The bounds are values of the column's type, and NaN only together. -/
def Typed (t : ColType) (z : ZoneBlock) : Prop :=
  0 < z.written → z.min.matchesType t = true ∧ z.max.matchesType t = true ∧
    z.min.isNaN = z.max.isNaN

/-- The bounds do not rule the value out. -/
def Admits (z : ZoneBlock) (v : Value) : Prop :=
  v.isNaN = true ∨ z.min.isNaN = false ∧ v.less z.min = false ∧ z.max.less v = false

instance (z : ZoneBlock) (v : Value) : Decidable (z.Admits v) :=
  inferInstanceAs (Decidable (_ ∨ _))

/-- The value is in the block: before the counter wraps around, only NaN as the first value of the
block can rule it out. -/
def Covers (z : ZoneBlock) (v : Value) : Prop :=
  v.isNull = false → 0 < z.written ∧
    (z.written < 2 ^ 32 → z.min.isNaN = true ∨ z.Admits v)

/-- What has been folded into one block is in the other, NaN first or not. -/
def Widened (z z' : ZoneBlock) : Prop :=
  z.written ≤ z'.written ∧
    (0 < z.written → z'.written < 2 ^ 32 → z'.min.isNaN = z.min.isNaN)

theorem count_ne_zero (hz : 0 < z.written) (h : z.written < 2 ^ 32) : z.count ≠ 0 := by
  intro h0
  have := congrArg UInt32.toNat h0
  rw [count, UInt32.toNat_ofNat', Nat.mod_eq_of_lt h] at this
  exact hz.ne' this

theorem written_pos (h : z.count ≠ 0) : 0 < z.written := by
  refine Nat.pos_of_ne_zero fun h0 => h ?_
  rw [count, h0]
  rfl

theorem fold_null (h : v.isNull = true) : z.fold v = z := by simp [fold, h]

theorem fold_first (hv : v.isNull = false) (hz : z.count = 0) :
    z.fold v = { min := v, max := v, written := z.written + 1 } := by simp [fold, hv, hz]

theorem fold_next (hv : v.isNull = false) (hz : z.count ≠ 0) : z.fold v =
      { min := if v.less z.min then v else z.min
        max := if z.max.less v then v else z.max
        written := z.written + 1 } := by
  simp [fold, hv, hz]

theorem fold_written (z : ZoneBlock) (v : Value) :
    (z.fold v).written = z.written + if v.isNull then 0 else 1 := by
  unfold fold
  split_ifs <;> rfl

/-- The bounds only ever move by a proper comparison, so never to or from NaN. -/
theorem fold_nan (hz : 0 < z.written) (h : (z.fold v).written < 2 ^ 32) :
    (z.fold v).min.isNaN = z.min.isNaN ∧ (z.fold v).max.isNaN = z.max.isNaN := by
  rcases eq_false_or_eq_true v.isNull with hv | hv
  · rw [fold_null hv]
    exact ⟨rfl, rfl⟩
  · rw [fold_written, hv] at h
    rw [fold_next hv (count_ne_zero hz (Nat.lt_of_succ_lt h))]
    constructor <;>
    · dsimp only
      split
      · rename_i h
        rw [(less_not_nan h).1, (less_not_nan h).2]
      · rfl

theorem Typed.fold (hz : z.Typed t) (hv : v.isNull = true ∨ v.matchesType t = true) :
    (z.fold v).Typed t := by
  rcases eq_false_or_eq_true v.isNull with hnull | hnull
  · rwa [fold_null hnull]
  · have ht : v.matchesType t = true := by simpa [hnull] using hv
    intro _
    by_cases h0 : z.count = 0
    · rw [fold_first hnull h0]
      exact ⟨ht, ht, rfl⟩
    · obtain ⟨hmin, hmax, hnan⟩ := hz (written_pos h0)
      rw [fold_next hnull h0]
      refine ⟨?_, ?_, ?_⟩ <;> dsimp only
      · split <;> assumption
      · split <;> assumption
      · have hkeep : ∀ {a b : Value}, a.less b = true → a.isNaN = b.isNaN := fun h => by
          rw [(less_not_nan h).1, (less_not_nan h).2]
        split <;> split <;> rename_i hlow hhigh
        · rfl
        · rw [hkeep hlow, hnan]
        · rw [hnan, hkeep hhigh]
        · exact hnan

theorem admits_fold_self (hv : v.isNull = false) :
    (z.fold v).min.isNaN = true ∨ (z.fold v).Admits v := by
  rcases hn : (z.fold v).min.isNaN with _ | _
  · refine .inr (.inr ⟨hn, ?_⟩)
    by_cases hz : z.count = 0
    · rw [fold_first hv hz]
      exact ⟨less_of_place_eq rfl, less_of_place_eq rfl⟩
    · rw [fold_next hv hz]
      dsimp only
      constructor <;>
      · split
        · exact less_of_place_eq rfl
        · exact eq_false_iff.mpr ‹_›
  · exact .inl rfl

theorem covers_fold_self : (z.fold v).Covers v := by
  intro hv
  rw [fold_written, hv]
  exact ⟨Nat.succ_pos _, fun _ => admits_fold_self hv⟩

theorem Admits.fold (hw : z.Admits w) (hz : z.Typed t) (hpos : 0 < z.written)
    (hlt : (z.fold v).written < 2 ^ 32) (hwt : w.matchesType t = true) : (z.fold v).Admits w := by
  rcases hw with hnw | ⟨hnz, hlow, hhigh⟩
  · exact .inl hnw
  rcases hnw : w.isNaN with _ | _
  · obtain ⟨hmin, hmax, hnan⟩ := hz hpos
    refine .inr ⟨(fold_nan hpos hlt).1.trans hnz, ?_⟩
    rcases eq_false_or_eq_true v.isNull with hv | hv
    · rw [fold_null hv]
      exact ⟨hlow, hhigh⟩
    · rw [fold_written, hv] at hlt
      rw [fold_next hv (count_ne_zero hpos (Nat.lt_of_succ_lt hlt))]
      dsimp only
      constructor
      · split
        · rename_i h
          exact less_asymm (less_of_le_right (.of_type hmin hwt hnz hnw) hlow h)
        · exact hlow
      · split
        · rename_i h
          have ha := Value.Alike.of_type hwt hmax hnw (hnan ▸ hnz)
          exact less_asymm (less_of_le_left ha hhigh h)
        · exact hhigh
  · exact .inl hnw

theorem Covers.fold (hw : z.Covers w) (hz : z.Typed t)
    (ht : w.isNull = true ∨ w.matchesType t = true) : (z.fold v).Covers w := by
  intro hnull
  obtain ⟨hpos, hbound⟩ := hw hnull
  have hwt : w.matchesType t = true := by simpa [hnull] using ht
  have hle : z.written ≤ (z.fold v).written := by
    rw [fold_written]
    exact Nat.le_add_right _ _
  refine ⟨hpos.trans_le hle, fun hlt => ?_⟩
  rw [(fold_nan hpos hlt).1]
  exact (hbound (hle.trans_lt hlt)).imp_right fun h => h.fold hz hpos hlt hwt

theorem Widened.refl (z : ZoneBlock) : z.Widened z := ⟨le_refl _, fun _ _ => rfl⟩

theorem Widened.trans (h : z.Widened z') (h' : z'.Widened z'') : z.Widened z'' := by
  refine ⟨h.1.trans h'.1, fun hpos hlt => ?_⟩
  exact (h'.2 (hpos.trans_le h.1) hlt).trans (h.2 hpos (h'.1.trans_lt hlt))

theorem widened_fold (z : ZoneBlock) (v : Value) : z.Widened (z.fold v) := by
  refine ⟨?_, fun hpos hlt => (fold_nan hpos hlt).1⟩
  rw [fold_written]
  exact Nat.le_add_right _ _

theorem Widened.fold (h : z.Widened z') (hv : v.isNull = false → 0 < z.written) :
    (z.fold v).Widened (z'.fold v) := by
  rcases eq_false_or_eq_true v.isNull with hnull | hnull
  · rwa [fold_null hnull, fold_null hnull]
  · have hpos := hv hnull
    refine ⟨?_, fun _ hlt => ?_⟩
    · rw [fold_written, fold_written]
      exact Nat.add_le_add_right h.1 _
    · have hlt' : z'.written + 1 < 2 ^ 32 := by rwa [fold_written, hnull] at hlt
      have hz : (z.fold v).written < 2 ^ 32 := by
        rw [fold_written, hnull]
        exact (Nat.add_le_add_right h.1 _).trans_lt hlt'
      rw [(fold_nan (hpos.trans_le h.1) hlt).1, (fold_nan hpos hz).1]
      exact h.2 hpos (Nat.lt_of_succ_lt hlt')

theorem eval_nan (hn : v.isNaN = true) (he : op.eval v lit = true) : op = .ne := by
  have hless : v.less lit = false := eq_false_iff.mpr fun h =>
    false_ne_true ((less_not_nan h).1.symm.trans hn)
  have hmore : lit.less v = false := eq_false_iff.mpr fun h =>
    false_ne_true ((less_not_nan h).2.symm.trans hn)
  have hequal : v.equal lit = false := eq_false_iff.mpr fun h =>
    false_ne_true ((equal_place h).2.symm.trans hn)
  unfold CmpOp.eval at he
  split at he
  · cases he
  · cases op <;> simp_all

theorem canSkip_eval (hz : z.Typed t) (ha : z.Admits v) (hv : v.matchesType t = true)
    (he : op.eval v lit = true) : z.canSkip op lit = false := by
  by_cases h0 : z.count = 0
  · exact if_pos h0
  obtain ⟨hmin, hmax, hnan⟩ := hz (written_pos h0)
  rcases hnv : v.isNaN with _ | _
  · obtain ⟨hn, hlow, hhigh⟩ : z.min.isNaN = false ∧ v.less z.min = false ∧
        z.max.less v = false := by simpa [Admits, hnv] using ha
    have hmina : Value.Alike z.min v := .of_type hmin hv hn hnv
    have hmaxa : Value.Alike v z.max := .of_type hv hmax hnv (hnan ▸ hn)
    have hbelow : lit.less z.min = true → lit.less v = true := less_of_le_right hmina hlow
    have habove : z.max.less lit = true → v.less lit = true := less_of_le_left hmaxa hhigh
    have heq : v.equal lit = true → v.less lit = false ∧ lit.less v = false :=
      equal_not_less
    have hasymm : v.less lit = true → lit.less v = false := less_asymm
    unfold CmpOp.eval at he
    split at he
    · cases he
    · unfold canSkip
      rw [if_neg h0]
      cases op with
      | lt => simpa using less_of_le_left hmina hlow he
      | gt => simpa using less_of_le_right hmaxa hhigh he
      | ne => rfl
      | eq | le | ge => grind
  · rw [eval_nan hnv he]
    simp [canSkip]

theorem canSkip_nan (h0 : z.count ≠ 0) (hmin : z.min.isNaN = true)
    (hmax : z.max.isNaN = true) : z.canSkip op lit = (op == .lt || op == .gt) := by
  have hless : ∀ {a b : Value}, a.isNaN = true ∨ b.isNaN = true → a.less b = false := by
    intro a b hab
    refine eq_false_iff.mpr fun h => ?_
    simp [less_not_nan h] at hab
  unfold canSkip
  rw [if_neg h0]
  cases op <;> simp [hless, hmin, hmax]

theorem exists_skipped_nan (h0 : z.count ≠ 0) (hz : z.Typed t) (hn : z.min.isNaN = true)
    (hv : v.matchesType t = true) (hvn : v.isNaN = false) :
    ∃ op lit, op.eval v lit = true ∧ z.canSkip op lit = true := by
  obtain ⟨hmin, -, hnan⟩ := hz (written_pos h0)
  have hskip : ∀ op lit, z.canSkip op lit = (op == .lt || op == .gt) := fun op lit =>
    canSkip_nan h0 hn (hnan ▸ hn)
  obtain ⟨x, hx⟩ : ∃ x, v.asFloat = some x := by
    -- text and bytes are never NaN
    cases t <;> cases v <;> cases hv <;> first
      | exact ⟨_, rfl⟩
      | cases hb : z.min <;> rw [hb] at hmin hn <;> first | cases hn | cases hmin
  have hnull : v.isNull = false := by cases v <;> cases hx <;> rfl
  have hxn : x.isNaN = false := by simpa [Value.isNaN, hx] using hvn
  rcases lt_or_ge x.key (⟨0x7ff0000000000000⟩ : Float64).key with hlt | hge
  · refine ⟨.lt, .float ⟨0x7ff0000000000000⟩, ?_, by rw [hskip]; rfl⟩
    have hless : x.lt ⟨0x7ff0000000000000⟩ = true := Float64.lt_eq_true.mpr ⟨hxn, by decide, hlt⟩
    rw [CmpOp.eval, hnull, less_num hx]
    simpa [Value.isNull, Value.asFloat] using hless
  · refine ⟨.gt, .float ⟨0xfff0000000000000⟩, ?_, by rw [hskip]; rfl⟩
    have hless : (⟨0xfff0000000000000⟩ : Float64).lt x = true := by
      refine Float64.lt_eq_true.mpr ⟨by decide, hxn, lt_of_lt_of_le ?_ hge⟩
      decide
    rw [CmpOp.eval, hnull, less_num rfl, hx]
    simpa [Value.isNull] using hless

/-- Some comparison that the value passes lets a filter skip a block that does not admit it. -/
theorem exists_skipped (h0 : z.count ≠ 0) (hz : z.Typed t) (ha : ¬ z.Admits v)
    (hnull : v.isNull = false) (hv : v.matchesType t = true) :
    ∃ op lit, op.eval v lit = true ∧ z.canSkip op lit = true := by
  unfold Admits at ha
  obtain ⟨hvn, hbounds⟩ : v.isNaN = false ∧
      ¬ (z.min.isNaN = false ∧ v.less z.min = false ∧ z.max.less v = false) := by
    simpa using ha
  rcases hn : z.min.isNaN with _ | _
  · refine ⟨.eq, v, by simp [CmpOp.eval, hnull, equal_self hvn], ?_⟩
    have hout : v.less z.min = true ∨ z.max.less v = true := by grind
    rw [canSkip.eq_def, if_neg h0]
    simpa using hout
  · exact exists_skipped_nan h0 hz hn hv hvn

theorem Widened.canSkip_eq (h : z.Widened z') (hz : z.Typed t) (hz' : z'.Typed t)
    (hc : z.Covers v) (hc' : z'.Covers v) (hlt : z'.written < 2 ^ 32)
    (hv : v.isNull = true ∨ v.matchesType t = true) (he : op.eval v lit = true) :
    z'.canSkip op lit = z.canSkip op lit := by
  have hnull : v.isNull = false := by
    unfold CmpOp.eval at he
    split at he
    · cases he
    · simp_all
  have ht : v.matchesType t = true := by simpa [hnull] using hv
  obtain ⟨hpos, hin⟩ := hc hnull
  obtain ⟨hpos', hin'⟩ := hc' hnull
  have hlow := h.1.trans_lt hlt
  have hsame := h.2 hpos hlt
  rcases hn : z.min.isNaN with _ | _
  · have ha : z.Admits v := by simpa [hn] using hin hlow
    have ha' : z'.Admits v := by simpa [hsame, hn] using hin' hlt
    rw [canSkip_eval hz ha ht he, canSkip_eval hz' ha' ht he]
  · have hn' := hsame.trans hn
    rw [canSkip_nan (count_ne_zero hpos hlow) hn ((hz hpos).2.2 ▸ hn),
      canSkip_nan (count_ne_zero hpos' hlt) hn' ((hz' hpos').2.2 ▸ hn')]

end ZoneBlock

section Skip

variable {zones zones' : ColID → ℕ → ZoneBlock} {block : ℕ} {get : ColID → Value}

mutual

theorem blockSkippable_eval (h : ∀ col op lit, op.eval (get col) lit = true →
    (zones col block).canSkip op lit = false) :
    ∀ pred : Predicate, pred.eval get = true → blockSkippable zones block pred = false
  | .compare col op lit, he => h col op lit he
  | .and terms, he => anySkippable_eval h terms he
  | .isNull _ _, _ | .or _, _ | .not _, _ | .always, _ => rfl

theorem anySkippable_eval (h : ∀ col op lit, op.eval (get col) lit = true →
    (zones col block).canSkip op lit = false) :
    ∀ terms : List Predicate, evalAll get terms = true → anySkippable zones block terms = false
  | [], _ => rfl
  | t :: ts, he => by
    simp only [evalAll, Bool.and_eq_true] at he
    rw [anySkippable, blockSkippable_eval h t he.1, anySkippable_eval h ts he.2, Bool.or_false]

end

mutual

theorem blockSkippable_eq (h : ∀ col op lit, op.eval (get col) lit = true →
    (zones' col block).canSkip op lit = (zones col block).canSkip op lit) :
    ∀ pred : Predicate, pred.eval get = true →
      blockSkippable zones' block pred = blockSkippable zones block pred
  | .compare col op lit, he => h col op lit he
  | .and terms, he => anySkippable_eq h terms he
  | .isNull _ _, _ | .or _, _ | .not _, _ | .always, _ => rfl

theorem anySkippable_eq (h : ∀ col op lit, op.eval (get col) lit = true →
    (zones' col block).canSkip op lit = (zones col block).canSkip op lit) :
    ∀ terms : List Predicate, evalAll get terms = true →
      anySkippable zones' block terms = anySkippable zones block terms
  | [], _ => rfl
  | t :: ts, he => by
    simp only [evalAll, Bool.and_eq_true] at he
    rw [anySkippable, anySkippable, blockSkippable_eq h t he.1, anySkippable_eq h ts he.2]

end

end Skip

end VecDb.Storage

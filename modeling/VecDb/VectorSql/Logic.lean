import VecDb.Base.Kleene
import VecDb.VectorSql.Binder

/-! # What a filter means

A filter is a formula over comparisons and tests for null, where a comparison with a null is
unknown and numbers are compared as they are. The predicate that it is bound to compares integers as
doubles, and reads the unknown as false at once, so that a negation above it turns it into true.
-/

namespace VecDb.VectorSql

open Fallible Storage

open Storage (Value Predicate CmpOp ColID)

/-- The value of a double in units of the smallest one; an infinity is beyond all others. -/
def units (f : Float64) : ℤ :=
  let e := f.magnitude / 2 ^ 52
  let m := f.magnitude % 2 ^ 52
  let n : ℕ := if e = 0 then m else (2 ^ 52 + m) * 2 ^ (e - 1)
  if f.bits.toNat < 2 ^ 63 then n else -n

/-- The same for the values that are numbers. -/
def number : Value → Option ℤ
  | .int i | .timestamp i => some (i.toInt * 2 ^ 1074)
  | .float f => if f.isNaN then none else some (units f)
  | _ => none

/-- The comparison of SQL: numbers by their values, all else as the engine compares it. -/
def sqlLess (v o : Value) : Bool :=
  match number v, number o with
  | some a, some b => decide (a < b)
  | _, _ => v.less o

def sqlEqual (v o : Value) : Bool :=
  match number v, number o with
  | some a, some b => decide (a = b)
  | _, _ => v.equal o

example : sqlLess (.int 9007199254740992) (.int 9007199254740993) = true ∧
    Value.less (.int 9007199254740992) (.int 9007199254740993) = false := by decide +kernel

/-- An atom of a filter: a column beside a literal, which may be the left operand, or a column
that is tested for null. -/
inductive Test
  | compare (op : CmpOp) (col : ColID) (lit : Value) (literalFirst : Bool)
  | isNull (col : ColID) (negate : Bool)

namespace Test

/-- A comparison, given whether the first value is less, they are equal, and the second one is
less. -/
def holds (less equal greater : Bool) : CmpOp → Bool
  | .eq => equal
  | .ne => !equal
  | .lt => less
  | .le => less || equal
  | .gt => greater
  | .ge => greater || equal

/-- The value of a test by a comparison of values. -/
def value (less equal : Value → Value → Bool) (get : ColID → Value) : Test → Option Bool
  | compare op col lit literalFirst =>
    let v := get col
    if v.isNull ∨ lit.isNull then none
    else if literalFirst then some (holds (less lit v) (equal v lit) (less v lit) op)
    else some (holds (less v lit) (equal v lit) (less lit v) op)
  | isNull col negate => some ((get col).isNull != negate)

def truth (get : ColID → Value) : Test → Option Bool := value sqlLess sqlEqual get

/-- What the engine takes the test for. -/
def read (get : ColID → Value) (t : Test) : Bool := (value Value.less Value.equal get t).getD false

end Test

section Meaning

variable (coll : Catalog.Collection)

/-- A comparison of a named column with a literal, which is taken as the column's type says. -/
def comparison (op : CmpOp) (name : Bytes) (lit : Expr) (literalFirst : Bool) : Option Test := do
  let col ← coll.colID name
  let v ← (bindLiteral (coll.schema.column name) lit).toOption
  return .compare op col v literalFirst

/-- The formula that an expression stands for, if it is one of comparisons and tests for null. -/
def formula : Expr → Option (Formula Test)
  | .binary .and l r => do return .and (← formula l) (← formula r)
  | .binary .or l r => do return .or (← formula l) (← formula r)
  | .binary op (.columnRef _ name) lit => do
    return .atom (← comparison coll (← cmpOpOf op) name lit false)
  | .binary op lit (.columnRef _ name) => do
    return .atom (← comparison coll (← cmpOpOf op) name lit true)
  | .unary .not e => (formula e).map .not
  | .isNull (.columnRef _ name) negate =>
    (coll.colID name).map fun col => .atom (.isNull col negate)
  | _ => none

/-- The value of an expression in a row by three-valued logic. -/
def sqlTruth (get : ColID → Value) (e : Expr) : Option Bool :=
  (formula coll e).bind fun φ => φ.truth (Test.truth get)

/-- The expression is read as true in a row where it is not, or as false where it is true, because
of comparisons with a null and of numbers that compare otherwise as doubles. -/
def Misjudged (get : ColID → Value) (e : Expr) : Prop :=
  ∃ φ, formula coll e = some φ ∧ (φ.Misread (Test.truth get) (Test.read get) true ∨
    φ.truth (Test.truth get) = some true ∧ φ.Misread (Test.truth get) (Test.read get) false)

end Meaning

theorem evalAll_append (get : ColID → Value) (ps qs : List Predicate) :
    evalAll get (ps ++ qs) = (evalAll get ps && evalAll get qs) := by
  induction ps with
  | nil => rfl
  | cons p ps ih => rw [List.cons_append, evalAll, ih, evalAll, Bool.and_assoc]

theorem evalAny_append (get : ColID → Value) (ps qs : List Predicate) :
    evalAny get (ps ++ qs) = (evalAny get ps || evalAny get qs) := by
  induction ps with
  | nil => rfl
  | cons p ps ih => rw [List.cons_append, evalAny, ih, evalAny, Bool.or_assoc]

variable {coll : Catalog.Collection} (get : ColID → Value) {p : Predicate} {name : Bytes}

theorem colID_of_resolveName {col : ColID} (h : resolveName coll name = .ok col) :
    coll.colID name = some col := by
  rw [resolveName] at h
  split at h
  · cases h
  · rename_i id hid
    split at h
    · cases h
    · cases h
      exact hid

theorem eval_of_comparison {op : CmpOp} {lit : Expr} (literalFirst : Bool)
    (h : compareColumn coll name (if literalFirst then flipOp op else op) lit = .ok p) :
    ∃ t, comparison coll op name lit literalFirst = some t ∧
      p.eval get = t.read get := by
  obtain ⟨col, hcol, h⟩ := bind_eq_ok.mp h
  obtain ⟨v, hv, h⟩ := bind_eq_ok.mp h
  cases h
  have hid := colID_of_resolveName hcol
  refine ⟨.compare op col v literalFirst, by simp [comparison, hid, hv, Except.toOption], ?_⟩
  rw [Predicate.eval, Test.read, Test.value]
  by_cases hnull : (get col).isNull ∨ v.isNull
  · cases literalFirst <;> simp [CmpOp.eval, hnull]
  · cases literalFirst <;> cases op <;> simp [CmpOp.eval, flipOp, hnull, Test.holds]

theorem eval_of_bindCompare {op : BinaryOp} {o : CmpOp} {l r : Expr}
    (hand : op ≠ .and) (hor : op ≠ .or) (ho : cmpOpOf op = some o)
    (h : bindCompare coll o l r = .ok p) : ∃ t, formula coll (.binary op l r) = some (.atom t) ∧
      p.eval get = t.read get := by
  rw [bindCompare.eq_def] at h
  split at h
  · rename_i table name
    obtain ⟨t, ht, hp⟩ := eval_of_comparison get false h
    exact ⟨t, by simp [formula, ho, ht], hp⟩
  · rename_i table name hl
    obtain ⟨t, ht, hp⟩ := eval_of_comparison get true h
    exact ⟨t, by simp [formula, ho, ht], hp⟩
  · cases h

/-- What the terms of a chain say together: all of them, or one in a chain of OR. -/
def chainEval (chain : Option BinaryOp) (terms : List Predicate) : Bool :=
  if chain = some .or then evalAny get terms else evalAll get terms

theorem chainEval_singleton (chain : Option BinaryOp) (p : Predicate) :
    chainEval get chain [p] = p.eval get := by
  rw [chainEval]
  split <;> simp [evalAny, evalAll]

theorem chainEval_of_bindTerms (e : Expr) (chain : Option BinaryOp) {terms : List Predicate}
    (h : bindTerms coll e chain = .ok terms) :
    ∃ φ, formula coll e = some φ ∧ chainEval get chain terms = φ.read (Test.read get) ∧
      (chain = none → ∃ p, terms = [p]) := by
  induction e, chain using bindTerms.induct generalizing terms with
  | case1 l r chain ihl ihr | case2 l r chain ihl ihr =>
    rw [bindTerms] at h
    obtain ⟨ps, hps, h⟩ := bind_eq_ok.mp h
    obtain ⟨qs, hqs, h⟩ := bind_eq_ok.mp h
    cases h
    obtain ⟨f, hf, hfe, -⟩ := ihl hps
    obtain ⟨g, hg, hge, -⟩ := ihr hqs
    refine ⟨_, by rw [formula, hf, hg]; rfl, ?_, ?_⟩
    · rw [Formula.read, ← hfe, ← hge]
      split
      · simp [chainEval, evalAll_append, evalAny_append, *]
      · rw [chainEval_singleton]
        simp [chainEval, Predicate.eval, evalAll_append, evalAny_append]
    · rintro rfl
      exact ⟨_, rfl⟩
  | case3 op l r chain hand hor o ho =>
    rw [bindTerms.eq_3 _ _ _ _ _ hand hor, ho] at h
    obtain ⟨p, hp, h⟩ := bind_eq_ok.mp h
    cases h
    obtain ⟨t, ht, he⟩ := eval_of_bindCompare get hand hor ho hp
    exact ⟨.atom t, ht, (chainEval_singleton get chain p).trans he, fun _ => ⟨p, rfl⟩⟩
  | case4 op l r chain hand hor ho =>
    rw [bindTerms.eq_3 _ _ _ _ _ hand hor, ho] at h
    cases h
  | case5 e chain ih =>
    rw [bindTerms] at h
    obtain ⟨ps, hps, h⟩ := bind_eq_ok.mp h
    cases h
    obtain ⟨f, hf, hfe, hp⟩ := ih hps
    obtain ⟨p, rfl⟩ := hp rfl
    rw [chainEval_singleton] at hfe
    refine ⟨.not f, by simp [formula, hf], ?_, fun _ => ⟨_, rfl⟩⟩
    rw [List.map_singleton, chainEval_singleton, Predicate.eval, hfe, Formula.read]
  | case6 op e chain hop =>
    cases op with
    | not => exact absurd rfl hop
    | neg => cases h
  | case7 e negate chain =>
    rw [bindTerms] at h
    obtain ⟨col, hcol, h⟩ := bind_eq_ok.mp h
    cases h
    rw [resolveColumn.eq_def] at hcol
    split at hcol
    · rename_i table name
      refine ⟨.atom (.isNull col negate), by simp [formula, colID_of_resolveName hcol], ?_,
        fun _ => ⟨_, rfl⟩⟩
      rw [chainEval_singleton, Predicate.eval]
      cases negate <;> simp [Formula.read, Test.read, Test.value]
    · cases hcol
  | case8 e chain hand hor hbin hnot hun hnull =>
    cases e with
    | binary op l r => exact absurd rfl (hbin op l r)
    | unary op e => exact absurd rfl (hun op e)
    | isNull e negate => exact absurd rfl (hnull e negate)
    | _ => cases h

theorem eval_of_bindPredicate {e : Expr} (h : bindPredicate coll e = .ok p) :
    ∃ φ, formula coll e = some φ ∧ p.eval get = φ.read (Test.read get) := by
  obtain ⟨terms, hterms, rfl⟩ := map_eq_ok.mp h
  obtain ⟨φ, hφ, he, hp⟩ := chainEval_of_bindTerms get e none hterms
  obtain ⟨p, rfl⟩ := hp rfl
  rw [chainEval_singleton] at he
  exact ⟨φ, hφ, he⟩

def ratedCollection : Catalog.Collection where
  schema := { name := ascii "docs"
              columns := [{ name := ascii "rating", kind := .metadata, dataType := .bigInt }] }
  id := 1
  identity := { auto := true }
  storageDef := { id := 1, dims := 2, codec := fp32Codec 2 }
  colIDs := [(ascii "rating", 1)]

end VecDb.VectorSql

import Mathlib.Data.List.Lex
import Mathlib.Data.Prod.Lex
import VecDb.Base.Float

/-! # Metadata values

The cells of a metadata column. Numbers of all kinds compare as doubles, text and bytes byte by
byte. On values of one kind, NaN apart, the comparison is a linear order.
-/

namespace VecDb.Storage

inductive Value
  | null
  | int (i : Int64)
  | float (f : Float64)
  | bool (b : Bool)
  | text (s : Bytes)
  | bytes (b : Bytes)
  | timestamp (ns : Int64)
  deriving DecidableEq

inductive ColType
  | int64 | float64 | bool | timestamp | text | bytes
  deriving DecidableEq

namespace Value

def isNull : Value → Bool
  | null => true
  | _ => false

def asFloat : Value → Option Float64
  | int i | timestamp i => some (.ofInt i.toInt)
  | float f => some f
  | bool b => some (.ofInt (if b then 1 else 0))
  | null | text _ | bytes _ => none

def s : Value → Bytes
  | text s => s
  | _ => []

def raw : Value → Bytes
  | bytes b => b
  | _ => []

def isString : Value → Bool
  | text _ | bytes _ => true
  | _ => false

def stringLess (a b : Bytes) : Bool := decide (a.map UInt8.toNat < b.map UInt8.toNat)

def cmpString (a b : Bytes) : Ordering :=
  if stringLess a b then .lt else if stringLess b a then .gt else .eq

def cmpFloat (a b : Float64) : Ordering := if a.lt b then .lt else if b.lt a then .gt else .eq

def order (v o : Value) : Option Ordering :=
  if v.isNull ∨ o.isNull then none
  else if v.isString ≠ o.isString then none
  else
    match v with
    | text s => some (cmpString s o.s)
    | bytes b => some (cmpString b o.raw)
    | _ =>
      match v.asFloat, o.asFloat with
      | some a, some b => some (cmpFloat a b)
      | _, _ => none

def equal (v o : Value) : Bool :=
  if v.isNull ∨ o.isNull then v.isNull && o.isNull
  else
    match v, o with
    | text s, text t => s = t
    | bytes b, bytes c => b = c
    | bool b, bool c => b = c
    | text _, _ | bytes _, _ | bool _, _ => false
    | v, o =>
      match v.asFloat, o.asFloat with
      | some a, some b => a.eq b
      | _, _ => false

def less (v o : Value) : Bool := v.order o = some .lt

def matchesType : Value → ColType → Bool
  | int _, .int64 | int _, .float64 | int _, .timestamp => true
  | float _, .float64 => true
  | bool _, .bool => true
  | timestamp _, .timestamp => true
  | text _, .text => true
  | bytes _, .bytes => true
  | _, _ => false

def isNaN (v : Value) : Bool := v.asFloat.any Float64.isNaN

section Order

variable {v o a b l : Value} {x : Float64}

/-- Where a value stands among those that it compares with. -/
def place : Value → Option (ℕ × (List ℕ ×ₗ ℤ))
  | text s => some (0, toLex (s.map UInt8.toNat, 0))
  | bytes b => some (1, toLex (b.map UInt8.toNat, 0))
  | v => v.asFloat.bind fun f => if f.isNaN then none else some (2, toLex ([], f.key))

theorem cmp_eq_lt {p q : Bool} :
    (if p then Ordering.lt else if q then .gt else .eq) = .lt ↔ p = true := by
  cases p <;> cases q <;> simp

theorem cmpString_lt {x y : Bytes} : cmpString x y = .lt ↔ stringLess x y = true := cmp_eq_lt

theorem cmpFloat_lt {y : Float64} : cmpFloat x y = .lt ↔ x.lt y = true := cmp_eq_lt

theorem less_num (hv : v.asFloat = some x) : v.less o = o.asFloat.any fun y => x.lt y := by
  cases v <;> cases hv <;> cases o <;>
    simp [less, order, isNull, isString, asFloat, cmpFloat_lt]

theorem place_num (hv : v.asFloat = some x) :
    v.place = if x.isNaN then none else some (2, toLex ([], x.key)) := by
  cases v <;> cases hv <;> rfl

theorem less_iff : v.less o = true ↔
    ∃ k p q, v.place = some (k, p) ∧ o.place = some (k, q) ∧ p < q := by
  cases hv : v.asFloat with
  | some x =>
    rw [less_num hv, place_num hv]
    cases ho : o.asFloat with
    | some y =>
      rw [place_num ho, Option.any_some, Float64.lt_eq_true]
      cases x.isNaN <;> cases y.isNaN <;> simp [Prod.Lex.toLex_lt_toLex]
    | none => cases x.isNaN <;> cases o <;> cases ho <;> simp [place, asFloat]
  | none =>
    cases v <;> cases hv <;> cases o <;> simp [less, order, isNull, isString, cmpString_lt, place,
      asFloat, s, raw, stringLess, Prod.Lex.toLex_lt_toLex]

theorem less_asymm (h : v.less o = true) : o.less v = false := by
  refine Bool.eq_false_iff.mpr fun h' => ?_
  obtain ⟨k, p, q, hv, ho, hlt⟩ := less_iff.mp h
  obtain ⟨k', q', p', ho', hv', hlt'⟩ := less_iff.mp h'
  cases hv.symm.trans hv'
  cases ho.symm.trans ho'
  exact lt_asymm hlt hlt'

theorem not_nan_of_place {x : ℕ × (List ℕ ×ₗ ℤ)} (h : v.place = some x) : v.isNaN = false := by
  cases v <;> simp_all [place, isNaN, asFloat]

theorem less_not_nan (h : v.less o = true) : v.isNaN = false ∧ o.isNaN = false := by
  obtain ⟨k, p, q, hv, ho, -⟩ := less_iff.mp h
  exact ⟨not_nan_of_place hv, not_nan_of_place ho⟩

theorem equal_self (h : v.isNaN = false) : v.equal v = true := by
  cases v with
  | null | bool | text | bytes => simp [equal, isNull]
  | int i | timestamp i | float f => simpa [equal, isNull, isNaN, asFloat, Float64.eq] using h

theorem equal_cases (h : v.equal o = true) : v = o ∧ v.asFloat.any Float64.isNaN = false ∨
      ∃ x y, v.asFloat = some x ∧ o.asFloat = some y ∧ x.eq y = true := by
  cases v <;> cases o <;> simp_all [equal, isNull, asFloat]
  all_goals decide +revert

theorem equal_place (h : v.equal o = true) : v.place = o.place ∧ v.isNaN = false := by
  rcases equal_cases h with ⟨rfl, hn⟩ | ⟨x, y, hx, hy, he⟩
  · exact ⟨rfl, hn⟩
  · obtain ⟨hxn, hyn, hkey⟩ := Float64.eq_eq_true.mp he
    rw [place_num hx, place_num hy, hxn, hyn, hkey, isNaN, hx]
    exact ⟨rfl, hxn⟩

theorem less_of_place_eq (h : v.place = o.place) : v.less o = false := by
  refine Bool.eq_false_iff.mpr fun hlt => ?_
  obtain ⟨k, p, q, hp, hq, hlt⟩ := less_iff.mp hlt
  cases (hp.symm.trans h).trans hq
  exact lt_irrefl p hlt

theorem equal_not_less (h : v.equal o = true) : v.less o = false ∧ o.less v = false :=
  ⟨less_of_place_eq (equal_place h).1, less_of_place_eq (equal_place h).1.symm⟩

/-- Two values of one kind, neither of them NaN. -/
inductive Alike : Value → Value → Prop
  | text (x y : Bytes) : Alike (text x) (text y)
  | bytes (x y : Bytes) : Alike (bytes x) (bytes y)
  | num {a b : Value} {x y : Float64} : a.asFloat = some x → b.asFloat = some y →
      x.isNaN = false → y.isNaN = false → Alike a b

theorem Alike.of_type {t : ColType} (ha : a.matchesType t = true) (hb : b.matchesType t = true)
    (hna : a.isNaN = false) (hnb : b.isNaN = false) : Alike a b := by
  cases t with
  | text =>
    cases a <;> cases ha
    cases b <;> cases hb
    exact .text _ _
  | bytes =>
    cases a <;> cases ha
    cases b <;> cases hb
    exact .bytes _ _
  | _ => cases a <;> cases ha <;> cases b <;> cases hb <;> exact .num rfl rfl hna hnb

theorem Alike.place (h : Alike a b) : ∃ k p q, a.place = some (k, p) ∧ b.place = some (k, q) := by
  cases h with
  | text | bytes => exact ⟨_, _, _, rfl, rfl⟩
  | num ha hb hx hy =>
    rw [place_num ha, place_num hb, hx, hy]
    exact ⟨_, _, _, rfl, rfl⟩

theorem less_of_le_left (hab : Alike a b) (h : b.less a = false) (hl : b.less l = true) :
    a.less l = true := by
  obtain ⟨k, p, q, ha, hb⟩ := hab.place
  obtain ⟨k', q', z, hb', hz, hlt⟩ := less_iff.mp hl
  cases hb.symm.trans hb'
  have hle : ¬ q < p := fun hlt => Bool.eq_false_iff.mp h (less_iff.mpr ⟨k, q, p, hb, ha, hlt⟩)
  exact less_iff.mpr ⟨k, p, z, ha, hz, (not_lt.mp hle).trans_lt hlt⟩

theorem less_of_le_right (hab : Alike a b) (h : b.less a = false) (hl : l.less a = true) :
    l.less b = true := by
  obtain ⟨k, p, q, ha, hb⟩ := hab.place
  obtain ⟨k', z, p', hz, ha', hlt⟩ := less_iff.mp hl
  cases ha.symm.trans ha'
  have hle : ¬ q < p := fun hlt => Bool.eq_false_iff.mp h (less_iff.mpr ⟨k, q, p, hb, ha, hlt⟩)
  exact less_iff.mpr ⟨k, z, q, hz, hb, hlt.trans_le (not_lt.mp hle)⟩

end Order

end Value

end VecDb.Storage

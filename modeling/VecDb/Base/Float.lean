import VecDb.Base.Decimal

/-! # Numbers in binary

A number is its 32 or 64 bits, compared as in IEEE 754. Integers are rounded to the nearest
number, ties to even. Which digits a double is written with, and which double is nearest to a
text, is left to the platform.
-/

namespace VecDb

structure Float32 where
  bits : UInt32
  deriving DecidableEq, Inhabited

namespace Float32

def magnitude (f : Float32) : ℕ := f.bits.toNat % 2 ^ 31

def isNaN (f : Float32) : Bool := decide (0xff * 2 ^ 23 < f.magnitude)

def isInf (f : Float32) : Bool := decide (f.magnitude = 0xff * 2 ^ 23)

/-- Numbers other than NaN are ordered like these integers. -/
def key (f : Float32) : ℤ := if f.bits.toNat < 2 ^ 31 then f.magnitude else -f.magnitude

def lt (a b : Float32) : Bool := !a.isNaN && !b.isNaN && decide (a.key < b.key)

def eq (a b : Float32) : Bool := !a.isNaN && !b.isNaN && decide (a.key = b.key)

def neg (a : Float32) : Float32 := ⟨a.bits ^^^ 0x80000000⟩

end Float32

structure Float64 where
  bits : UInt64
  deriving DecidableEq

namespace Float64

def magnitude (f : Float64) : ℕ := f.bits.toNat % 2 ^ 63

def isNaN (f : Float64) : Bool := decide (0x7ff * 2 ^ 52 < f.magnitude)

def key (f : Float64) : ℤ := if f.bits.toNat < 2 ^ 63 then f.magnitude else -f.magnitude

def lt (a b : Float64) : Bool := !a.isNaN && !b.isNaN && decide (a.key < b.key)

def eq (a b : Float64) : Bool := !a.isNaN && !b.isNaN && decide (a.key = b.key)

def le (a b : Float64) : Bool := a.lt b || a.eq b

/-- Drop the low bits of a number, rounding to the nearest, ties to even. -/
def dropBits (m s : ℕ) : ℕ :=
  let q := m / 2 ^ s
  let r := m % 2 ^ s
  if 2 ^ (s - 1) < r ∨ r = 2 ^ (s - 1) ∧ q % 2 = 1 then q + 1 else q

/-- The magnitude of the number nearest to a natural number. -/
def nearestBits (m : ℕ) : ℕ :=
  if m = 0 then 0
  else
    let e := m.log2
    -- the significand has its leading one, which carries into the exponent field
    (e + 1022) * 2 ^ 52 + if e ≤ 52 then m * 2 ^ (52 - e) else dropBits m (e - 52)

def ofInt (i : ℤ) : Float64 :=
  ⟨UInt64.ofNat ((if i < 0 then 2 ^ 63 else 0) + nearestBits i.natAbs)⟩

theorem lt_eq_true {a b : Float64} :
    a.lt b = true ↔ a.isNaN = false ∧ b.isNaN = false ∧ a.key < b.key := by
  simp [lt, and_assoc]

theorem eq_eq_true {a b : Float64} :
    a.eq b = true ↔ a.isNaN = false ∧ b.isNaN = false ∧ a.key = b.key := by
  simp [eq, and_assoc]

example : ofInt 1 = ⟨0x3ff0000000000000⟩ := by decide

example : ofInt (-9007199254740993) = ofInt (-9007199254740992) := by decide

def neg (a : Float64) : Float64 := ⟨a.bits ^^^ 0x8000000000000000⟩

structure Ops where
  add : Float64 → Float64 → Float64
  sub : Float64 → Float64 → Float64
  mul : Float64 → Float64 → Float64
  div : Float64 → Float64 → Float64
  max : Float64 → Float64 → Float64
  ceil : Float64 → Float64
  sqrt : Float64 → Float64
  log2 : Float64 → Float64
  /-- Cut off the fraction. -/
  toInt : Float64 → ℤ

end Float64

structure DecimalFloat where
  whole : ℕ
  frac : List (Fin 10)
  deriving DecidableEq

structure FloatText where
  /-- The shortest decimal from which the absolute value of a double is read back. -/
  shortest64 : Float64 → DecimalFloat
  /-- The same for single precision. -/
  shortest32 : Float32 → DecimalFloat
  /-- The double nearest to a decimal, nothing if the text is no number or out of range. -/
  parseFloat : Bytes → Option Float64
  widen : Float32 → Float64

/-- The conversions of the platform for vectors and for answers as well. -/
structure Strconv extends FloatText where
  /-- The single nearest to a decimal, nothing if the text is no number or out of range. -/
  parseFloat32 : Bytes → Option Float32
  /-- The shortest text of a double, with an exponent if that is large. -/
  general64 : Float64 → Bytes
  /-- The same for single precision. -/
  general32 : Float32 → Bytes

end VecDb

import VecDb.Base.Bytes

/-! # JSON values

Numbers keep the form they are written in. A value is decoded into a field of a given type: a null
leaves the field as it was, every other mismatch is an error.
-/

namespace VecDb

structure JsonNumber where
  negative : Bool
  whole : ℕ
  fraction : Option (List (Fin 10))
  exponent : Option ℤ
  deriving DecidableEq

namespace JsonNumber

def integer (n : JsonNumber) : ℤ := if n.negative then -n.whole else n.whole

def fractionValue : List (Fin 10) → ℚ
  | [] => 0
  | d :: ds => (d.val + fractionValue ds) / 10

def value (n : JsonNumber) : ℚ :=
  (if n.negative then -1 else 1) * (n.whole + fractionValue (n.fraction.getD [])) *
    10 ^ n.exponent.getD 0

def Plain (n : JsonNumber) : Prop := n.fraction = none ∧ n.exponent = none

instance (n : JsonNumber) : Decidable n.Plain := inferInstanceAs (Decidable (_ ∧ _))

theorem value_of_plain {n : JsonNumber} (h : n.Plain) : n.value = n.integer := by
  obtain ⟨hf, he⟩ := h
  rw [value, integer, hf, he]
  cases n.negative <;> simp [fractionValue]

end JsonNumber

inductive Json
  | null
  | bool (b : Bool)
  | num (n : JsonNumber)
  | str (s : Bytes)
  | arr (items : List Json)
  | obj (members : List (Bytes × Json))

namespace Json

/-- Decode into a string that holds a value already. -/
def intoString (old : Bytes) : Json → Option Bytes
  | null => some old
  | str s => some s
  | _ => none

/-- A key as the names of a structure's fields are compared with it, without regard to case. -/
def foldName (key : Bytes) : Bytes := key.map fun c => if 65 ≤ c ∧ c ≤ 90 then c + 32 else c

/-- Decode into a new 64-bit integer, which is only written in plain digits. -/
def intoInt64 : Json → Option Int64
  | null => some 0
  | num n =>
    if n.Plain ∧ -2 ^ 63 ≤ n.integer ∧ n.integer < 2 ^ 63 then some (Int64.ofInt n.integer)
    else none
  | _ => none

/-- Decode into a map from keys to values; of two members with one key the last one stays. -/
def intoMap : Json → Option (List (Bytes × Json))
  | null => some []
  | obj members => some members.reverse
  | _ => none

/-- Decode into a list of strings; what is no string leaves an empty one. -/
def intoStrings : Json → List Bytes
  | arr items => items.map fun j => (j.intoString []).getD []
  | _ => []

theorem intoInt64_num {n : JsonNumber} {e : Int64} (h : (num n).intoInt64 = some e) :
    n.value = e.toInt := by
  rw [intoInt64] at h
  split at h
  · rename_i hn
    cases h
    rw [JsonNumber.value_of_plain hn.1, Int64.toInt_ofInt_of_le hn.2.1 hn.2.2]
  · cases h

end Json

end VecDb

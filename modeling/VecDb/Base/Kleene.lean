import Mathlib.Tactic.Tauto

/-! # Three-valued logic

Formulas take one of three truth values. A reader that takes its atoms to be true or false, some of
them wrongly, misreads a formula when the wrong ones decide it.
-/

namespace VecDb

inductive Formula (α : Type*)
  | atom (a : α)
  | not (f : Formula α)
  | and (f g : Formula α)
  | or (f g : Formula α)

namespace Formula

variable {α : Type*}

/-- The value by Kleene's tables; `none` is unknown. -/
def truth (v : α → Option Bool) : Formula α → Option Bool
  | atom a => v a
  | not f => (truth v f).map (!·)
  | and f g =>
    match truth v f, truth v g with
    | some false, _ => some false
    | _, some false => some false
    | some true, some true => some true
    | _, _ => none
  | or f g =>
    match truth v f, truth v g with
    | some true, _ => some true
    | _, some true => some true
    | some false, some false => some false
    | _, _ => none

/-- The value if each atom is read as true or false. -/
def read (w : α → Bool) : Formula α → Bool
  | atom a => w a
  | not f => !read w f
  | and f g => read w f && read w g
  | or f g => read w f || read w g

/-- What makes two parts together misread as `b`: if both must be `b` for it, both are read so and
one of them wrongly; if one suffices, one is misread and the other one does not have that value. -/
def Spoilt (both b : Bool) (tf tg : Option Bool) (mf mf' mg mg' : Prop) : Prop :=
  if both then (mf ∨ tf = some b ∧ ¬ mf') ∧ (mg ∨ tg = some b ∧ ¬ mg') ∧ (mf ∨ mg)
  else mf ∧ tg ≠ some b ∨ mg ∧ tf ≠ some b

/-- The formula is read as `b` and does not have that value, because of the atoms that are. -/
def Misread (v : α → Option Bool) (w : α → Bool) : Bool → Formula α → Prop
  | b, atom a => w a = b ∧ v a ≠ some b
  | b, not f => Misread v w (!b) f
  | b, and f g => Spoilt b b (truth v f) (truth v g)
      (Misread v w b f) (Misread v w (!b) f) (Misread v w b g) (Misread v w (!b) g)
  | b, or f g => Spoilt (!b) b (truth v f) (truth v g)
      (Misread v w b f) (Misread v w (!b) f) (Misread v w b g) (Misread v w (!b) g)

variable {v : α → Option Bool} {w : α → Bool} {f : Formula α}

theorem misread_iff (b : Bool) : f.Misread v w b ↔ f.read w = b ∧ f.truth v ≠ some b := by
  induction f generalizing b with
  | atom a => rfl
  | not f ih =>
    rw [Misread, ih, read, truth]
    rcases f.truth v with _ | t
    · cases b <;> simp
    · cases b <;> cases t <;> simp
  | and f g ihf ihg | or f g ihf ihg =>
    simp only [Misread, Spoilt, ihf, ihg, read, truth]
    rcases f.truth v with _ | _ | _ <;> rcases g.truth v with _ | _ | _ <;>
      cases f.read w <;> cases g.read w <;> cases b <;> simp

theorem read_iff_truth : (f.read w = true ↔ f.truth v = some true) ↔
    ¬ (f.Misread v w true ∨ f.truth v = some true ∧ f.Misread v w false) := by
  rw [misread_iff, misread_iff]
  rcases f.truth v with _ | _ | _ <;> cases f.read w <;> simp

end Formula

end VecDb

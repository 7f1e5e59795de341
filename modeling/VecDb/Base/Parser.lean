import VecDb.Base.Fallible

/-! # Recursive-descent parsers

A parser takes tokens from the front of a list, or fails. A loop goes on as long as its body
gives a value; each round takes a token, so the length of the list bounds the rounds.
-/

namespace VecDb

abbrev Parser (τ ε α : Type) := StateT (List τ) (Except ε) α

namespace Parser

variable {τ ε α : Type}

/-- Go on as long as the body gives a value, for some rounds at most. -/
def iterate (next : α → Parser τ ε (Option α)) : ℕ → α → Parser τ ε α
  | 0, a => pure a
  | n + 1, a => do
    match ← next a with
    | none => pure a
    | some a => iterate next n a

def chain (next : α → Parser τ ε (Option α)) (a : α) : Parser τ ε α := fun ts =>
  iterate next ts.length a ts

/-- One item, and more of them as long as there is a separator. -/
def sepBy (item : Parser τ ε α) (sep : Parser τ ε Bool) : Parser τ ε (List α) := do
  let first ← item
  chain (fun items => do
    if ← sep then return some (items ++ [← item]) else return none) [first]

/-- As many marks as there are, for some rounds at most, before the rest. -/
def nest (mark : Parser τ ε Bool) (wrap : α → α) (rest : Parser τ ε α) : ℕ → Parser τ ε α
  | 0 => rest
  | n + 1 => do if ← mark then return wrap (← nest mark wrap rest n) else rest

def marked (mark : Parser τ ε Bool) (wrap : α → α) (rest : Parser τ ε α) : Parser τ ε α := fun ts =>
  nest mark wrap rest ts.length ts

end Parser

end VecDb

import VecDb.Base.Proto

/-! # The wire reader

Readers take values from the front of a buffer. A length of 64 bits is taken as a signed machine
integer and added to the position, which may wrap and turn back. Slicing out of range is a panic.
-/

namespace VecDb.Vecpb

open Proto (Schema Rule)

inductive WireError where
  | truncated
  | badWireType
  | overflow
  deriving DecidableEq

/-- How a read ends without a value. Being stuck is not having ended within the rounds given. -/
inductive Fault where
  | refused (e : WireError)
  | panic
  | stuck
  deriving DecidableEq

/-- A buffer and the position in it. The last field is no part of the program: it records
whether a position has ever turned back. -/
structure Reader where
  buf : Bytes
  pos : ℤ := 0
  rewound : Bool := false
  deriving DecidableEq

abbrev Read := EStateM Fault Reader

def wrap (x : ℤ) : ℤ := Int.bmod x (2 ^ 64)

namespace Reader

def done (r : Reader) : Bool := r.buf.length ≤ r.pos

def moveTo (r : Reader) (pos : ℤ) : Reader :=
  { r with pos, rewound := r.rewound || decide (pos < r.pos) }

end Reader

def refuse {α : Type} (e : WireError) : Read α := fun r => .error (.refused e) r

def readByte : Read UInt8 := fun r =>
  if r.done then .error (.refused .truncated) r
  else if r.pos < 0 then .error .panic r
  else .ok (r.buf.getD r.pos.toNat 0) (r.moveTo (r.pos + 1))

/-- The rest of a number, of which some groups of seven bits are there. The groups do not overlap,
so to combine them is to add them. -/
def readGroups : ℕ → ℕ → Read UInt64
  | 0, _ => do
    let _ ← readByte
    refuse .overflow
  | n + 1, x => do
    let b ← readByte
    let x := (x + b.toNat % 0x80 * 2 ^ (7 * (9 - n))) % 2 ^ 64
    if b < 0x80 then return UInt64.ofNat x else readGroups n x

def readVarint : Read UInt64 := readGroups 10 0

def readTag : Read (ℕ × ℕ) := do
  let key ← readVarint
  return (key.toNat / 8, key.toNat % 8)

def readFixed (n : ℕ) : Read Bytes := fun r =>
  if r.buf.length < wrap (r.pos + n) then .error (.refused .truncated) r
  else if r.pos < 0 then .error .panic r
  else .ok ((r.buf.drop r.pos.toNat).take n) (r.moveTo (wrap (r.pos + n)))

def readDouble : Read UInt64 := do return UInt64.ofNat (Bytes.getLE (← readFixed 8))

def readBytes : Read Bytes := do
  let n ← readVarint
  fun r =>
    let stop := wrap (r.pos + wrap n.toNat)
    if r.buf.length < stop then .error (.refused .truncated) r
    else if r.pos < 0 ∨ stop < r.pos then .error .panic r
    else .ok ((r.buf.take stop.toNat).drop r.pos.toNat) (r.moveTo stop)

def skipBytes (n : ℤ) : Read Unit := fun r =>
  if r.buf.length < wrap (r.pos + n) then .error (.refused .truncated) r
  else .ok () (r.moveTo (wrap (r.pos + n)))

def skip (wire : ℕ) : Read Unit :=
  match wire with
  | 0 => do let _ ← readVarint
  | 1 => skipBytes 8
  | 2 => do
    let n ← readVarint
    skipBytes (wrap n.toNat)
  | 5 => skipBytes 4
  | _ => refuse .badWireType

def within {α : Type} (p : Bytes) (a : Read α) : Read α := fun r =>
  match a { buf := p, rewound := r.rewound } with
  | .ok x s => .ok x { r with rewound := s.rewound }
  | .error e s => .error e { r with rewound := s.rewound }

def readPacked : ℕ → List UInt64 → Read (List UInt64)
  | 0, _ => throw .stuck
  | n + 1, xs => do
    if (← get).done then return xs
    let x ← readVarint
    readPacked n (xs ++ [x])

def readRepeatedUint64 (rounds wire : ℕ) (xs : List UInt64) : Read (List UInt64) :=
  match wire with
  | 0 => do return xs ++ [← readVarint]
  | 2 => do within (← readBytes) (readPacked rounds xs)
  | _ => refuse .badWireType

variable {S : Schema}

def field {σ : Type} (rounds : ℕ) (sub : (m : S.Msg) → Read (S.Carrier m))
    (rule : Option (Rule S.Carrier σ)) (wire : ℕ) (x : σ) : Read σ :=
  match rule with
  | some (.varint set) => do return set (← readVarint) x
  | some (.double set) => do return set (← readDouble) x
  | some (.bytes set) => do return set (← readBytes) x
  | some (.repeated get set) => do return set (← readRepeatedUint64 rounds wire (get x)) x
  | some (.message m set) => do
    let p ← readBytes
    return set (← within p (sub m)) x
  | none => do
    skip wire
    return x

/-- The loop that every decoder runs: a tag, and what its field holds. -/
def records (rounds : ℕ) (sub : (m : S.Msg) → Read (S.Carrier m)) (m : S.Msg) :
    ℕ → S.Carrier m → Read (S.Carrier m)
  | 0, _ => throw .stuck
  | n + 1, x => do
    if (← get).done then return x
    let (f, wire) ← readTag
    records rounds sub m n (← field rounds sub (S.rules m f) wire x)

/-- A decoder that runs for the given number of rounds at most, at each depth of messages. -/
def unmarshal (S : Schema) : ℕ → (m : S.Msg) → Read (S.Carrier m)
  | 0, _ => throw .stuck
  | n + 1, m => records (n + 1) (unmarshal S n) m (n + 1) (S.init m)

end VecDb.Vecpb

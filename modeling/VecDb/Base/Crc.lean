import VecDb.Base.Bytes

/-! # Reflected cyclic redundancy checks

The table-driven byte-at-a-time checksum with an all-ones preset and a final
complement, for any register width and reversed polynomial.
-/

namespace VecDb.Crc

variable {w : ℕ}

/-- One bit of polynomial division on the reflected register. -/
def shift (poly c : BitVec w) : BitVec w :=
  if c.getLsbD 0 then (c >>> 1) ^^^ poly else c >>> 1

/-- The table entry of a byte: eight divisions of its register. -/
def entry (poly i : BitVec w) : BitVec w := (shift poly)^[8] i

def byte (poly c : BitVec w) (x : UInt8) : BitVec w :=
  entry poly ((c ^^^ x.toBitVec.setWidth w) &&& BitVec.ofNat w 0xff) ^^^ (c >>> 8)

def checksum (poly : BitVec w) (b : Bytes) : BitVec w :=
  ~~~ (b.foldl (byte poly) (BitVec.allOnes w))

end VecDb.Crc

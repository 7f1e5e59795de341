import VecDb.Base.ByteFile

/-! # The in-memory file

A file keeps its live contents and the image last made durable by a sync. A
crash resets the live contents to the durable image.
-/

namespace VecDb.Vfs

/-- `memData`: the live and the durable bytes of one file. -/
structure MemData where
  live : Bytes
  durable : Bytes
  deriving DecidableEq

namespace MemData

def empty : MemData := ⟨[], []⟩

def size (d : MemData) : ℕ := d.live.length

/-- `ReadAt`: the bytes read, and whether the end of the file cut the read short. -/
def readAt (d : MemData) (off n : ℕ) : Bytes × Bool :=
  let p := Bytes.slice d.live off n
  (p, d.live.length ≤ off ∨ p.length < n)

def writeAt (d : MemData) (p : Bytes) (off : ℕ) : MemData :=
  { d with live := Bytes.writeAt d.live off p }

def sync (d : MemData) : MemData := { d with durable := d.live }

@[simp] theorem live_sync (d : MemData) : d.sync.live = d.live := rfl

@[simp] theorem live_writeAt (d : MemData) (p : Bytes) (off : ℕ) :
    (d.writeAt p off).live = Bytes.writeAt d.live off p := rfl

end MemData

end VecDb.Vfs

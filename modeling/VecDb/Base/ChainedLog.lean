import VecDb.Base.Bytes

/-! # Chained logs

Every frame of a chained log is encoded against a digest of the frames before
it, and decoding checks the digest. Reading a log from its seed recovers the
written frames, whatever bytes follow them, and stops inside a torn frame.
-/

namespace VecDb

open List

/-- Frames encoded against a running digest, with an exact decoder. -/
structure ChainCodec (σ F : Type*) where
  encode : σ → F → Bytes
  next : σ → F → σ
  decode : σ → Bytes → Option (F × Bytes)
  Fits : F → Prop
  encode_ne_nil : ∀ s f, encode s f ≠ []
  decode_encode : ∀ s f rest, Fits f → decode s (encode s f ++ rest) = some (f, rest)
  decode_sound : ∀ s b f rest, decode s b = some (f, rest) → Fits f ∧ b = encode s f ++ rest

namespace ChainCodec

variable {σ F : Type*} (C : ChainCodec σ F) {s : σ} {b rest : Bytes} {f : F}

def nextAll (s : σ) (fs : List F) : σ := fs.foldl C.next s

def encodeAll : σ → List F → Bytes
  | _, [] => []
  | s, f :: fs => C.encode s f ++ encodeAll (C.next s f) fs

@[simp] theorem nextAll_nil (s : σ) : C.nextAll s [] = s := rfl

@[simp] theorem nextAll_cons (s : σ) (f : F) (fs : List F) :
    C.nextAll s (f :: fs) = C.nextAll (C.next s f) fs := rfl

theorem nextAll_append (s : σ) (fs gs : List F) :
    C.nextAll s (fs ++ gs) = C.nextAll (C.nextAll s fs) gs := foldl_append ..

@[simp] theorem encodeAll_nil (s : σ) : C.encodeAll s [] = [] := rfl

@[simp] theorem encodeAll_cons (s : σ) (f : F) (fs : List F) :
    C.encodeAll s (f :: fs) = C.encode s f ++ C.encodeAll (C.next s f) fs := rfl

theorem encodeAll_append (s : σ) (fs gs : List F) :
    C.encodeAll s (fs ++ gs) = C.encodeAll s fs ++ C.encodeAll (C.nextAll s fs) gs := by
  induction fs generalizing s with
  | nil => rfl
  | cons f fs ih => simp [ih]

theorem encodeAll_concat (s : σ) (fs : List F) (f : F) :
    C.encodeAll s (fs ++ [f]) = C.encodeAll s fs ++ C.encode (C.nextAll s fs) f := by
  simp [encodeAll_append]

theorem decode_shorter (h : C.decode s b = some (f, rest)) : rest.length < b.length := by
  obtain ⟨_, rfl⟩ := C.decode_sound s b f rest h
  have := length_pos_iff.mpr (C.encode_ne_nil s f)
  simp only [length_append]; omega

theorem encode_prefix_free {f g : F} {x y : Bytes} (hf : C.Fits f) (hg : C.Fits g)
    (h : C.encode s f ++ x = C.encode s g ++ y) : f = g ∧ x = y := by
  have hd := C.decode_encode s f x hf
  rw [h, C.decode_encode s g y hg] at hd
  obtain ⟨rfl, rfl⟩ := Prod.mk.inj (Option.some.inj hd)
  exact ⟨rfl, rfl⟩

theorem decode_torn {p q : Bytes} (hf : C.Fits f) (hq : q ≠ [])
    (h : C.encode s f = p ++ q) : C.decode s p = none := by
  rcases hp : C.decode s p with _ | ⟨g, rest⟩
  · rfl
  · obtain ⟨hg, rfl⟩ := C.decode_sound s p g rest hp
    have he : C.encode s f ++ [] = C.encode s g ++ (rest ++ q) := by simpa using h
    obtain ⟨_, hr⟩ := C.encode_prefix_free hf hg he
    exact absurd (append_eq_nil_iff.mp hr.symm).2 hq

/-- Read frames as long as they decode: the frames, and the bytes left over. -/
def scan (s : σ) (b : Bytes) : List F × Bytes :=
  match h : C.decode s b with
  | none => ([], b)
  | some (f, rest) =>
    have := C.decode_shorter h
    let r := scan (C.next s f) rest
    (f :: r.1, r.2)
termination_by b.length

theorem scan_none {b : Bytes} (h : C.decode s b = none) : C.scan s b = ([], b) := by
  rw [scan]; split <;> simp_all

theorem scan_some (h : C.decode s b = some (f, rest)) :
    C.scan s b = (f :: (C.scan (C.next s f) rest).1, (C.scan (C.next s f) rest).2) := by
  rw [scan]; split <;> simp_all

theorem scan_encodeAll {fs : List F} (hf : ∀ f ∈ fs, C.Fits f) (rest : Bytes) :
    C.scan s (C.encodeAll s fs ++ rest) =
      (fs ++ (C.scan (C.nextAll s fs) rest).1, (C.scan (C.nextAll s fs) rest).2) := by
  induction fs generalizing s with
  | nil => rfl
  | cons f fs ih =>
    have hd := C.decode_encode s f (C.encodeAll (C.next s f) fs ++ rest) (hf f (by simp))
    rw [encodeAll_cons, append_assoc, C.scan_some hd, ih fun g hg => hf g (mem_cons_of_mem _ hg)]
    rfl

theorem scan_sound (s : σ) (b : Bytes) : (∀ f ∈ (C.scan s b).1, C.Fits f) ∧
      b = C.encodeAll s (C.scan s b).1 ++ (C.scan s b).2 ∧
      C.decode (C.nextAll s (C.scan s b).1) (C.scan s b).2 = none := by
  induction hn : b.length using Nat.strong_induction_on generalizing s b with
  | _ n ih =>
    rcases h : C.decode s b with _ | ⟨f, rest⟩
    · simp [C.scan_none h, h]
    · obtain ⟨hf, hb⟩ := C.decode_sound s b f rest h
      obtain ⟨h₁, h₂, h₃⟩ := ih rest.length (hn ▸ C.decode_shorter h) (C.next s f) rest rfl
      rw [C.scan_some h]
      refine ⟨?_, ?_, h₃⟩
      · simpa using ⟨hf, h₁⟩
      · rw [encodeAll_cons, append_assoc, ← h₂, hb]

end ChainCodec

end VecDb

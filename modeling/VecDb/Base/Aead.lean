import VecDb.Base.Bytes

/-! # Authenticated encryption with associated data

A scheme seals a plaintext under a key, a nonce and associated data. What is presented to it opens
only where it was sealed; no scheme of fixed tag length has that for every ciphertext there is.
-/

namespace VecDb

structure Aead where
  encrypt : (key nonce plaintext aad : Bytes) → Bytes
  decrypt : (key nonce ciphertext aad : Bytes) → Option Bytes

namespace Aead

def tagSize : ℕ := 16

structure Sealing where
  key : Bytes
  nonce : Bytes
  plaintext : Bytes
  aad : Bytes
  deriving DecidableEq

variable (A : Aead)

def Sealing.ciphertext (s : Sealing) : Bytes := A.encrypt s.key s.nonce s.plaintext s.aad

/-- For keys of 32 bytes and nonces of 12, what is sealed opens to the plaintext. -/
structure Correct : Prop where
  length_encrypt : ∀ key nonce plaintext aad,
    (A.encrypt key nonce plaintext aad).length = plaintext.length + tagSize
  decrypt_encrypt : ∀ key nonce plaintext aad, key.length = 32 → nonce.length = 12 →
    A.decrypt key nonce (A.encrypt key nonce plaintext aad) aad = some plaintext

/-- After the sealings of a list, a ciphertext opens only where it was sealed. -/
def Authentic (log : List Sealing) (key nonce ciphertext aad : Bytes) : Prop :=
  A.decrypt key nonce ciphertext aad ≠ none →
    (∃ s ∈ log, s.ciphertext A = ciphertext) ∧
    ∀ s ∈ log, s.ciphertext A = ciphertext → s.key = key ∧ s.nonce = nonce ∧ s.aad = aad

instance decidableAuthentic (log : List Sealing) (key nonce ciphertext aad : Bytes) :
    Decidable (A.Authentic log key nonce ciphertext aad) :=
  inferInstanceAs (Decidable (_ → _))

end Aead

end VecDb

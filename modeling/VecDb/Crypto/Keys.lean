import VecDb.Base.Aead
import VecDb.Base.Text

/-! # The key hierarchy

The data key of an epoch is derived from the master key, the key of a page from a data key, and
the nonce of a write from the key of its page. Key derivation and ciphers are parameters, with
what their documentation promises.
-/

namespace VecDb.Crypto

inductive Fault where
  | invalidSalt
  | invalidArgon2Params
  | invalidKeyLength
  | unknownCipher
  | noDEK
  | wrongPassphrase
  | notPassphrase
  | pageTooShort
  | pageAuthFailed (pageNo : UInt64) (pageClass : UInt8) (epoch : UInt16)
  | missingDEK (epoch : UInt16)
  /-- An error of the key derivation, or of the constructor of a cipher. -/
  | library
  deriving DecidableEq

inductive Cipher where
  | aes256GCM
  | chaCha20Poly1305
  | other (code : UInt8)
  deriving DecidableEq

structure Primitives where
  argon2id : (passphrase salt : Bytes) → (time memory : UInt32) → (threads : UInt8) → Bytes
  hkdf : (secret salt info : Bytes) → (length : ℕ) → Except Fault Bytes
  aesGCM : Aead
  chaCha20Poly1305 : Aead

/-- A key of at most 255 hashes can be derived, and the ciphers open what they seal. -/
structure Primitives.Documented (p : Primitives) : Prop where
  hkdf_ok : ∀ secret salt info n, n ≤ 255 * 32 →
    ∃ key, p.hkdf secret salt info n = .ok key ∧ key.length = n
  aesGCM : p.aesGCM.Correct
  chaCha20Poly1305 : p.chaCha20Poly1305.Correct

structure Argon2Params where
  time : UInt32
  memory : UInt32
  threads : UInt8
  salt : Bytes

variable (p : Primitives)

def masterKey (passphrase : Bytes) (q : Argon2Params) : Except Fault Bytes :=
  if q.salt.length ≠ 32 then .error .invalidSalt
  else if q.time = 0 ∨ q.memory = 0 ∨ q.threads = 0 then .error .invalidArgon2Params
  else .ok (p.argon2id passphrase q.salt q.time q.memory q.threads)

def masterKeyFromRaw (key : Bytes) : Except Fault Bytes :=
  if key.length ≠ 32 then .error .invalidKeyLength else .ok key

def dek (masterKey dbID : Bytes) (epoch : UInt16) : Except Fault Bytes :=
  p.hkdf masterKey dbID
    (ascii "vec-dek-v1-epoch-" ++ [epoch.toUInt8, (epoch >>> 8).toUInt8]) 32

def pageKey (dek : Bytes) (pageClass : UInt8) (pageNo : UInt64) : Except Fault Bytes :=
  p.hkdf dek [] (ascii "vpk-" ++ pageClass :: Bytes.le64 pageNo) 32

def copyInto (n : ℕ) (b : Bytes) : Bytes := (b ++ List.replicate n 0).take n

@[simp] theorem length_copyInto (n : ℕ) (b : Bytes) : (copyInto n b).length = n := by
  simp [copyInto]

/-- The nonce of a write. The last of the 21 bytes of the context is never set. -/
def deriveNonce (pk : Bytes) (pageNo lsn : UInt64) : Except Fault Bytes :=
  (p.hkdf pk [] (ascii "vnc-" ++ Bytes.le64 lsn ++ Bytes.le64 pageNo ++ [0]) 12).map (copyInto 12)

def buildAAD (pageNo : UInt64) (pageClass : UInt8) (lsn : UInt64) (epoch : UInt16) : Bytes :=
  Bytes.le64 pageNo ++ pageClass :: (Bytes.le64 lsn ++ Bytes.le16 epoch)

def newAESGCM (key : Bytes) : Except Fault Aead :=
  if key.length = 16 ∨ key.length = 24 ∨ key.length = 32 then .ok p.aesGCM else .error .library

def newChaCha (key : Bytes) : Except Fault Aead :=
  if key.length = 32 then .ok p.chaCha20Poly1305 else .error .library

/-- The AEAD of one page key. Whatever is not ChaCha20 is AES. -/
def Cipher.aead (c : Cipher) (pk : Bytes) : Except Fault Aead :=
  match c with
  | .chaCha20Poly1305 => newChaCha p pk
  | _ => newAESGCM p pk

def Cipher.scheme (c : Cipher) : Aead :=
  match c with
  | .chaCha20Poly1305 => p.chaCha20Poly1305
  | _ => p.aesGCM

def verificationConstant : Bytes := ascii "vec-verify-v1" ++ [0, 0, 0]

def verificationTag (masterKey : Bytes) : Except Fault Bytes := do
  let gcm ← newAESGCM p masterKey
  let sealed := gcm.encrypt masterKey (List.replicate 12 0) verificationConstant []
  pure (copyInto 16 (sealed.drop (sealed.length - 16)))

def verifyMasterKey (masterKey stored : Bytes) : Bool :=
  match verificationTag p masterKey with
  | .error _ => false
  | .ok tag => tag == stored

variable {p}

variable {cls : UInt8} {lsn no : UInt64} {pk : Bytes}

theorem le64_inj {v w : UInt64} (h : Bytes.le64 v = Bytes.le64 w) : v = w := by
  rw [← Bytes.getLE_le64 v, h, Bytes.getLE_le64]

theorem le16_inj {v w : UInt16} (h : Bytes.le16 v = Bytes.le16 w) : v = w := by
  rw [← Bytes.getLE_le16 v, h, Bytes.getLE_le16]

theorem buildAAD_inj {no' lsn' : UInt64} {cls' : UInt8} {epoch epoch' : UInt16}
    (h : buildAAD no cls lsn epoch = buildAAD no' cls' lsn' epoch') :
    no = no' ∧ cls = cls' ∧ lsn = lsn' ∧ epoch = epoch' := by
  obtain ⟨hno, h⟩ := List.append_inj h (by simp)
  obtain ⟨hcls, h⟩ := List.cons.inj h
  obtain ⟨hlsn, hepoch⟩ := List.append_inj h (by simp)
  exact ⟨le64_inj hno, hcls, le64_inj hlsn, le16_inj hepoch⟩

theorem dek_ok (hp : p.Documented) (mk dbID : Bytes) (epoch : UInt16) :
    ∃ key, dek p mk dbID epoch = .ok key := by
  obtain ⟨key, hkey, -⟩ := hp.hkdf_ok mk dbID _ 32 (by decide)
  exact ⟨key, hkey⟩

theorem pageKey_ok (hp : p.Documented) (key : Bytes) (cls : UInt8) (no : UInt64) :
    ∃ pk, pageKey p key cls no = .ok pk ∧ pk.length = 32 :=
  hp.hkdf_ok key [] _ 32 (by decide)

theorem length_pageKey (hp : p.Documented) {key : Bytes}
    (h : pageKey p key cls no = .ok pk) : pk.length = 32 := by
  obtain ⟨pk', hpk, hlen⟩ := pageKey_ok hp key cls no
  cases hpk.symm.trans h
  exact hlen

theorem length_deriveNonce {nonce : Bytes}
    (h : deriveNonce p pk no lsn = .ok nonce) : nonce.length = 12 := by
  unfold deriveNonce at h
  rcases hk : p.hkdf pk [] (ascii "vnc-" ++ Bytes.le64 lsn ++ Bytes.le64 no ++ [0]) 12 with e | key
  · rw [hk] at h
    cases h
  · rw [hk] at h
    cases h
    exact length_copyInto _ _

theorem Cipher.scheme_correct (hp : p.Documented) (c : Cipher) : (c.scheme p).Correct := by
  cases c with
  | chaCha20Poly1305 => exact hp.chaCha20Poly1305
  | aes256GCM | other code => exact hp.aesGCM

theorem Cipher.aead_eq (c : Cipher) (h : pk.length = 32) : c.aead p pk = .ok (c.scheme p) := by
  cases c <;> simp [aead, newChaCha, newAESGCM, scheme, h]

end VecDb.Crypto

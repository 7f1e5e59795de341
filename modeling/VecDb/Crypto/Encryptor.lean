import VecDb.Base.Assoc
import VecDb.Base.Fallible
import VecDb.Base.Memory
import VecDb.Crypto.Keys

/-! # The page encryptor

The encryptor keeps a slice with the data key of each epoch and seals pages under the current one.
Its keys change as those of a keyring, because no two epochs share a slice.
-/

namespace VecDb.Crypto

open List Fallible Function Assoc

open Memory (Ref)

structure PageEncryptor where
  cipher : Cipher
  dbID : Bytes
  deks : List (UInt16 × Ref)
  current : UInt16
  deriving DecidableEq

/-- What an encryptor is made of; the keys are slices of the caller. -/
structure EncryptorConfig where
  cipher : Cipher
  dbID : Bytes
  deks : List (UInt16 × Ref)
  current : UInt16

def keyOf (deks : List (UInt16 × Ref)) (m : Memory) (epoch : UInt16) : Option Bytes :=
  (deks.lookup epoch).map m.read

def copyDEKs : List (UInt16 × Ref) → List (UInt16 × Ref) → Memory → List (UInt16 × Ref) × Memory
  | [], deks, m => (deks, m)
  | (epoch, r) :: rest, deks, m =>
    let (k, m') := m.alloc (m.read r)
    copyDEKs rest (Assoc.upsert epoch (fun _ => k) deks) m'

def newPageEncryptor (cfg : EncryptorConfig) (m : Memory) : Except Fault PageEncryptor × Memory :=
  if cfg.cipher ≠ .aes256GCM ∧ cfg.cipher ≠ .chaCha20Poly1305 then (.error .unknownCipher, m)
  else if cfg.deks = [] then (.error .noDEK, m)
  else
    match cfg.deks.lookup cfg.current with
    | none => (.error (.missingDEK cfg.current), m)
    | some _ =>
      let (deks, m') := copyDEKs cfg.deks [] m
      (.ok { cipher := cfg.cipher, dbID := cfg.dbID, deks, current := cfg.current }, m')

namespace PageEncryptor

def addDEK (e : PageEncryptor) (m : Memory) (epoch : UInt16) (dek : Bytes) :
    PageEncryptor × Memory :=
  let (k, m') := m.alloc dek
  ({ e with deks := Assoc.upsert epoch (fun _ => k) e.deks, current := epoch }, m')

def reloadDEK (e : PageEncryptor) (m : Memory) (epoch : UInt16) (dek : Bytes) :
    PageEncryptor × Memory :=
  let (k, m') := m.alloc dek
  ({ e with deks := Assoc.upsert epoch (fun _ => k) e.deks }, m')

def releaseEpoch (e : PageEncryptor) (m : Memory) (epoch : UInt16) : PageEncryptor × Memory :=
  match e.deks.lookup epoch with
  | none => (e, m)
  | some k => ({ e with deks := e.deks.filter fun x => x.1 ≠ epoch }, m.zeroize k)

def key (e : PageEncryptor) (m : Memory) : UInt16 → Option Bytes := keyOf e.deks m

end PageEncryptor

def envelopeOverhead : ℕ := 28

/-- Ciphertext, nonce and tag, from the sealed page and the nonce. -/
def layOut (sealed nonce : Bytes) : Bytes :=
  sealed.take (sealed.length - 16) ++ nonce ++ sealed.drop (sealed.length - 16)

def nonceOf (envelope : Bytes) : Bytes :=
  (envelope.drop (envelope.length - envelopeOverhead)).take (envelopeOverhead - 16)

def sealedOf (envelope : Bytes) : Bytes :=
  envelope.take (envelope.length - envelopeOverhead) ++ envelope.drop (envelope.length - 16)

namespace PageEncryptor

variable (p : Primitives)

/-- What `encryptPage` seals, once it has derived the key and the nonce. -/
def sealing (e : PageEncryptor) (m : Memory) (plaintext : Bytes) (pageClass : UInt8)
    (pageNo lsn : UInt64) : Except Fault Aead.Sealing :=
  match e.key m e.current with
  | none => .error (.missingDEK e.current)
  | some dek => do
    let pk ← pageKey p dek pageClass pageNo
    let nonce ← deriveNonce p pk pageNo lsn
    pure { key := pk, nonce, plaintext, aad := buildAAD pageNo pageClass lsn e.current }

def encryptPage (e : PageEncryptor) (m : Memory) (plaintext : Bytes) (pageClass : UInt8)
    (pageNo lsn : UInt64) : Except Fault Bytes := do
  let s ← e.sealing p m plaintext pageClass pageNo lsn
  let aead ← e.cipher.aead p s.key
  pure (layOut (aead.encrypt s.key s.nonce s.plaintext s.aad) s.nonce)

def decryptPage (e : PageEncryptor) (m : Memory) (envelope : Bytes) (pageClass : UInt8)
    (pageNo lsn : UInt64) (epoch : UInt16) : Except Fault Bytes :=
  if envelope.length < envelopeOverhead then .error .pageTooShort
  else
    match e.key m epoch with
    | none => .error (.missingDEK epoch)
    | some dek => do
      let pk ← pageKey p dek pageClass pageNo
      let aead ← e.cipher.aead p pk
      match aead.decrypt pk (nonceOf envelope) (sealedOf envelope)
          (buildAAD pageNo pageClass lsn epoch) with
      | none => .error (.pageAuthFailed pageNo pageClass epoch)
      | some plaintext => .ok plaintext

end PageEncryptor

/-- The keys by epoch, and the epoch new pages are written under: what the calls of an encryptor
are to do. -/
structure Keyring where
  keys : UInt16 → Option Bytes
  current : UInt16

inductive Call where
  | addDEK (epoch : UInt16) (dek : Bytes)
  | reloadDEK (epoch : UInt16) (dek : Bytes)
  | releaseEpoch (epoch : UInt16)
  | encryptPage (plaintext : Bytes) (pageClass : UInt8) (pageNo lsn : UInt64)
  deriving DecidableEq

def Keyring.apply (k : Keyring) : Call → Keyring
  | .addDEK epoch dek => ⟨update k.keys epoch (some dek), epoch⟩
  | .reloadDEK epoch dek => ⟨update k.keys epoch (some dek), k.current⟩
  | .releaseEpoch epoch => ⟨update k.keys epoch none, k.current⟩
  | .encryptPage .. => k

structure Separate (deks : List (UInt16 × Ref)) (m : Memory) : Prop where
  has : ∀ epoch r, deks.lookup epoch = some r → m.Has r
  inj : ∀ epoch epoch' r, deks.lookup epoch = some r → deks.lookup epoch' = some r →
    epoch = epoch'

namespace Separate

variable {deks : List (UInt16 × Ref)} {m : Memory}

theorem nil (m : Memory) : Separate [] m := ⟨by simp, by simp⟩

theorem upsert (h : Separate deks m) (epoch : UInt16) (dek : Bytes) :
    Separate (Assoc.upsert epoch (fun _ => (m.alloc dek).1) deks) (m.alloc dek).2 where
  has := by
    intro x r hr
    rw [lookup_upsert] at hr
    split at hr
    · cases hr
      exact Memory.has_alloc_self
    · exact (h.has x r hr).alloc
  inj := by
    intro x y r hx hy
    rw [lookup_upsert] at hx hy
    split at hx <;> split at hy
    · simp [*]
    · cases hx
      exact absurd rfl (h.has y _ hy).ne_alloc
    · cases hy
      exact absurd rfl (h.has x _ hx).ne_alloc
    · exact h.inj x y r hx hy

theorem keyOf_upsert (h : Separate deks m) (epoch : UInt16) (dek : Bytes) :
    keyOf (Assoc.upsert epoch (fun _ => (m.alloc dek).1) deks) (m.alloc dek).2 =
      update (keyOf deks m) epoch (some dek) := by
  ext1 x
  by_cases hx : x = epoch
  · simp [keyOf, lookup_upsert, hx]
  · rw [keyOf, lookup_upsert, if_neg hx, update_of_ne hx, keyOf]
    rcases hr : deks.lookup x with _ | r
    · rfl
    · exact congrArg some (Memory.read_alloc (h.has x r hr))

theorem releaseEpoch {e : PageEncryptor} (h : Separate e.deks m) (epoch : UInt16) :
    Separate (e.releaseEpoch m epoch).1.deks (e.releaseEpoch m epoch).2 := by
  unfold PageEncryptor.releaseEpoch
  rcases e.deks.lookup epoch with _ | k
  · exact h
  constructor
  · intro x r hr
    rw [lookup_filter_ne] at hr
    split at hr
    · cases hr
    · exact Memory.has_zeroize.mpr (h.has x r hr)
  · intro x y r hx hy
    rw [lookup_filter_ne] at hx hy
    split at hx <;> split at hy <;> try contradiction
    exact h.inj x y r hx hy

theorem key_releaseEpoch {e : PageEncryptor} (h : Separate e.deks m) (epoch : UInt16) :
    (e.releaseEpoch m epoch).1.key (e.releaseEpoch m epoch).2 = update (e.key m) epoch none := by
  unfold PageEncryptor.releaseEpoch
  rcases hk : e.deks.lookup epoch with _ | k
  · refine (update_eq_self_iff.mpr ?_).symm
    rw [PageEncryptor.key, keyOf, hk]
    rfl
  ext1 x
  simp only [PageEncryptor.key, keyOf]
  rw [lookup_filter_ne]
  by_cases hx : x = epoch
  · rw [if_pos hx, hx, update_self]
    rfl
  · rw [if_neg hx, update_of_ne hx, keyOf]
    rcases hr : e.deks.lookup x with _ | r
    · rfl
    · have hne : r ≠ k := fun heq => hx (h.inj x epoch r hr (heq ▸ hk))
      exact congrArg some (Memory.read_zeroize hne)

theorem copyDEKs (l : List (UInt16 × Ref)) (h : Separate deks m) :
    Separate (copyDEKs l deks m).1 (copyDEKs l deks m).2 := by
  induction l generalizing deks m with
  | nil => exact h
  | cons x l ih => exact ih (h.upsert x.1 (m.read x.2))

end Separate

theorem copyDEKs_copies {l deks : List (UInt16 × Ref)} {m : Memory}
    (hl : (l.map Prod.fst).Nodup) (hhas : ∀ x ∈ l, m.Has x.2) (hdeks : Separate deks m) (epoch : UInt16) :
    keyOf (copyDEKs l deks m).1 (copyDEKs l deks m).2 epoch =
        (keyOf l m epoch).or (keyOf deks m epoch) ∧
      ∀ r, (copyDEKs l deks m).1.lookup epoch = some r → deks.lookup epoch = some r ∨ ¬ m.Has r := by
  induction l generalizing deks m with
  | nil => exact ⟨rfl, fun r hr => .inl hr⟩
  | cons x l ih =>
    rw [map_cons, nodup_cons] at hl
    have hread := fun y hy => Memory.read_alloc (b := m.read x.2) (hhas y (mem_cons_of_mem _ hy))
    have hl' : keyOf l (m.alloc (m.read x.2)).2 epoch = keyOf l m epoch := by
      unfold keyOf
      rcases hr : l.lookup epoch with _ | r
      · rfl
      · exact congrArg some (hread (epoch, r) ((lookup_iff_mem hl.2).mp hr))
    obtain ⟨hkey, hnew⟩ := ih hl.2
      (fun y hy => (hhas y (mem_cons_of_mem _ hy)).alloc) (hdeks.upsert x.1 (m.read x.2))
    rw [hl', hdeks.keyOf_upsert] at hkey
    refine ⟨hkey.trans ?_, ?_⟩
    · by_cases hx : epoch = x.1
      · have hnot : l.lookup epoch = none := by
          rw [lookup_eq_none_iff]
          intro y hy
          rw [hx, bne_iff_ne]
          exact fun heq => hl.1 (mem_map.mpr ⟨y, hy, heq.symm⟩)
        simp [keyOf, lookup_cons_ite, hx, hx ▸ hnot]
      · simp [keyOf, lookup_cons_ite, hx]
    · intro r hr
      rcases hnew r hr with h | h
      · rw [lookup_upsert] at h
        split at h
        · cases h
          exact .inr (Nat.lt_irrefl _)
        · exact .inl h
      · exact .inr fun h' => h h'.alloc

variable {cfg : EncryptorConfig}

theorem separate_newPageEncryptor {m m' : Memory} {e : PageEncryptor}
    (h : newPageEncryptor cfg m = (.ok e, m')) : Separate e.deks m' := by
  unfold newPageEncryptor at h
  split_ifs at h
  · cases h
  · cases h
  · rcases hl : cfg.deks.lookup cfg.current with _ | r <;> rw [hl] at h
    · cases h
    · cases h
      exact (Separate.nil m).copyDEKs cfg.deks

def Cipher.Known (c : Cipher) : Prop := c = .aes256GCM ∨ c = .chaCha20Poly1305

instance (c : Cipher) : Decidable c.Known := inferInstanceAs (Decidable (_ ∨ _))

theorem newPageEncryptor_of_not_known (h : ¬ cfg.cipher.Known)
    (m : Memory) : newPageEncryptor cfg m = (.error .unknownCipher, m) := if_pos (not_or.mp h)

theorem newPageEncryptor_of_known {r : Ref} (h : cfg.cipher.Known)
    (hr : cfg.deks.lookup cfg.current = some r) (m : Memory) : newPageEncryptor cfg m =
      (.ok ⟨cfg.cipher, cfg.dbID, (copyDEKs cfg.deks [] m).1, cfg.current⟩,
        (copyDEKs cfg.deks [] m).2) := by
  have hne : cfg.deks ≠ [] := by
    intro hnil
    rw [hnil] at hr
    cases hr
  rw [newPageEncryptor, if_neg (fun hc => not_or.mpr hc h), if_neg hne, hr]

def PageEncryptor.keyring (e : PageEncryptor) (m : Memory) : Keyring := ⟨e.key m, e.current⟩

/-- A page that was written: what the call was given, and what came of it. -/
structure Written where
  plaintext : Bytes
  pageClass : UInt8
  pageNo : UInt64
  lsn : UInt64
  epoch : UInt16
  dek : Bytes
  sealing : Aead.Sealing
  envelope : Bytes
  deriving DecidableEq

/-- An envelope to be opened as a page of a class, with a number, an LSN and an epoch. -/
structure Request where
  envelope : Bytes
  pageClass : UInt8
  pageNo : UInt64
  lsn : UInt64
  epoch : UInt16
  deriving DecidableEq

def Written.request (w : Written) : Request :=
  ⟨w.envelope, w.pageClass, w.pageNo, w.lsn, w.epoch⟩

structure Session where
  enc : PageEncryptor
  mem : Memory
  written : List Written

namespace Session

variable (p : Primitives)

def step (s : Session) : Call → Session
  | .addDEK epoch dek =>
    let (enc, mem) := s.enc.addDEK s.mem epoch dek
    { s with enc, mem }
  | .reloadDEK epoch dek =>
    let (enc, mem) := s.enc.reloadDEK s.mem epoch dek
    { s with enc, mem }
  | .releaseEpoch epoch =>
    let (enc, mem) := s.enc.releaseEpoch s.mem epoch
    { s with enc, mem }
  | .encryptPage plaintext pageClass pageNo lsn =>
    match s.enc.key s.mem s.enc.current, s.enc.sealing p s.mem plaintext pageClass pageNo lsn,
      s.enc.encryptPage p s.mem plaintext pageClass pageNo lsn with
    | some dek, .ok sealing, .ok envelope =>
      let page : Written :=
        { plaintext, pageClass, pageNo, lsn, epoch := s.enc.current, dek, sealing, envelope }
      { s with written := s.written ++ [page] }
    | _, _, _ => s

def run (s : Session) (calls : List Call) : Session := calls.foldl (step p) s

def decrypt (s : Session) (q : Request) : Except Fault Bytes :=
  s.enc.decryptPage p s.mem q.envelope q.pageClass q.pageNo q.lsn q.epoch

/-- The cipher is authentic for what a request presents to it, given what has been sealed. -/
def Authentic (s : Session) (q : Request) : Prop :=
  ∀ dek pk, s.enc.key s.mem q.epoch = some dek → pageKey p dek q.pageClass q.pageNo = .ok pk →
    (s.enc.cipher.scheme p).Authentic (s.written.map Written.sealing) pk (nonceOf q.envelope)
      (sealedOf q.envelope) (buildAAD q.pageNo q.pageClass q.lsn q.epoch)

end Session

/-- The record of a page is that of what was sealed. -/
structure Written.Genuine (p : Primitives) (c : Cipher) (w : Written) : Prop where
  key : pageKey p w.dek w.pageClass w.pageNo = .ok w.sealing.key
  nonce : w.sealing.nonce.length = 12
  plaintext : w.sealing.plaintext = w.plaintext
  aad : w.sealing.aad = buildAAD w.pageNo w.pageClass w.lsn w.epoch
  envelope : w.envelope = layOut (w.sealing.ciphertext (c.scheme p)) w.sealing.nonce

variable {p : Primitives}

namespace PageEncryptor

variable {e : PageEncryptor} {m : Memory} {plaintext envelope : Bytes} {cls : UInt8}
  {no lsn : UInt64} {sl : Aead.Sealing}

theorem sealing_ok (h : e.sealing p m plaintext cls no lsn = .ok sl) :
    ∃ dek, e.key m e.current = some dek ∧ pageKey p dek cls no = .ok sl.key ∧
      sl.nonce.length = 12 ∧ sl.plaintext = plaintext ∧
      sl.aad = buildAAD no cls lsn e.current := by
  unfold sealing at h
  rcases hk : e.key m e.current with _ | dek <;> rw [hk] at h
  · cases h
  · obtain ⟨pk, hpk, h⟩ := bind_eq_ok.mp h
    obtain ⟨nonce, hn, h⟩ := bind_eq_ok.mp h
    cases h
    exact ⟨dek, rfl, hpk, length_deriveNonce hn, rfl, rfl⟩

theorem encryptPage_ok (hp : p.Documented) (hs : e.sealing p m plaintext cls no lsn = .ok sl)
    (h : e.encryptPage p m plaintext cls no lsn = .ok envelope) :
    envelope = layOut (sl.ciphertext (e.cipher.scheme p)) sl.nonce := by
  obtain ⟨dek, -, hpk, -⟩ := sealing_ok hs
  obtain ⟨sl', hsl, h⟩ := bind_eq_ok.mp h
  cases hs.symm.trans hsl
  obtain ⟨A, hA, h⟩ := bind_eq_ok.mp h
  rw [Cipher.aead_eq _ (length_pageKey hp hpk)] at hA
  cases hA
  cases h
  rfl

end PageEncryptor

namespace Session

variable {s : Session} {k : Keyring}

@[simp] theorem step_cipher (s : Session) (c : Call) : (s.step p c).enc.cipher = s.enc.cipher := by
  cases c with
  | addDEK epoch dek | reloadDEK epoch dek => rfl
  | releaseEpoch epoch =>
    simp only [step, PageEncryptor.releaseEpoch]
    split <;> rfl
  | encryptPage plaintext cls no lsn =>
    simp only [step]
    split <;> rfl

theorem keyring_step (h : Separate s.enc.deks s.mem) (c : Call) :
    Separate (s.step p c).enc.deks (s.step p c).mem ∧
      (s.step p c).enc.keyring (s.step p c).mem = (s.enc.keyring s.mem).apply c := by
  cases c with
  | addDEK epoch dek =>
    exact ⟨h.upsert epoch dek, congrArg (Keyring.mk · epoch) (h.keyOf_upsert epoch dek)⟩
  | reloadDEK epoch dek =>
    exact ⟨h.upsert epoch dek, congrArg (Keyring.mk · s.enc.current) (h.keyOf_upsert epoch dek)⟩
  | releaseEpoch epoch =>
    refine ⟨h.releaseEpoch epoch, ?_⟩
    have hcur : (s.enc.releaseEpoch s.mem epoch).1.current = s.enc.current := by
      unfold PageEncryptor.releaseEpoch
      split <;> rfl
    exact congrArg₂ Keyring.mk (h.key_releaseEpoch epoch) hcur
  | encryptPage plaintext cls no lsn =>
    simp only [step]
    split <;> exact ⟨h, rfl⟩

theorem written_step (hp : p.Documented) (s : Session) (c : Call) :
    (s.step p c).written = s.written ∨
      ∃ w, w.Genuine p s.enc.cipher ∧ (s.step p c).written = s.written ++ [w] := by
  cases c with
  | addDEK epoch dek | reloadDEK epoch dek | releaseEpoch epoch => exact .inl rfl
  | encryptPage plaintext cls no lsn =>
    simp only [step]
    split
    · rename_i dek sl envelope hdek hsl henv
      refine .inr ⟨_, ?_, rfl⟩
      obtain ⟨dek', hdek', hpk, hn, hpt, haad⟩ := PageEncryptor.sealing_ok hsl
      cases hdek.symm.trans hdek'
      exact ⟨hpk, hn, hpt, haad, PageEncryptor.encryptPage_ok hp hsl henv⟩
    · exact .inl rfl

/-- What holds along a run: no two keys share a slice, the keys are those of the keyring, and
every page is recorded as it was sealed. -/
structure Inv (p : Primitives) (k : Keyring) (s : Session) : Prop where
  separate : Separate s.enc.deks s.mem
  keyring : s.enc.keyring s.mem = k
  genuine : ∀ w ∈ s.written, w.Genuine p s.enc.cipher

theorem Inv.step (hp : p.Documented) (h : s.Inv p k) (c : Call) :
    (s.step p c).Inv p (k.apply c) := by
  obtain ⟨hsep, hk⟩ := keyring_step (p := p) h.separate c
  refine ⟨hsep, hk.trans (by rw [h.keyring]), ?_⟩
  rw [step_cipher]
  rcases written_step hp s c with hw | ⟨w, hw, heq⟩
  · rw [hw]
    exact h.genuine
  · intro v hv
    rw [heq, mem_append, mem_singleton] at hv
    rcases hv with hv | rfl
    · exact h.genuine v hv
    · exact hw

theorem Inv.run (hp : p.Documented) (h : s.Inv p k) (calls : List Call) :
    (s.run p calls).Inv p (calls.foldl Keyring.apply k) := by
  induction calls generalizing s k with
  | nil => exact h
  | cons c calls ih => exact ih (h.step hp c)

end Session

section Envelope

variable {sealed nonce envelope : Bytes}

section

variable (h : 16 ≤ sealed.length)
include h

theorem length_layOut (hn : nonce.length = 12) :
    (layOut sealed nonce).length = sealed.length + 12 := by
  simp only [layOut, length_append, length_take, length_drop, hn]
  omega

theorem nonceOf_layOut (hn : nonce.length = 12) : nonceOf (layOut sealed nonce) = nonce := by
  have hlen : (sealed.take (sealed.length - 16)).length = sealed.length + 12 - 28 := by
    rw [length_take]
    omega
  rw [nonceOf, length_layOut h hn, layOut, append_assoc, envelopeOverhead, ← hlen, drop_left]
  exact take_left' hn

theorem sealedOf_layOut (hn : nonce.length = 12) : sealedOf (layOut sealed nonce) = sealed := by
  have hlen : (sealed.take (sealed.length - 16)).length = sealed.length + 12 - 28 := by
    rw [length_take]
    omega
  have hlen' : (sealed.take (sealed.length - 16) ++ nonce).length = sealed.length + 12 - 16 := by
    rw [length_append, hlen, hn]
    omega
  rw [sealedOf, length_layOut h hn, layOut, ← hlen', drop_left, append_assoc,
    envelopeOverhead, ← hlen, take_left, take_append_drop]

end

theorem layOut_of (h : envelopeOverhead ≤ envelope.length) :
    layOut (sealedOf envelope) (nonceOf envelope) = envelope := by
  unfold envelopeOverhead at h
  have hlen : (sealedOf envelope).length - 16 = (envelope.take (envelope.length - 28)).length := by
    simp only [sealedOf, envelopeOverhead, length_append, length_take, length_drop]
    omega
  have hdrop : envelope.length - 16 = envelope.length - 28 + 12 := by omega
  rw [layOut, hlen, sealedOf, envelopeOverhead, take_left, drop_left, nonceOf,
    envelopeOverhead, hdrop, ← drop_drop, append_assoc, take_append_drop,
    take_append_drop]

end Envelope

theorem length_ciphertext (hp : p.Documented) (c : Cipher) (sl : Aead.Sealing) :
    16 ≤ (sl.ciphertext (c.scheme p)).length := by
  rw [Aead.Sealing.ciphertext, (c.scheme_correct hp).length_encrypt]
  exact Nat.le_add_left _ _

theorem PageEncryptor.decryptPage_eq_ok {e : PageEncryptor} {m : Memory} {env pt : Bytes}
    {cls : UInt8} {no lsn : UInt64} {epoch : UInt16} (hp : p.Documented) :
    e.decryptPage p m env cls no lsn epoch = .ok pt ↔
      envelopeOverhead ≤ env.length ∧ ∃ dek pk, e.key m epoch = some dek ∧
        pageKey p dek cls no = .ok pk ∧
        (e.cipher.scheme p).decrypt pk (nonceOf env) (sealedOf env) (buildAAD no cls lsn epoch) =
          some pt := by
  unfold decryptPage
  by_cases hlen : env.length < envelopeOverhead
  · simp [hlen]
  rw [if_neg hlen]
  rcases hk : e.key m epoch with _ | dek
  · simp
  obtain ⟨pk, hpk, hpl⟩ := pageKey_ok hp dek cls no
  simp only [hpk, Cipher.aead_eq _ hpl, bind, Except.bind]
  constructor
  · intro h
    refine ⟨Nat.le_of_not_lt hlen, dek, pk, rfl, hpk, ?_⟩
    split at h
    · cases h
    · cases h
      assumption
  · rintro ⟨-, dek', pk', hdek, hpk', hdec⟩
    cases hdek
    cases hpk.symm.trans hpk'
    rw [hdec]

namespace Session

variable {s : Session} {w : Written} {q : Request} {pt : Bytes} {k : Keyring}

theorem Inv.decrypt_written (hp : p.Documented) (h : s.Inv p k) (hw : w ∈ s.written)
    (hk : k.keys w.epoch = some w.dek) : s.decrypt p w.request = .ok w.plaintext := by
  have hg := h.genuine w hw
  have hlen := length_ciphertext hp s.enc.cipher w.sealing
  have hkey : s.enc.key s.mem w.epoch = some w.dek := by rw [← hk, ← h.keyring]; rfl
  refine (PageEncryptor.decryptPage_eq_ok hp).mpr ⟨?_, w.dek, w.sealing.key, hkey, hg.key, ?_⟩
  · change 28 ≤ w.envelope.length
    rw [hg.envelope, length_layOut hlen hg.nonce]
    omega
  · change (s.enc.cipher.scheme p).decrypt _ (nonceOf w.envelope) (sealedOf w.envelope)
      (buildAAD w.pageNo w.pageClass w.lsn w.epoch) = _
    rw [hg.envelope, nonceOf_layOut hlen hg.nonce, sealedOf_layOut hlen hg.nonce, ← hg.aad,
      ← hg.plaintext]
    exact (s.enc.cipher.scheme_correct hp).decrypt_encrypt _ _ _ _
      (length_pageKey hp hg.key) hg.nonce

theorem Inv.written_of_decrypt (hp : p.Documented) (h : s.Inv p k) (ha : s.Authentic p q)
    (hq : s.decrypt p q = .ok pt) : q ∈ s.written.map Written.request ∧
      ∀ w ∈ s.written, w.envelope = q.envelope → w.request = q := by
  obtain ⟨hlen, dek, pk, hdek, hpk, hdec⟩ := (PageEncryptor.decryptPage_eq_ok hp).mp hq
  obtain ⟨⟨sl, hsl, hct⟩, hall⟩ := ha dek pk hdek hpk (by rw [hdec]; exact Option.some_ne_none _)
  -- whatever was sealed to the same ciphertext was sealed for the same place
  have hplace : ∀ w ∈ s.written,
      w.sealing.ciphertext (s.enc.cipher.scheme p) = sealedOf q.envelope → w.request = q := by
    intro w hw hct
    have hg := h.genuine w hw
    obtain ⟨-, hnonce, haad⟩ := hall w.sealing (mem_map_of_mem hw) hct
    obtain ⟨hno, hcls, hlsn, hepoch⟩ := buildAAD_inj (hg.aad.symm.trans haad)
    have henv : w.envelope = q.envelope := by rw [hg.envelope, hct, hnonce, layOut_of hlen]
    simp only [Written.request, henv, hcls, hno, hlsn, hepoch]
  obtain ⟨w, hw, rfl⟩ := mem_map.mp hsl
  refine ⟨mem_map.mpr ⟨w, hw, hplace w hw hct⟩, ?_⟩
  intro v hv henv
  have hg := h.genuine v hv
  refine hplace v hv ?_
  rw [← henv, hg.envelope, sealedOf_layOut (length_ciphertext hp _ _) hg.nonce]

/-- After any calls, a page is decrypted to its plaintext as long as the key of its epoch is the
one it was written with. Where it was not written, or without the key, it is rejected. -/
theorem decrypts_as_written (hp : p.Documented) {cfg : EncryptorConfig} {m m' : Memory}
    {enc : PageEncryptor} (hnew : newPageEncryptor cfg m = (.ok enc, m')) (calls : List Call)
    (hs : s = run p ⟨enc, m', []⟩ calls) (hk : k = calls.foldl Keyring.apply (enc.keyring m'))
    (hw : w ∈ s.written) :
    (k.keys w.epoch = some w.dek → s.decrypt p w.request = .ok w.plaintext) ∧
    (∀ q : Request, s.Authentic p q → q ≠ w.request →
      (q.envelope ≠ w.envelope → q ∉ s.written.map Written.request) →
      ∃ e, s.decrypt p q = .error e) ∧
    (k.keys w.epoch = none → ∃ e, s.decrypt p w.request = .error e) := by
  have hstart : Inv p (enc.keyring m') ⟨enc, m', []⟩ :=
    ⟨separate_newPageEncryptor hnew, rfl, forall_mem_nil _⟩
  have h : s.Inv p k := by
    rw [hs, hk]
    exact hstart.run hp calls
  refine ⟨h.decrypt_written hp hw, ?_, ?_⟩
  · intro q ha hne hother
    rcases hq : s.decrypt p q with e | pt
    · exact ⟨e, rfl⟩
    · obtain ⟨hmem, hsame⟩ := h.written_of_decrypt hp ha hq
      by_cases henv : q.envelope = w.envelope
      · exact absurd (hsame w hw henv.symm).symm hne
      · exact absurd hmem (hother henv)
  · intro hnone
    rcases hq : s.decrypt p w.request with e | pt
    · exact ⟨e, rfl⟩
    · obtain ⟨-, dek, -, hdek, -⟩ := (PageEncryptor.decryptPage_eq_ok hp).mp hq
      rw [← h.keyring] at hnone
      cases hdek.symm.trans hnone

end Session

/-! Ciphers that tag a plaintext with a checksum, to run the encryptor with. -/

def checksum (key nonce plaintext aad : Bytes) : Bytes :=
  copyInto 16 (Bytes.le64 (UInt64.ofNat (Bytes.getBE (key ++ nonce ++ plaintext ++ aad) % 1000003)))

def tagging : Aead where
  encrypt key nonce plaintext aad := plaintext ++ checksum key nonce plaintext aad
  decrypt key nonce ciphertext aad :=
    let plaintext := ciphertext.take (ciphertext.length - 16)
    if ciphertext = plaintext ++ checksum key nonce plaintext aad then some plaintext else none

theorem tagging_correct : tagging.Correct where
  length_encrypt := by simp [tagging, checksum, Aead.tagSize]
  decrypt_encrypt := by simp [tagging, checksum]

def checksums : Primitives where
  argon2id passphrase salt _ _ _ := copyInto 32 (passphrase ++ salt)
  hkdf secret salt info n :=
    if n ≤ 255 * 32 then
      .ok (copyInto n (Bytes.le64 (UInt64.ofNat (Bytes.getBE (secret ++ salt ++ info) % 1000003))))
    else .error .library
  aesGCM := tagging
  chaCha20Poly1305 := tagging

theorem checksums_documented : checksums.Documented where
  hkdf_ok := by
    intro secret salt info n hn
    exact ⟨_, if_pos hn, length_copyInto _ _⟩
  aesGCM := tagging_correct
  chaCha20Poly1305 := tagging_correct

namespace Session

instance decidableAuthentic (s : Session) (q : Request) : Decidable (s.Authentic p q) :=
  match hk : s.enc.key s.mem q.epoch with
  | none => .isTrue fun _ _ h => absurd (hk.symm.trans h) (Option.some_ne_none _).symm
  | some dek =>
    match hpk : pageKey p dek q.pageClass q.pageNo with
    | .error _ => .isTrue fun dek' pk h h' => by
        cases hk.symm.trans h
        cases hpk.symm.trans h'
    | .ok pk => decidable_of_iff ((s.enc.cipher.scheme p).Authentic (s.written.map Written.sealing)
        pk (nonceOf q.envelope) (sealedOf q.envelope)
        (buildAAD q.pageNo q.pageClass q.lsn q.epoch))
        ⟨fun ha dek' pk' h h' => by
          cases hk.symm.trans h
          cases hpk.symm.trans h'
          exact ha, fun ha => ha dek pk hk hpk⟩

def rotated : List Call :=
  [.encryptPage [1, 2, 3] 1 5 9, .addDEK 1 [8], .encryptPage [4] 1 5 10]

def oneKey : EncryptorConfig := { cipher := .aes256GCM, dbID := [], deks := [(0, 0)], current := 0 }

def afterRotation : Session := run checksums ⟨⟨.aes256GCM, [], [(0, 1)], 0⟩, ⟨[[7], [7]]⟩, []⟩ rotated

theorem afterRotation_written : afterRotation.written ≠ [] := by decide +kernel

/-- The page of the old epoch opens after the rotation, and not with another LSN. -/
theorem decrypts_as_written_rotated :
    afterRotation.decrypt checksums (afterRotation.written.head afterRotation_written).request =
      .ok [1, 2, 3] ∧
    ∃ e, afterRotation.decrypt checksums
      { (afterRotation.written.head afterRotation_written).request with lsn := 10 } = .error e := by
  have h := @decrypts_as_written checksums afterRotation
    (afterRotation.written.head afterRotation_written) _ checksums_documented oneKey ⟨[[7]]⟩
    ⟨[[7], [7]]⟩ ⟨.aes256GCM, [], [(0, 1)], 0⟩ rfl rotated rfl rfl (head_mem _)
  refine ⟨(h.1 (by decide +kernel)).trans (by decide +kernel), h.2.1 _ ?_ ?_ ?_⟩
  · decide +kernel
  · decide +kernel
  · decide +kernel

end Session

end VecDb.Crypto

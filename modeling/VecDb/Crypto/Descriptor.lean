import VecDb.Crypto.Encryptor

/-! # Opening an encrypted database

Opening checks the master key, derives the data key of every epoch up to the current one, hands
the keys to an encryptor and wipes its own copies. The loop over the epochs counts in 16 bits.
-/

namespace VecDb.Crypto

open UInt16

open Memory (Ref)

inductive KDF where
  | none
  | argon2id
  | other (code : UInt8)
  deriving DecidableEq

structure Descriptor where
  kdf : KDF
  cipher : Cipher
  epoch : UInt16
  argon2Time : UInt32
  argon2Memory : UInt32
  argon2Threads : UInt8
  salt : Vector UInt8 32
  dbID : Vector UInt8 16
  verificationTag : Vector UInt8 16
  deriving DecidableEq

def Descriptor.argon2Params (d : Descriptor) : Argon2Params :=
  { time := d.argon2Time, memory := d.argon2Memory, threads := d.argon2Threads,
    salt := d.salt.toList }

section Open

variable (p : Primitives)

/-- The loop over the epochs, for a number of rounds; nothing if it is not over by then. -/
def deriveDEKs (d : Descriptor) (mk : Ref) : ℕ → UInt16 → List (UInt16 × Ref) → Memory →
    Option (Except Fault (List (UInt16 × Ref)) × Memory)
  | 0, _, _, _ => none
  | rounds + 1, epoch, deks, m =>
    if epoch ≤ d.epoch then
      match dek p (m.read mk) d.dbID.toList epoch with
      | .error e => some (.error e, m.zeroizeAll (deks.map Prod.snd))
      | .ok key =>
        let (k, m') := m.alloc key
        deriveDEKs d mk rounds (epoch + 1) (Assoc.upsert epoch (fun _ => k) deks) m'
    else some (.ok deks, m)

def openWithMasterKey (rounds : ℕ) (d : Descriptor) (mk : Ref) (m : Memory) :
    Option (Except Fault PageEncryptor × Memory) :=
  if !verifyMasterKey p (m.read mk) d.verificationTag.toList then
    some (.error .wrongPassphrase, m)
  else
    match deriveDEKs p d mk rounds 0 [] m with
    | none => none
    | some (.error e, m') => some (.error e, m')
    | some (.ok deks, m') =>
      let (enc, m'') := newPageEncryptor
        { cipher := d.cipher, dbID := d.dbID.toList, deks, current := d.epoch } m'
      some (enc, m''.zeroizeAll (deks.map Prod.snd))

/-- The master key is wiped when the call is over. -/
def openAndWipe (rounds : ℕ) (d : Descriptor) (masterKey : Except Fault Bytes) (m : Memory) :
    Option (Except Fault PageEncryptor × Memory) :=
  match masterKey with
  | .error e => some (.error e, m)
  | .ok key =>
    let (mk, m') := m.alloc key
    (openWithMasterKey p rounds d mk m').map fun (enc, m'') => (enc, m''.zeroize mk)

def openWithPassphrase (rounds : ℕ) (d : Descriptor) (passphrase : Bytes) (m : Memory) :
    Option (Except Fault PageEncryptor × Memory) :=
  if d.kdf ≠ .argon2id then some (.error .notPassphrase, m)
  else openAndWipe p rounds d (masterKey p passphrase d.argon2Params) m

def openWithRawKey (rounds : ℕ) (d : Descriptor) (rawKey : Bytes) (m : Memory) :
    Option (Except Fault PageEncryptor × Memory) :=
  openAndWipe p rounds d (masterKeyFromRaw rawKey) m

end Open

inductive Secret where
  | passphrase (text : Bytes)
  | rawKey (key : Bytes)
  deriving DecidableEq

def Descriptor.masterKey (p : Primitives) (d : Descriptor) : Secret → Except Fault Bytes
  | .passphrase text =>
    if d.kdf ≠ .argon2id then .error .notPassphrase else Crypto.masterKey p text d.argon2Params
  | .rawKey key => masterKeyFromRaw key

def openWith (p : Primitives) (rounds : ℕ) (d : Descriptor) (secret : Secret) (m : Memory) :
    Option (Except Fault PageEncryptor × Memory) :=
  match secret with
  | .passphrase text => openWithPassphrase p rounds d text m
  | .rawKey key => openWithRawKey p rounds d key m

/-- The encryptor holds exactly the data keys of the epochs up to the current one of the
descriptor, and writes under that one. -/
structure PageEncryptor.Holds (p : Primitives) (d : Descriptor) (masterKey : Bytes)
    (m : Memory) (e : PageEncryptor) : Prop where
  current : e.current = d.epoch
  keys : ∀ epoch key, e.key m epoch = some key ↔
    epoch ≤ d.epoch ∧ dek p masterKey d.dbID.toList epoch = .ok key

variable {p : Primitives} {d : Descriptor} {mk : Ref} {masterKey : Bytes} {m : Memory}
  {deks : List (UInt16 × Ref)} {epoch : UInt16}

structure Derived (p : Primitives) (d : Descriptor) (mk : Ref) (masterKey : Bytes) (epoch : ℕ)
    (deks : List (UInt16 × Ref)) (m : Memory) : Prop where
  has : m.Has mk
  read : m.read mk = masterKey
  nodup : (deks.map Prod.fst).Nodup
  separate : Separate deks m
  keys : ∀ x key, keyOf deks m x = some key ↔
    x.toNat < epoch ∧ dek p masterKey d.dbID.toList x = .ok key

theorem Derived.start (hhas : m.Has mk) (hread : m.read mk = masterKey) :
    Derived p d mk masterKey 0 [] m where
  has := hhas
  read := hread
  nodup := List.nodup_nil
  separate := Separate.nil m
  keys := by simp [keyOf]

theorem Derived.next {key : Bytes} (h : Derived p d mk masterKey epoch.toNat deks m)
    (hkey : dek p masterKey d.dbID.toList epoch = .ok key) :
    Derived p d mk masterKey (epoch.toNat + 1)
      (Assoc.upsert epoch (fun _ => (m.alloc key).1) deks) (m.alloc key).2 where
  has := h.has.alloc
  read := (Memory.read_alloc h.has).trans h.read
  nodup := Assoc.nodup_keys_upsert h.nodup
  separate := h.separate.upsert epoch key
  keys := by
    intro x k
    rw [h.separate.keyOf_upsert]
    by_cases hx : x = epoch
    · rw [hx, Function.update_self, hkey]
      simp
    · rw [Function.update_of_ne hx, h.keys]
      have hne : x.toNat ≠ epoch.toNat := fun heq => hx (UInt16.toNat_inj.mp heq)
      refine and_congr_left fun _ => ?_
      omega

theorem deriveDEKs_ends (hp : p.Documented) (hd : d.epoch.toNat < 65535) {n : ℕ}
    (hn : epoch.toNat + n = d.epoch.toNat + 1) (h : Derived p d mk masterKey epoch.toNat deks m) :
    ∃ deks' m', deriveDEKs p d mk (n + 1) epoch deks m = some (.ok deks', m') ∧
      Derived p d mk masterKey (d.epoch.toNat + 1) deks' m' := by
  induction n generalizing epoch deks m with
  | zero =>
    have hlt : ¬ epoch ≤ d.epoch := by
      rw [le_iff_toNat_le]
      omega
    rw [Nat.add_zero] at hn
    exact ⟨deks, m, by rw [deriveDEKs, if_neg hlt], hn ▸ h⟩
  | succ n ih =>
    have hle : epoch ≤ d.epoch := by
      rw [le_iff_toNat_le]
      omega
    have hnext : (epoch + 1).toNat = epoch.toNat + 1 := by
      rw [UInt16.toNat_add]
      exact Nat.mod_eq_of_lt (by simp; omega)
    obtain ⟨key, hkey⟩ := dek_ok hp masterKey d.dbID.toList epoch
    rw [deriveDEKs, if_pos hle, h.read, hkey]
    refine ih ?_ ?_
    · rw [hnext]
      omega
    · rw [hnext]
      exact h.next hkey

theorem deriveDEKs_diverges (hp : p.Documented) (hd : d.epoch = 65535) (rounds : ℕ) :
    deriveDEKs p d mk rounds epoch deks m = none := by
  induction rounds generalizing epoch deks m with
  | zero => rfl
  | succ n ih =>
    have hle : epoch ≤ d.epoch := by
      rw [hd, le_iff_toNat_le]
      exact Nat.le_of_lt_succ epoch.toNat_lt
    obtain ⟨key, hkey⟩ := dek_ok hp (m.read mk) d.dbID.toList epoch
    rw [deriveDEKs, if_pos hle, hkey]
    exact ih

theorem Derived.holds (h : Derived p d mk masterKey (d.epoch.toNat + 1) deks m) {rs : List Ref}
    (hrs : ∀ r ∈ rs, m.Has r) (c : Cipher) (dbID : Bytes) :
    PageEncryptor.Holds p d masterKey ((copyDEKs deks [] m).2.zeroizeAll rs)
      ⟨c, dbID, (copyDEKs deks [] m).1, d.epoch⟩ where
  current := rfl
  keys := by
    intro epoch key
    have hhas : ∀ x ∈ deks, m.Has x.2 := fun x hx =>
      h.separate.has x.1 x.2 ((Assoc.lookup_iff_mem h.nodup).mpr hx)
    obtain ⟨hkey, hnew⟩ := copyDEKs_copies h.nodup hhas (Separate.nil m) epoch
    have hwipe : keyOf (copyDEKs deks [] m).1 ((copyDEKs deks [] m).2.zeroizeAll rs) epoch =
        keyOf deks m epoch := by
      refine Eq.trans ?_ (hkey.trans (Option.or_none ..))
      unfold keyOf
      rcases hr : (copyDEKs deks [] m).1.lookup epoch with _ | r
      · rfl
      · refine congrArg some (Memory.read_zeroizeAll fun hmem => ?_)
        rcases hnew r hr with hnil | hnot
        · cases hnil
        · exact hnot (hrs r hmem)
    rw [PageEncryptor.key, hwipe, h.keys, le_iff_toNat_le, Nat.lt_succ_iff]

theorem openWithMasterKey_holds (hp : p.Documented) (hhas : m.Has mk)
    (hv : verifyMasterKey p (m.read mk) d.verificationTag.toList = true) :
    (∃ rounds enc m', openWithMasterKey p rounds d mk m = some (.ok enc, m') ∧
      enc.Holds p d (m.read mk) (m'.zeroize mk)) ↔ d.epoch ≠ 65535 ∧ d.cipher.Known := by
  constructor
  · rintro ⟨rounds, enc, m', hopen, -⟩
    unfold openWithMasterKey at hopen
    rw [hv] at hopen
    refine ⟨fun hd => ?_, ?_⟩
    · rw [deriveDEKs_diverges hp hd] at hopen
      cases hopen
    · by_contra hc
      rcases hl : deriveDEKs p d mk rounds 0 [] m with _ | ⟨_ | deks, m₁⟩ <;> rw [hl] at hopen
      · cases hopen
      · cases hopen
      · dsimp only at hopen
        rw [newPageEncryptor_of_not_known hc] at hopen
        cases hopen
  · rintro ⟨hd, hc⟩
    have hlt : d.epoch.toNat < 65535 := by
      have hne : d.epoch.toNat ≠ 65535 := fun heq => hd (UInt16.toNat_inj.mp heq)
      have := d.epoch.toNat_lt
      omega
    have hstart : (0 : UInt16).toNat + (d.epoch.toNat + 1) = d.epoch.toNat + 1 := Nat.zero_add _
    obtain ⟨deks, m₁, hl, hder⟩ :=
      deriveDEKs_ends hp hlt hstart (Derived.start (p := p) (d := d) hhas rfl)
    -- the loop has a key for the current epoch
    obtain ⟨key, hkey⟩ := dek_ok hp (m.read mk) d.dbID.toList d.epoch
    obtain ⟨r, hr, -⟩ := Option.map_eq_some_iff.mp
      ((hder.keys d.epoch key).mpr ⟨Nat.lt_succ_self _, hkey⟩)
    have hrs : ∀ r ∈ deks.map Prod.snd ++ [mk], m₁.Has r := by
      intro r hr
      rcases List.mem_append.mp hr with hr | hr
      · obtain ⟨x, hx, rfl⟩ := List.mem_map.mp hr
        exact hder.separate.has x.1 x.2 ((Assoc.lookup_iff_mem hder.nodup).mpr hx)
      · obtain rfl := List.mem_singleton.mp hr
        exact hder.has
    have hholds := hder.holds hrs d.cipher d.dbID.toList
    rw [Memory.zeroizeAll, List.foldl_append] at hholds
    refine ⟨d.epoch.toNat + 1 + 1, _, _, ?_, hholds⟩
    unfold openWithMasterKey
    rw [hv, hl]
    dsimp only
    rw [newPageEncryptor_of_known hc hr]
    rfl

theorem openWith_eq (rounds : ℕ) (secret : Secret) :
    openWith p rounds d secret m = openAndWipe p rounds d (d.masterKey p secret) m := by
  cases secret with
  | passphrase text =>
    simp only [openWith, openWithPassphrase, Descriptor.masterKey]
    split <;> rfl
  | rawKey key => rfl

/-- With the correct master key, opening ends with the keys of all epochs just if the last epoch
is not the largest number of 16 bits and the cipher is known; with another it is refused. -/
theorem opens_with_keys_iff (hp : p.Documented) (d : Descriptor) (secret : Secret) (m : Memory)
    (hk : d.masterKey p secret = .ok masterKey) :
    (verifyMasterKey p masterKey d.verificationTag.toList = true →
      ((∃ rounds enc m', openWith p rounds d secret m = some (.ok enc, m') ∧
        enc.Holds p d masterKey m') ↔ d.epoch ≠ 65535 ∧ d.cipher.Known)) ∧
    (verifyMasterKey p masterKey d.verificationTag.toList = false →
      ∀ rounds, ∃ m', openWith p rounds d secret m = some (.error .wrongPassphrase, m')) := by
  have hread : (m.alloc masterKey).2.read (m.alloc masterKey).1 = masterKey :=
    Memory.read_alloc_self
  simp only [openWith_eq, hk]
  constructor
  · intro hv
    rw [← openWithMasterKey_holds (m := (m.alloc masterKey).2) hp Memory.has_alloc_self
      (by rw [hread]; exact hv), hread]
    simp only [openAndWipe, Option.map_eq_some_iff, Prod.exists, Prod.mk.injEq]
    constructor
    · rintro ⟨rounds, enc, m', ⟨res, m₁, hopen, rfl, rfl⟩, hholds⟩
      exact ⟨rounds, enc, m₁, hopen, hholds⟩
    · rintro ⟨rounds, enc, m₁, hopen, hholds⟩
      exact ⟨rounds, enc, _, ⟨_, m₁, hopen, rfl, rfl⟩, hholds⟩
  · intro hv rounds
    refine ⟨(m.alloc masterKey).2.zeroize (m.alloc masterKey).1, ?_⟩
    simp only [openAndWipe, openWithMasterKey, hread, hv]
    rfl

def inEpoch (epoch : UInt16) : Descriptor where
  kdf := .none
  cipher := .aes256GCM
  epoch := epoch
  argon2Time := 0
  argon2Memory := 0
  argon2Threads := 0
  salt := Vector.replicate 32 0
  dbID := Vector.replicate 16 0
  verificationTag := #v[70, 91, 7, 0, 0, 0, 0, 0, 0, 0, 0, 0, 0, 0, 0, 0]

def onesKey : Bytes := List.replicate 32 1

theorem opens_with_keys_epoch_two : ∃ rounds enc m',
    openWith checksums rounds (inEpoch 2) (.rawKey onesKey) ⟨[]⟩ = some (.ok enc, m') ∧
      enc.Holds checksums (inEpoch 2) onesKey m' :=
  ((opens_with_keys_iff checksums_documented (inEpoch 2) (.rawKey onesKey) ⟨[]⟩ rfl).1
    (by decide +kernel)).mpr ⟨by decide, .inl rfl⟩

theorem last_epoch_never_opens :
    verifyMasterKey checksums onesKey (inEpoch 65535).verificationTag.toList = true ∧
      ∀ rounds, openWith checksums rounds (inEpoch 65535) (.rawKey onesKey) ⟨[]⟩ = none := by
  have hv : verifyMasterKey checksums onesKey (inEpoch 65535).verificationTag.toList = true := by
    decide +kernel
  refine ⟨hv, fun rounds => ?_⟩
  have hkey : (inEpoch 65535).masterKey checksums (.rawKey onesKey) = .ok onesKey := rfl
  have hread : ((⟨[]⟩ : Memory).alloc onesKey).2.read ((⟨[]⟩ : Memory).alloc onesKey).1 = onesKey :=
    Memory.read_alloc_self
  rw [openWith_eq, hkey]
  simp only [openAndWipe, openWithMasterKey, hread, hv,
    deriveDEKs_diverges checksums_documented (d := inEpoch 65535) rfl]
  rfl

end VecDb.Crypto

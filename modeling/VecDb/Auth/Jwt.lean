import Mathlib.Tactic.Linarith
import VecDb.Base.Fallible
import VecDb.Base.Json
import VecDb.Base.Text

/-! # Token validation

A token is a header that names the algorithm, the claims and a signature over both. An expiry that
does not decode as an integer is not looked at, so an accepted token can have expired.
-/

namespace VecDb.Auth

open Json

/-- The standard library's decoders and signature schemes. -/
structure Library (RSAKey ECDSAKey : Type) where
  base64 : Bytes → Option Bytes
  parse : Bytes → Option Json
  hmacSHA256 : Bytes → Bytes → Bytes
  sha256 : Bytes → Bytes
  verifyPKCS1v15 : RSAKey → Bytes → Bytes → Bool
  verifyECDSA : ECDSAKey → Bytes → ℕ → ℕ → Bool

structure JWTConfig (RSAKey ECDSAKey : Type) where
  algorithm : Bytes
  sharedSecret : Bytes := []
  rsaPublicKey : Option RSAKey := none
  ecdsaPublicKey : Option ECDSAKey := none
  audience : Bytes := []
  issuer : Bytes := []
  collectionsClaim : Bytes := []
  rolesClaim : Bytes := []

structure Claims where
  subject : Bytes
  audience : Bytes
  issuer : Bytes
  expiresAt : Int64
  collections : List Bytes
  role : Bytes
  deriving DecidableEq

inductive JwtErr
  | malformedToken
  | badSignature
  | tokenExpired
  | badClaim (claim : String)
  | algMismatch (found configured : Bytes)
  | noRSAKey
  | noECDSAKey
  | unsupportedAlgorithm (algorithm : Bytes)
  deriving DecidableEq

/-- A point in time: whole seconds since the epoch, rounded down, and nanoseconds. -/
structure Time where
  unix : Int64
  nanos : Fin 1000000000
  deriving DecidableEq

namespace Time

def instant (t : Time) : ℚ := t.unix.toInt + t.nanos.val / 1000000000

def latest : Time := ⟨Int64.maxValue, 999999999⟩

theorem instant_lt (t : Time) : t.instant < t.unix.toInt + 1 := by
  have h : (t.nanos.val : ℚ) < 1000000000 := by exact_mod_cast t.nanos.isLt
  rw [instant]
  linarith

theorem instant_le_latest (t : Time) : t.instant ≤ latest.instant := by
  have hn : (t.nanos.val : ℚ) ≤ 999999999 := by exact_mod_cast Nat.le_of_lt_succ t.nanos.isLt
  have hs : (t.unix.toInt : ℚ) ≤ (Int64.maxValue.toInt : ℚ) := by
    exact_mod_cast t.unix.toInt_le
  have hl : latest.instant = Int64.maxValue.toInt + (999999999 : ℕ) / 1000000000 := rfl
  rw [instant, hl]
  linarith

end Time

structure Header where
  alg : Bytes := []
  typ : Bytes := []
  deriving DecidableEq

namespace Header

def setField (h : Header) (key : Bytes) (v : Json) : Option Header :=
  if Json.foldName key = ascii "alg" then (v.intoString h.alg).map fun s => { h with alg := s }
  else if Json.foldName key = ascii "typ" then
    (v.intoString h.typ).map fun s => { h with typ := s }
  else some h

def ofJson : Json → Option Header
  | .null => some {}
  | .obj members => members.foldlM (fun h (key, v) => h.setField key v) {}
  | _ => none

end Header

variable {RSAKey ECDSAKey : Type}

def stringClaim (raw : List (Bytes × Json)) (key : Bytes) : Bytes :=
  match raw.lookup key with
  | none => []
  | some v => (v.intoString []).getD []

namespace JWTConfig

variable (lib : Library RSAKey ECDSAKey) (c : JWTConfig RSAKey ECDSAKey)

def verifySignature (signingInput sig : Bytes) : Except JwtErr Unit :=
  if c.algorithm = ascii "HS256" then
    if sig ≠ lib.hmacSHA256 c.sharedSecret signingInput then .error .badSignature else .ok ()
  else if c.algorithm = ascii "RS256" then
    match c.rsaPublicKey with
    | none => .error .noRSAKey
    | some key =>
      if !lib.verifyPKCS1v15 key (lib.sha256 signingInput) sig then .error .badSignature
      else .ok ()
  else if c.algorithm = ascii "ES256" then
    match c.ecdsaPublicKey with
    | none => .error .noECDSAKey
    | some key =>
      if sig.length ≠ 64 then .error .badSignature
      else if !lib.verifyECDSA key (lib.sha256 signingInput) (Bytes.getBE (sig.take 32))
          (Bytes.getBE (sig.drop 32)) then .error .badSignature
      else .ok ()
  else .error (.unsupportedAlgorithm c.algorithm)

/-- The expiry that the claims give, 0 where none is decoded. -/
def checkExpiry (raw : List (Bytes × Json)) (now : Time) : Except JwtErr Int64 :=
  match raw.lookup (ascii "exp") with
  | none => .ok 0
  | some v =>
    match v.intoInt64 with
    | none => .ok 0
    | some exp => if exp ≤ now.unix then .error .tokenExpired else .ok exp

def extractClaims (payload : Bytes) (now : Time) : Except JwtErr Claims :=
  match (lib.parse payload).bind Json.intoMap with
  | none => .error .malformedToken
  | some raw =>
    let audience := stringClaim raw (ascii "aud")
    let issuer := stringClaim raw (ascii "iss")
    checkExpiry raw now >>= fun expiresAt =>
    if c.audience ≠ [] ∧ audience ≠ c.audience then .error (.badClaim "audience")
    else if c.issuer ≠ [] ∧ issuer ≠ c.issuer then .error (.badClaim "issuer")
    else
      let collClaim := if c.collectionsClaim = [] then ascii "vec_collections"
        else c.collectionsClaim
      let roleClaim := if c.rolesClaim = [] then ascii "vec_role" else c.rolesClaim
      .ok { subject := stringClaim raw (ascii "sub"), audience, issuer, expiresAt,
            collections := ((raw.lookup collClaim).map Json.intoStrings).getD [],
            role := stringClaim raw roleClaim }

def validateJWT (token : Bytes) (now : Time) : Except JwtErr Claims :=
  match token.splitOn (byte '.') with
  | [headerPart, payloadPart, sigPart] =>
    match (lib.base64 headerPart).bind fun text => (lib.parse text).bind Header.ofJson with
    | none => .error .malformedToken
    | some header =>
      if header.alg ≠ c.algorithm then .error (.algMismatch header.alg c.algorithm)
      else
        match lib.base64 sigPart with
        | none => .error .malformedToken
        | some sig =>
          c.verifySignature lib (headerPart ++ byte '.' :: payloadPart) sig >>= fun _ =>
          match lib.base64 payloadPart with
          | none => .error .malformedToken
          | some payload => c.extractClaims lib payload now
  | _ => .error .malformedToken

def Verifies (input sig : Bytes) : Prop :=
  (c.algorithm = ascii "HS256" ∧ sig = lib.hmacSHA256 c.sharedSecret input) ∨
  (c.algorithm = ascii "RS256" ∧
    ∃ key, c.rsaPublicKey = some key ∧ lib.verifyPKCS1v15 key (lib.sha256 input) sig = true) ∨
  (c.algorithm = ascii "ES256" ∧ ∃ key, c.ecdsaPublicKey = some key ∧ sig.length = 64 ∧
    lib.verifyECDSA key (lib.sha256 input) (Bytes.getBE (sig.take 32))
      (Bytes.getBE (sig.drop 32)) = true)

/-- The token with these claims passes every check but that of the expiry. -/
structure Vouched (token : Bytes) (raw : List (Bytes × Json)) : Prop where
  segments : ∃ h p s sig, token.splitOn (byte '.') = [h, p, s] ∧ lib.base64 s = some sig ∧
    (∃ text j header, lib.base64 h = some text ∧ lib.parse text = some j ∧
      Header.ofJson j = some header ∧ header.alg = c.algorithm) ∧
    c.Verifies lib (h ++ byte '.' :: p) sig ∧
    ∃ text j, lib.base64 p = some text ∧ lib.parse text = some j ∧ j.intoMap = some raw
  audience : c.audience ≠ [] → raw.lookup (ascii "aud") = some (.str c.audience)
  issuer : c.issuer ≠ [] → raw.lookup (ascii "iss") = some (.str c.issuer)

def Accepts (token : Bytes) (now : Time) : Prop := ∃ out, c.validateJWT lib token now = .ok out

end JWTConfig

/-- The point in time that an expiry claim gives: only numbers do. -/
def numericDate : Json → Option ℚ
  | .num n => some n.value
  | _ => none

def Unexpired (raw : List (Bytes × Json)) (now : Time) : Prop :=
  ∀ j, raw.lookup (ascii "exp") = some j → ∃ v, numericDate j = some v ∧ now.instant < v

/-- A claimed expiry is an integer of 64 bits in plain digits, or later than any time. -/
def ExpiryDecodes (raw : List (Bytes × Json)) : Prop :=
  ∀ j, raw.lookup (ascii "exp") = some j → ∃ n, j = .num n ∧
    ((n.Plain ∧ -2 ^ 63 ≤ n.integer ∧ n.integer < 2 ^ 63) ∨ Time.latest.instant < n.value)

variable {lib : Library RSAKey ECDSAKey} {c : JWTConfig RSAKey ECDSAKey} {raw : List (Bytes × Json)}
  {token : Bytes}

variable {now : Time}

theorem stringClaim_eq {key s : Bytes} (hs : s ≠ []) :
    stringClaim raw key = s ↔ raw.lookup key = some (.str s) := by
  rw [stringClaim]
  cases raw.lookup key with
  | none => simp [hs.symm]
  | some j => cases j <;> simp [intoString, hs.symm]

theorem verifySignature_eq_ok {input sig : Bytes} :
    c.verifySignature lib input sig = .ok () ↔ c.Verifies lib input sig := by
  have hne : ascii "HS256" ≠ ascii "RS256" ∧ ascii "HS256" ≠ ascii "ES256" ∧
      ascii "RS256" ≠ ascii "ES256" := by decide
  obtain ⟨h₁, h₂, h₃⟩ := hne
  rw [JWTConfig.verifySignature, JWTConfig.Verifies]
  split
  · rename_i ha
    simp [ha, h₁, h₂]
  · rename_i ha
    split
    · rename_i hb
      cases c.rsaPublicKey <;> simp [hb, h₁.symm, h₃]
    · rename_i hb
      split
      · rename_i hd
        cases c.ecdsaPublicKey with
        | none => simp [hd, h₂.symm, h₃.symm]
        | some key =>
          by_cases hl : sig.length = 64 <;> simp [hd, h₂.symm, h₃.symm, hl]
      · rename_i hd
        simp [ha, hb, hd]

theorem checkExpiry_isOk : (∃ e, JWTConfig.checkExpiry raw now = .ok e) ↔
      ∀ j, raw.lookup (ascii "exp") = some j → ∀ exp, j.intoInt64 = some exp → now.unix < exp := by
  rw [JWTConfig.checkExpiry]
  cases raw.lookup (ascii "exp") with
  | none => simp
  | some j =>
    cases hj : j.intoInt64 with
    | none => simp [hj]
    | some exp =>
      by_cases he : exp ≤ now.unix
      · simp [hj, he, Int64.not_lt]
      · simp [hj, he, Int64.not_le.mp he]

theorem extractClaims_isOk {payload : Bytes} {now : Time} :
    (∃ out, c.extractClaims lib payload now = .ok out) ↔
      ∃ raw, (∃ j, lib.parse payload = some j ∧ j.intoMap = some raw) ∧
        (∃ e, JWTConfig.checkExpiry raw now = .ok e) ∧
        (c.audience ≠ [] → raw.lookup (ascii "aud") = some (.str c.audience)) ∧
        (c.issuer ≠ [] → raw.lookup (ascii "iss") = some (.str c.issuer)) := by
  have hclaim : ∀ (raw : List (Bytes × Json)) (key s : Bytes),
      ¬ (s ≠ [] ∧ stringClaim raw key ≠ s) ↔ (s ≠ [] → raw.lookup key = some (.str s)) := by
    intro raw key s
    by_cases hs : s = []
    · simp [hs]
    · rw [← stringClaim_eq hs]
      simp [hs]
  simp only [← Option.bind_eq_some_iff, ← hclaim]
  rw [JWTConfig.extractClaims]
  cases (lib.parse payload).bind intoMap with
  | none => simp
  | some raw =>
    dsimp only
    cases hx : JWTConfig.checkExpiry raw now with
    | error e => simp [hx, bind, Except.bind]
    | ok e =>
      dsimp only [bind, Except.bind]
      split
      · rename_i ha
        simp [ha]
      · rename_i ha
        split
        · rename_i hi
          simp [hi]
        · rename_i hi
          exact ⟨fun _ => ⟨raw, rfl, ⟨e, hx⟩, ha, hi⟩, fun _ => ⟨_, rfl⟩⟩

theorem accepts_iff : c.Accepts lib token now ↔
      ∃ raw, c.Vouched lib token raw ∧ ∃ e, JWTConfig.checkExpiry raw now = .ok e := by
  constructor
  · rintro ⟨out, h⟩
    rw [JWTConfig.validateJWT] at h
    split at h
    · rename_i hp pp sp hsplit
      split at h
      · cases h
      · rename_i header hh
        split at h
        · cases h
        · rename_i halg
          split at h
          · cases h
          · rename_i sig hsig
            obtain ⟨_, hv, h⟩ := Fallible.bind_eq_ok.mp h
            split at h
            · cases h
            · rename_i payload hpay
              obtain ⟨raw, ⟨j, hj, hm⟩, he, ha, hi⟩ := extractClaims_isOk.mp ⟨out, h⟩
              obtain ⟨text, ht, hh⟩ := Option.bind_eq_some_iff.mp hh
              obtain ⟨j', hj', hh⟩ := Option.bind_eq_some_iff.mp hh
              exact ⟨raw, ⟨⟨hp, pp, sp, sig, hsplit, hsig,
                ⟨text, j', header, ht, hj', hh, not_not.mp halg⟩, verifySignature_eq_ok.mp hv,
                payload, j, hpay, hj, hm⟩, ha, hi⟩, he⟩
    · cases h
  · rintro ⟨raw, ⟨⟨hp, pp, sp, sig, hsplit, hsig, ⟨text, j', header, ht, hj', hh, halg⟩, hv,
      payload, j, hpay, hj, hm⟩, ha, hi⟩, he⟩
    obtain ⟨out, ho⟩ := (@extractClaims_isOk _ _ lib c payload now).mpr ⟨raw, ⟨j, hj, hm⟩, he, ha, hi⟩
    refine ⟨out, ?_⟩
    rw [JWTConfig.validateJWT, hsplit]
    have hb : ((lib.base64 hp).bind fun text => (lib.parse text).bind Header.ofJson) =
        some header := by
      simp [ht, hj', hh]
    simp only [hb, halg, hsig, hpay, ho, ne_eq, not_true_eq_false, if_false,
      verifySignature_eq_ok.mpr hv]
    rfl

theorem JWTConfig.Vouched.claims {token h p s : Bytes}
    (hv : c.Vouched lib token raw) (ht : token.splitOn (byte '.') = [h, p, s]) :
    ((lib.base64 p).bind lib.parse).bind Json.intoMap = some raw := by
  obtain ⟨_, p', _, _, hs, _, _, _, text, j, hp, hj, hm⟩ := hv.segments
  obtain ⟨-, rfl, -⟩ : _ ∧ p = p' ∧ _ := by simpa using ht.symm.trans hs
  simp [hp, hj, hm]

theorem JWTConfig.Vouched.raw_unique {raw raw' : List (Bytes × Json)}
    (hv : c.Vouched lib token raw) (hv' : c.Vouched lib token raw') : raw = raw' := by
  obtain ⟨h, p, s, _, hs, _⟩ := hv.segments
  exact Option.some.inj ((hv.claims hs).symm.trans (hv'.claims hs))

theorem unexpired_of_decodes (hd : ExpiryDecodes raw)
    (he : ∃ e, JWTConfig.checkExpiry raw now = .ok e) : Unexpired raw now := by
  intro j hj
  obtain ⟨n, rfl, hn | hn⟩ := hd j hj
  · have hint : (num n).intoInt64 = some (Int64.ofInt n.integer) := if_pos hn
    have hlt : now.unix.toInt + 1 ≤ (Int64.ofInt n.integer).toInt :=
      Int64.lt_iff_toInt_lt.mp (checkExpiry_isOk.mp he _ hj _ hint)
    refine ⟨n.value, rfl, ?_⟩
    rw [intoInt64_num hint]
    exact lt_of_lt_of_le now.instant_lt (by exact_mod_cast hlt)
  · exact ⟨n.value, rfl, lt_of_le_of_lt now.instant_le_latest hn⟩

theorem exists_passed_of_not_decodes (hd : ¬ ExpiryDecodes raw) :
    ∃ now, (∃ e, JWTConfig.checkExpiry raw now = .ok e) ∧ ¬ Unexpired raw now := by
  rw [ExpiryDecodes] at hd
  push Not at hd
  obtain ⟨j, hj, hn⟩ := hd
  -- a null decodes to the start of the epoch, so only a time before that passes it
  refine ⟨if j.intoInt64 = some 0 then ⟨-1, 0⟩ else Time.latest, checkExpiry_isOk.mpr ?_, ?_⟩
  · intro j' hj' exp hexp
    cases hj.symm.trans hj'
    cases j with
    | null =>
      cases hexp
      decide
    | num n =>
      rw [intoInt64] at hexp
      split at hexp
      · rename_i h
        exact absurd ((hn n rfl).1 h.1 h.2.1) (not_le.mpr h.2.2)
      · cases hexp
    | bool b | str s | arr items | obj members => cases hexp
  · intro hu
    obtain ⟨v, hv, hlt⟩ := hu j hj
    cases j with
    | num n =>
      cases hv
      have hnone : (num n).intoInt64 = none := by
        rw [intoInt64]
        exact if_neg fun h => absurd ((hn n rfl).1 h.1 h.2.1) (not_le.mpr h.2.2)
      rw [hnone] at hlt
      exact absurd hlt (not_lt.mpr (hn n rfl).2)
    | null | bool b | str s | arr items | obj members => cases hv

/-- An accepted token has not expired exactly if a claimed expiry is an integer of 64 bits in
plain digits or later than any time. -/
theorem accepted_tokens_sound_iff (lib : Library RSAKey ECDSAKey)
    (c : JWTConfig RSAKey ECDSAKey) (token : Bytes) :
    (∀ now, c.Accepts lib token now → ∃ raw, c.Vouched lib token raw ∧ Unexpired raw now) ↔
      ∀ raw, c.Vouched lib token raw → ExpiryDecodes raw := by
  constructor
  · intro h raw hraw
    by_contra hd
    obtain ⟨now, he, hu⟩ := exists_passed_of_not_decodes hd
    obtain ⟨raw', hraw', hu'⟩ := h now (accepts_iff.mpr ⟨raw, hraw, he⟩)
    obtain rfl := hraw.raw_unique hraw'
    exact hu hu'
  · intro h now ha
    obtain ⟨raw, hraw, he⟩ := accepts_iff.mp ha
    exact ⟨raw, hraw, unexpired_of_decodes (h raw hraw) he⟩

/-- A library whose segments stand for themselves and whose signatures are the key. -/
def toyLibrary : Library Unit Unit where
  base64 := some
  parse text :=
    if text = ascii "header" then some (.obj [(ascii "alg", .str (ascii "HS256"))])
    else if text = ascii "claims" then
      some (.obj [(ascii "exp", .num ⟨false, 1700000000, some [5], none⟩)])
    else none
  hmacSHA256 key _ := key
  sha256 := id
  verifyPKCS1v15 _ _ _ := false
  verifyECDSA _ _ _ _ := false

def toyConfig : JWTConfig Unit Unit :=
  { algorithm := ascii "HS256", sharedSecret := ascii "secret" }

theorem fractional_expiry_accepted :
    let now : Time := ⟨1800000000, 0⟩
    toyConfig.Accepts toyLibrary (ascii "header.claims.secret") now ∧
      ¬ ∃ raw, toyConfig.Vouched toyLibrary (ascii "header.claims.secret") raw ∧
        Unexpired raw now := by
  refine ⟨⟨⟨[], [], [], 0, [], []⟩, by decide +kernel⟩, ?_⟩
  rintro ⟨raw, hv, hu⟩
  have hs : (ascii "header.claims.secret").splitOn (byte '.') =
      [ascii "header", ascii "claims", ascii "secret"] := by decide
  obtain rfl : [(ascii "exp", Json.num ⟨false, 1700000000, some [5], none⟩)] = raw :=
    Option.some.inj (hv.claims hs)
  obtain ⟨v, hv, hlt⟩ := hu _ rfl
  cases hv
  exact absurd hlt (by decide +kernel)

end VecDb.Auth

import VecDb.Server.PgWire.Serve

/-! # The login

What a client has to send before a message of it is handled: after any requests for encryption the
startup message, which names the user, and then the password of that user.
-/

namespace VecDb.PgWire

open List Fallible

open Bytes (getBE putBE)

section Framing

def request (body : Bytes) : Bytes := putBE 4 (body.length + 4) ++ body

def Frame.bytes (f : Frame) : Bytes := f.tag :: request f.body

variable {n : ℕ} {input a body rest : Bytes} {f : Frame}

theorem readFull_eq_some (h : readFull n input = some (a, rest)) :
    input = a ++ rest ∧ a.length = n := by
  unfold readFull at h
  split at h
  · cases h
  · cases h
    exact ⟨(take_append_drop n input).symm, length_take_of_le (by omega)⟩

theorem readBody_eq_some (h : readBody input = some (body, rest)) :
    input = request body ++ rest := by
  obtain ⟨⟨len, input'⟩, hlen, hrest⟩ := Option.bind_eq_some_iff.mp h
  obtain ⟨rfl, hlen4⟩ := readFull_eq_some hlen
  dsimp only at hrest
  split at hrest
  · cases hrest
  · obtain ⟨rfl, hbody⟩ := readFull_eq_some hrest
    have hn : body.length + 4 = getBE len := by omega
    rw [request, hn, Bytes.putBE_getBE hlen4, append_assoc]

theorem readFrame_eq_some (h : readFrame input = some (f, rest)) : input = f.bytes ++ rest := by
  rcases input with _ | ⟨tag, input⟩
  · cases h
  · obtain ⟨⟨body, rest'⟩, hbody, h⟩ := Option.map_eq_some_iff.mp h
    cases h
    rw [readBody_eq_some hbody]
    rfl

end Framing

section Params

def BodyReader.rest (r : BodyReader) : Bytes := r.b.drop r.pos

theorem takeWhile_append_zero {l : Bytes} (h : (l.takeWhile (· ≠ 0)).length < l.length) :
    l = l.takeWhile (· ≠ 0) ++ 0 :: l.drop ((l.takeWhile (· ≠ 0)).length + 1) := by
  have hsplit := @List.takeWhile_append_dropWhile _ (· ≠ (0 : UInt8)) l
  have hhead := head?_dropWhile_not (· ≠ (0 : UInt8)) l
  rcases hd : l.dropWhile (· ≠ 0) with _ | ⟨x, t⟩ <;> rw [hd] at hsplit hhead
  · rw [append_nil] at hsplit
    rw [hsplit] at h
    omega
  · obtain rfl : x = 0 := by simpa using hhead
    generalize l.takeWhile (· ≠ 0) = s at hsplit
    rw [← hsplit, drop_append, drop_of_length_le (Nat.le_succ _), Nat.add_sub_cancel_left]
    rfl

theorem cstring_eq_ok {r r' : BodyReader} {s : Bytes} (h : cstring r = .ok (s, r')) :
    (0 : UInt8) ∉ s ∧ r.rest = s ++ 0 :: r'.rest := by
  unfold cstring at h
  dsimp only at h
  split at h
  · rename_i hlen
    cases h
    refine ⟨fun h0 => ?_, ?_⟩
    · have := mem_takeWhile_imp h0
      simp at this
    · have := takeWhile_append_zero hlen
      rwa [drop_drop] at this
  · cases h

/-- The keys and values of a startup message; what follows an empty key does not count. -/
structure Encodes (p : Bytes) (pairs : List (Bytes × Bytes)) : Prop where
  nonempty : ∀ x ∈ pairs, x.1 ≠ []
  texts : ∀ x ∈ pairs, (0 : UInt8) ∉ x.1 ∧ (0 : UInt8) ∉ x.2
  bytes : ∃ tail, p = (pairs.flatMap fun x => x.1 ++ 0 :: x.2 ++ [0]) ++ tail ∧
    (tail = [] ∨ tail.head? = some 0)

theorem Encodes.nil {tail : Bytes} (h : tail = [] ∨ tail.head? = some 0) : Encodes tail [] :=
  ⟨nofun, nofun, tail, rfl, h⟩

theorem Encodes.cons {p key val : Bytes} {pairs : List (Bytes × Bytes)} (h : Encodes p pairs)
    (hne : key ≠ []) (hkey : (0 : UInt8) ∉ key) (hval : (0 : UInt8) ∉ val) :
    Encodes (key ++ 0 :: (val ++ 0 :: p)) ((key, val) :: pairs) := by
  obtain ⟨tail, rfl, htail⟩ := h.bytes
  refine ⟨forall_mem_cons.mpr ⟨hne, h.nonempty⟩,
    forall_mem_cons.mpr ⟨⟨hkey, hval⟩, h.texts⟩, tail, ?_, htail⟩
  simp

def startupUser (pairs : List (Bytes × Bytes)) : Bytes :=
  let user := ((pairs.filter fun x => x.1 = ascii "user").map Prod.snd).getLastD []
  if user = [] then ascii "vec" else user

theorem user_foldl_setParam (pairs : List (Bytes × Bytes)) (c : Conn) :
    (pairs.foldl (fun c x => setParam c x.1 x.2) c).user =
      ((pairs.filter fun x => x.1 = ascii "user").map Prod.snd).getLastD c.user := by
  induction pairs generalizing c with
  | nil => rfl
  | cons x pairs ih =>
    rw [foldl_cons, ih, filter_cons]
    by_cases hx : x.1 = ascii "user"
    · rw [setParam, if_pos hx, if_pos (decide_eq_true hx), map_cons, getLastD_cons]
    · rw [if_neg (show ¬ decide (x.1 = ascii "user") = true by simpa using hx), setParam, if_neg hx]
      split <;> rfl

theorem startupParams_eq_ok {n : ℕ} {c c' : Conn} {r r' : BodyReader} (hn : r.rest.length ≤ n)
    (h : startupParams n c r = .ok (c', r')) :
    ∃ pairs, Encodes r.rest pairs ∧ c' = pairs.foldl (fun c x => setParam c x.1 x.2) c := by
  induction n generalizing c r with
  | zero =>
    cases h
    exact ⟨[], .nil (.inl (length_eq_zero_iff.mp (by omega))), rfl⟩
  | succ n ih =>
    change (if r.remaining ≤ 0 then pure c else cstring >>= fun key =>
      if key = [] then pure c else cstring >>= fun val => startupParams n (setParam c key val)) r =
      _ at h
    by_cases hrem : r.remaining ≤ 0
    · rw [if_pos hrem] at h
      cases h
      refine ⟨[], .nil (.inl (drop_of_length_le ?_)), rfl⟩
      unfold BodyReader.remaining at hrem
      omega
    · rw [if_neg hrem] at h
      obtain ⟨⟨key, r₁⟩, hkey, h⟩ := bind_eq_ok.mp h
      obtain ⟨hkey0, hrest⟩ := cstring_eq_ok hkey
      dsimp only at h
      by_cases hempty : key = []
      · rw [if_pos hempty] at h
        cases h
        subst hempty
        refine ⟨[], .nil (.inr ?_), rfl⟩
        rw [hrest]
        rfl
      · rw [if_neg hempty] at h
        obtain ⟨⟨val, r₂⟩, hval, h⟩ := bind_eq_ok.mp h
        obtain ⟨hval0, hrest'⟩ := cstring_eq_ok hval
        rw [hrest'] at hrest
        have hlen : r₂.rest.length ≤ n := by
          rw [hrest] at hn
          simp only [length_append, length_cons] at hn
          omega
        obtain ⟨pairs, hpairs, rfl⟩ := ih hlen h
        exact ⟨(key, val) :: pairs, hrest ▸ hpairs.cons hempty hkey0 hval0, rfl⟩

theorem parseStartupParams_eq_ok {c c' : Conn} {p : Bytes} (hc : c.user = [])
    (h : parseStartupParams c p = .ok c') :
    ∃ pairs, Encodes p pairs ∧ c'.user = startupUser pairs := by
  obtain ⟨c₁, hc₁, h⟩ := bind_eq_ok.mp h
  obtain ⟨⟨c₂, r⟩, hr, rfl⟩ := map_eq_ok.mp hc₁
  obtain ⟨pairs, hpairs, rfl⟩ := @startupParams_eq_ok _ _ _ { b := p } _ (le_refl _) hr
  refine ⟨pairs, hpairs, ?_⟩
  have huser := user_foldl_setParam pairs c
  rw [hc] at huser
  cases h
  unfold startupUser
  dsimp only
  rw [← huser]
  split <;> rfl

end Params

section Login

variable {o : Options} {s s' : Session} {input rest : Bytes}

/-- The client has sent the password of the user that the startup message names, after any requests
for encryption. -/
def Verified (o : Options) (input rest : Bytes) : Prop :=
  ∃ (verify : Bytes → Bytes → Bool) (requests : List Bytes) (params : Bytes)
    (pairs : List (Bytes × Bytes)) (pw junk : Bytes), o.verify = some verify ∧
    (∀ b ∈ requests, 4 ≤ b.length ∧ (getBE (b.take 4) = sslMagic ∨ getBE (b.take 4) = gssMagic)) ∧
    input = requests.flatMap request ++ request (putBE 4 protoVersion3 ++ params) ++
      Frame.bytes ⟨byte 'p', pw ++ 0 :: junk⟩ ++ rest ∧
    Encodes params pairs ∧ (0 : UInt8) ∉ pw ∧ verify (startupUser pairs) pw = true

theorem authenticate_eq_accepted (hmode : lowerText o.authMode ∉ trustModes)
    (h : authenticate o s input = .accepted s' rest) : ∃ verify pw junk, o.verify = some verify ∧
      input = Frame.bytes ⟨byte 'p', pw ++ 0 :: junk⟩ ++ rest ∧ (0 : UInt8) ∉ pw ∧
      verify s.conn.user pw = true := by
  unfold authenticate at h
  rw [if_neg hmode] at h
  split at h
  · unfold readPassword at h
    rcases hframe : readFrame input with _ | ⟨⟨tag, body⟩, rest'⟩ <;> rw [hframe] at h
    · cases h
    dsimp only at h
    by_cases htag : tag = byte 'p'
    · subst htag
      rw [if_pos rfl] at h
      rcases hpw : decode cstring body with e | pw <;> rw [hpw] at h
      · rcases e with _ | _ <;> cases h
      rcases hverify : o.verify with _ | verify <;> rw [hverify] at h
      · cases h
      dsimp only at h
      split at h
      · rename_i hok
        cases h
        obtain ⟨⟨pw', r⟩, hr, rfl⟩ := map_eq_ok.mp hpw
        obtain ⟨hpw0, hbody⟩ := cstring_eq_ok hr
        refine ⟨verify, pw', r.rest, rfl, ?_, hpw0, hok⟩
        rw [readFrame_eq_some hframe, ← hbody]
        rfl
      · cases h
    · rw [if_neg htag] at h
      cases h
  · cases h

theorem Verified.request {body : Bytes} (h : Verified o input rest) (hlen : 4 ≤ body.length)
    (hcode : getBE (body.take 4) = sslMagic ∨ getBE (body.take 4) = gssMagic) :
    Verified o (request body ++ input) rest := by
  obtain ⟨verify, requests, params, pairs, pw, junk, hv, hreq, rfl, hp, hpw, hok⟩ := h
  refine ⟨verify, body :: requests, params, pairs, pw, junk, hv,
    forall_mem_cons.mpr ⟨⟨hlen, hcode⟩, hreq⟩, ?_, hp, hpw, hok⟩
  simp only [flatMap_cons, append_assoc]

theorem startup_eq_accepted (hmode : lowerText o.authMode ∉ trustModes) {n : ℕ}
    (hs : s.conn.user = []) (h : startup o n s input = .accepted s' rest) :
    Verified o input rest := by
  induction n generalizing s input with
  | zero => cases h
  | succ n ih =>
    rw [startup] at h
    rcases hbody : readStartup input with _ | ⟨body, rest'⟩ <;> rw [hbody] at h
    · cases h
    have hinput := readBody_eq_some hbody
    dsimp only at h
    split at h
    · cases h
    split at h
    · rename_i hcode
      rw [hinput]
      have hs' : (s.send [.sslRefused]).conn.user = [] := hs
      exact (ih hs' h).request (by omega) hcode
    split at h
    · cases h
    split at h
    · rename_i hcode
      rcases hparams : parseStartupParams s.conn (body.drop 4) with e | conn <;> rw [hparams] at h
      · rcases e with _ | _ <;> cases h
      obtain ⟨pairs, hpairs, huser⟩ := parseStartupParams_eq_ok hs hparams
      obtain ⟨verify, pw, junk, hv, hrest, hpw, hok⟩ := authenticate_eq_accepted hmode h
      have htake : body.take 4 = putBE 4 protoVersion3 := by
        rw [← hcode, Bytes.putBE_getBE (length_take_of_le (by omega))]
      refine ⟨verify, [], body.drop 4, pairs, pw, junk, hv, nofun, ?_, hpairs, hpw, ?_⟩
      · rw [← htake, take_append_drop, hinput, hrest]
        simp
      · rwa [← huser]
    · cases h

theorem loop_handled {turns : ℕ → Turn} {n i : ℕ} :
    (loop o turns n i s input).handled.flatMap Frame.bytes <+: input := by
  induction n generalizing i s input with
  | zero => exact nil_prefix
  | succ n ih =>
    rw [loop]
    split
    · exact nil_prefix
    rcases hframe : readFrame input with _ | ⟨f, rest⟩
    · exact nil_prefix
    rw [readFrame_eq_some hframe]
    dsimp only
    split
    · rw [flatMap_cons]
      exact (prefix_append_right_inj _).mpr ih
    · rw [flatMap_cons, flatMap_nil, append_nil]
      exact prefix_append _ _

/-- In a mode with a password, or an unknown one, a message is handled only after the login, and
only of what the client sends then. -/
theorem handled_after_password (o : Options) (turns : ℕ → Turn) (db : Facade.DB) (input : Bytes)
    (hmode : lowerText o.authMode ∉ trustModes)
    (h : (serve o turns db input).handled ≠ []) :
    ∃ rest, Verified o input rest ∧
      (serve o turns db input).handled.flatMap Frame.bytes <+: rest := by
  unfold serve at h ⊢
  rcases hlogin : startup o (input.length + 1) { db } input with ⟨s, rest⟩ | s | _ <;>
    rw [hlogin] at h
  · refine ⟨rest, startup_eq_accepted hmode rfl hlogin, ?_⟩
    dsimp only
    split <;> exact loop_handled
  · exact absurd rfl h
  · exact absurd rfl h

def guarded (pw : Bytes) : Options :=
  { trusting with authMode := ascii "password", verify := some fun _ given => given = pw }

set_option maxRecDepth 20000 in
theorem handled_after_password_sync :
    ∃ rest, Verified (guarded (ascii "secret"))
        (request (putBE 4 sslMagic) ++ plainStartup ++ message 'p' (ascii "secret" ++ [0]) ++
          message 'S' []) rest ∧
      (serve (guarded (ascii "secret")) (fun _ => {}) {}
        (request (putBE 4 sslMagic) ++ plainStartup ++ message 'p' (ascii "secret" ++ [0]) ++
          message 'S' [])).handled.flatMap Frame.bytes <+: rest :=
  handled_after_password (guarded (ascii "secret")) (fun _ => {}) {} _ (by decide) (by
    rw [show (serve _ _ _ _).handled = [⟨byte 'S', []⟩] from rfl]
    exact List.cons_ne_nil _ _)

end Login

end VecDb.PgWire

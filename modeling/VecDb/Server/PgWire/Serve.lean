import VecDb.Server.PgWire.Conn

/-! # Serving a connection

After the login each message is dispatched by its tag, until the client ends the connection, the
input ends or a message cannot be decoded. What follows an error of the extended protocol is
handled as if there had been none.
-/

namespace VecDb.PgWire

open Bytes (getBE)
open Facade (DB)

/-- What a message meets: whether the server has been stopped, and what each of its statements
meets. -/
structure Turn where
  stopped : Bool := false
  stmt : ℕ → Env := fun _ => {}

section Handlers

def handleSimpleQuery (o : Options) (turn : Turn) (s : Session) (body : Bytes) :
    Except Fault Session := do
  let sql := trimSpace (← decode cstring body)
  if sql = [] then return (s.send [.emptyQuery]).ready
  else return (runAll o turn.stmt s 0 ((splitStatements sql).filter (· ≠ []))).ready

def handleParse (s : Session) (body : Bytes) : Except Fault Session := do
  let (name, sql, paramOIDs) ← decode parseBody body
  let stmts := Function.update s.conn.stmts name (some { sql := trimSpace sql, paramOIDs })
  return { s with conn := { s.conn with stmts } }.send [.parseComplete]

def noStatement (name : Bytes) : PgError :=
  { code := "26000", message := .named "prepared statement " name " does not exist" }

def noPortal (name : Bytes) : PgError :=
  { code := "34000", message := .named "portal " name " does not exist" }

/-- Bind the values of a message to a statement; the rest of the message is not looked at if
there is no such statement. -/
def handleBind (o : Options) (s : Session) (body : Bytes) : Except Fault Session := do
  let ((portal, name), r) ← bindNames { b := body }
  match s.conn.stmts name with
  | none => return s.extendedError (noStatement name)
  | some stmt =>
    let ((formats, values, resultFormats), _) ← bindValues r
    match ← (substituteParams o.sc stmt.sql values formats stmt.paramOIDs).run with
    | .error e => return s.extendedError e
    | .ok sql =>
      let portals := Function.update s.conn.portals portal (some { sql, resultFormats })
      return { s with conn := { s.conn with portals } }.send [.bindComplete]

def handleDescribe (s : Session) (body : Bytes) : Except Fault Session := do
  let (kind, name) ← decode kindName body
  if kind = byte 'S' then
    match s.conn.stmts name with
    | none => return s.extendedError (noStatement name)
    | some stmt =>
      let oids ← inferParamOIDs stmt.sql stmt.paramOIDs
      return s.send [.parameterDescription oids, .noData]
  else return s.send [.noData]

def handleExecute (o : Options) (turn : Turn) (s : Session) (body : Bytes) :
    Except Fault Session := do
  let name ← decode executeBody body
  match s.conn.portals name with
  | none => return s.extendedError (noPortal name)
  | some p =>
    match runStatement o (turn.stmt 0) s p.sql p.resultFormats with
    | (s, none) => return s
    | (s, some e) => return s.extendedError e

def handleClose (s : Session) (body : Bytes) : Except Fault Session := do
  let (kind, name) ← decode kindName body
  let conn :=
    if kind = byte 'S' then { s.conn with stmts := Function.update s.conn.stmts name none }
    else if kind = byte 'P' then { s.conn with portals := Function.update s.conn.portals name none }
    else s.conn
  return { s with conn }.send [.closeComplete]

def syncReset (s : Session) : Session :=
  if s.conn.state = .failed ∨ s.conn.inTxn then s
  else { s with conn := { s.conn with state := .idle } }

end Handlers

section Loop

inductive Tag
  | query | parse | bind | describe | execute | sync | flush | close | terminate
  | other (tag : UInt8)
  deriving DecidableEq

def Frame.kind (f : Frame) : Tag :=
  if f.tag = byte 'Q' then .query
  else if f.tag = byte 'P' then .parse
  else if f.tag = byte 'B' then .bind
  else if f.tag = byte 'D' then .describe
  else if f.tag = byte 'E' then .execute
  else if f.tag = byte 'S' then .sync
  else if f.tag = byte 'H' then .flush
  else if f.tag = byte 'C' then .close
  else if f.tag = byte 'X' then .terminate
  else .other f.tag

/-- How the connection is after a message. -/
inductive Outcome
  | serving (s : Session)
  | closed (s : Session)
  | panicked

/-- An error of a handler closes the connection. -/
def Outcome.of (s : Session) : Except Fault Session → Outcome
  | .ok s => .serving s
  | .error .shortRead => .closed s
  | .error .panic => .panicked

def unknownTag (tag : UInt8) : PgError :=
  { code := "08P01", message := .named "unsupported message type " [tag] "" }

def dispatch (o : Options) (turn : Turn) (s : Session) (f : Frame) : Outcome :=
  match f.kind with
  | .query => .of s (handleSimpleQuery o turn s f.body)
  | .parse => .of s (handleParse s f.body)
  | .bind => .of s (handleBind o s f.body)
  | .describe => .of s (handleDescribe s f.body)
  | .execute => .of s (handleExecute o turn s f.body)
  | .sync => .serving (syncReset s).ready
  | .flush => .serving s
  | .close => .of s (handleClose s f.body)
  | .terminate => .closed s
  | .other tag => .serving (s.extendedError (unknownTag tag))

structure Served where
  handled : List Frame
  outcome : Outcome

/-- Handle the messages of the input; as many rounds as there are bytes are enough. -/
def loop (o : Options) (turns : ℕ → Turn) : ℕ → ℕ → Session → Bytes → Served
  | 0, _, s, _ => ⟨[], .closed s⟩
  | n + 1, i, s, input =>
    if (turns i).stopped then ⟨[], .closed s⟩
    else
      match readFrame input with
      | none => ⟨[], .closed s⟩
      | some (f, rest) =>
        match dispatch o (turns i) s f with
        | .serving s =>
          let r := loop o turns n (i + 1) s rest
          { r with handled := f :: r.handled }
        | r => ⟨[f], r⟩

end Loop

section Startup

def protoVersion3 : ℕ := 0x00030000
def cancelMagic : ℕ := 0x04D2162E
def sslMagic : ℕ := 0x04D2162F
def gssMagic : ℕ := 0x04D21630

/-- How a login ends: with the session and the rest of the input, or without one. -/
inductive Login
  | accepted (s : Session) (rest : Bytes)
  | refused (s : Session)
  | panicked

def Login.failed (s : Session) : Fault → Login
  | .shortRead => .refused s
  | .panic => .panicked

def setParam (c : Conn) (key val : Bytes) : Conn :=
  if key = ascii "user" then { c with user := val }
  else if key = ascii "database" then { c with database := val }
  else c

/-- Keys and values up to an empty key, for some rounds at most. -/
def startupParams : ℕ → Conn → Decode Conn
  | 0, c => return c
  | n + 1, c => do
    if (← get).remaining ≤ 0 then return c
    else
      let key ← cstring
      if key = [] then return c
      else
        let val ← cstring
        startupParams n (setParam c key val)

def parseStartupParams (c : Conn) (p : Bytes) : Except Fault Conn := do
  let c ← decode (startupParams p.length c) p
  return if c.user = [] then { c with user := ascii "vec" } else c

def readPassword (input : Bytes) : Option (Except Fault Bytes × Bytes) :=
  match readFrame input with
  | none => none
  | some (f, rest) => if f.tag = byte 'p' then some (decode cstring f.body, rest) else none

def startupStatus (o : Options) (user : Bytes) : List Msg :=
  [(ascii "server_version", ascii "15.0 (vec " ++ o.version ++ ascii ")"),
    (ascii "client_encoding", ascii "UTF8"), (ascii "DateStyle", ascii "ISO, MDY"),
    (ascii "TimeZone", ascii "UTC"), (ascii "integer_datetimes", ascii "on"),
    (ascii "standard_conforming_strings", ascii "on"), (ascii "application_name", []),
    (ascii "is_superuser", ascii "off"), (ascii "session_authorization", user)].map
    (fun p => .parameterStatus p.1 p.2) ++ [.backendKeyData]

def fatal (s : Session) (code : String) (message : Message) : Login :=
  .refused (s.send [.errorResponse { code, message }])

def welcome (o : Options) (s : Session) (rest : Bytes) : Login :=
  .accepted (s.send (.authenticationOk :: startupStatus o s.conn.user)).ready rest

def trustModes : List Bytes := ["", "none", "trust"].map ascii

def passwordModes : List Bytes := ["password", "md5", "cleartext"].map ascii

def authenticate (o : Options) (s : Session) (input : Bytes) : Login :=
  let mode := lowerText o.authMode
  if mode ∈ trustModes then welcome o s input
  else if mode ∈ passwordModes then
    let s := s.send [.authenticationCleartext]
    match readPassword input with
    | none => .refused s
    | some (.error e, _) => .failed s e
    | some (.ok pw, rest) =>
      match o.verify with
      | none => fatal s "28P01" (.text "password authentication is not configured")
      | some verify =>
        if verify s.conn.user pw then welcome o s rest
        else fatal s "28P01" (.named "password authentication failed for user " s.conn.user "")
  else fatal s "28P01" (.named "unsupported auth mode " o.authMode "")

/-- Answer requests until one starts the session, for some rounds at most. -/
def startup (o : Options) : ℕ → Session → Bytes → Login
  | 0, s, _ => .refused s
  | n + 1, s, input =>
    match readStartup input with
    | none => .refused s
    | some (body, rest) =>
      if body.length < 4 then .refused s
      else
        let code := getBE (body.take 4)
        if code = sslMagic ∨ code = gssMagic then startup o n (s.send [.sslRefused]) rest
        else if code = cancelMagic then .refused s
        else if code = protoVersion3 then
          match parseStartupParams s.conn (body.drop 4) with
          | .error e => .failed s e
          | .ok conn => authenticate o { s with conn } rest
        else fatal s "08P01" (.text ("unsupported protocol version " ++ toString (code / 2 ^ 16) ++
          "." ++ toString (code % 2 ^ 16)))

end Startup

/-- Serve a connection with all that the client sends on it. What is open at the end is rolled
back. -/
def serve (o : Options) (turns : ℕ → Turn) (db : DB) (input : Bytes) : Served :=
  match startup o (input.length + 1) { db } input with
  | .refused s => ⟨[], .closed s.closeTxn⟩
  | .panicked => ⟨[], .panicked⟩
  | .accepted s rest =>
    let r := loop o turns (rest.length + 1) 0 s rest
    match r.outcome with
    | .serving s | .closed s => { r with outcome := .closed s.closeTxn }
    | .panicked => r

/-- The messages that a session handles, each with the state it is handled in. -/
def visited (o : Options) (turns : ℕ → Turn) : ℕ → ℕ → Session → Bytes → List (Session × Frame)
  | 0, _, _, _ => []
  | n + 1, i, s, input =>
    if (turns i).stopped then []
    else
      match readFrame input with
      | none => []
      | some (f, rest) =>
        (s, f) ::
          match dispatch o (turns i) s f with
          | .serving s => visited o turns n (i + 1) s rest
          | _ => []

def messages (o : Options) (turns : ℕ → Turn) (db : DB) (input : Bytes) : List (Session × Frame) :=
  match startup o (input.length + 1) { db } input with
  | .accepted s rest => visited o turns (rest.length + 1) 0 s rest
  | _ => []

def trusting : Options where
  version := []
  authMode := ascii "trust"
  verify := none
  path := []
  sc :=
    { shortest64 := fun _ => ⟨0, []⟩, shortest32 := fun _ => ⟨0, []⟩, parseFloat := fun _ => none
      widen := fun _ => ⟨0⟩, parseFloat32 := fun _ => none, general64 := fun _ => []
      general32 := fun _ => [] }
  codecs := ⟨Storage.fp32Codec, Storage.fp32Codec, Storage.fp32Codec⟩
  builders := ⟨fun _ => .error .badParams, fun _ _ => .error .badParams⟩
  machine :=
    { platform :=
        { ops :=
            { add := fun a _ => a, sub := fun a _ => a, mul := fun a _ => a, div := fun a _ => a
              max := fun a _ => a, ceil := id, sqrt := id, log2 := id, toInt := fun _ => 0 }
          predicateText := fun _ => "" }
      workers := 1
      kernels := ⟨fun _ _ => ⟨0⟩, fun _ _ => ⟨0⟩, fun _ _ => ⟨0⟩⟩ }
  timeText := fun _ => []

def plainStartup : Bytes := [0, 0, 0, 8, 0, 3, 0, 0]

def message (tag : Char) (body : Bytes) : Bytes :=
  byte tag :: Bytes.putBE 4 (body.length + 4) ++ body

end VecDb.PgWire

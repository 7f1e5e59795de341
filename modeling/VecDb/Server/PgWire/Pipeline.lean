import VecDb.Server.PgWire.Blocks

/-! # Pipelines of messages

After an error all messages up to the next Sync should be passed over. The server handles them
nevertheless: a Bind that fails leaves the earlier portal of the same name in its place, and the
Execute that follows runs it.
-/

namespace VecDb.PgWire

open Fallible Outcome

open Facade (DB)

structure Received where
  turn : Turn
  before : Session
  frame : Frame

def received (o : Options) (turns : ℕ → Turn) (db : DB) (input : Bytes) : List Received :=
  (messages o turns db input).zipIdx.map fun (x, i) => ⟨turns i, x.1, x.2⟩

def Msg.isError : Msg → Bool
  | .errorResponse _ => true
  | _ => false

/-- Whether there has been an error of the extended protocol since the last Sync. -/
def errorStep (o : Options) (pending : Bool) (x : Received) : Bool :=
  match x.frame.kind with
  | .sync => false
  | .query => pending
  | _ => pending || (answers o x.turn x.before x.frame).any Msg.isError

/-- A message that asks for nothing: an empty Query, or one that names a statement or portal that
does not exist. -/
def Received.idle (x : Received) : Bool :=
  match x.frame.kind with
  | .query =>
    match decode cstring x.frame.body with
    | .ok sql => ((splitStatements (trimSpace sql)).filter (· ≠ [])).isEmpty
    | .error _ => true
  | .bind =>
    match bindNames { b := x.frame.body } with
    | .ok ((_, name), _) => (x.before.conn.stmts name).isNone
    | .error _ => true
  | .execute =>
    match decode executeBody x.frame.body with
    | .ok name => (x.before.conn.portals name).isNone
    | .error _ => true
  | .close =>
    match decode kindName x.frame.body with
    | .ok (kind, name) =>
      if kind = byte 'S' then (x.before.conn.stmts name).isNone
      else if kind = byte 'P' then (x.before.conn.portals name).isNone
      else true
    | .error _ => true
  | _ => true

/-- A message that binds, executes and closes nothing. Parse may prepare a statement. -/
structure Received.Inert (o : Options) (x : Received) : Prop where
  ran : ran o x.turn x.before x.frame = []
  portals : ∀ s', dispatch o x.turn x.before x.frame = .serving s' →
    s'.conn.portals = x.before.conn.portals
  stmts : ∀ s', dispatch o x.turn x.before x.frame = .serving s' → x.frame.kind ≠ .parse →
    s'.conn.stmts = x.before.conn.stmts

variable {o : Options} {s s' : Session} {turn : Turn} {body : Bytes} {x : Received}

theorem extendedError_portals (e : PgError) : (s.extendedError e).conn.portals = s.conn.portals ∧
    (s.extendedError e).conn.stmts = s.conn.stmts := by
  unfold Session.extendedError Session.failBlock
  split <;> exact ⟨rfl, rfl⟩

/-- What a message stores is not changed. -/
def Stored (s s' : Session) : Prop :=
  s'.conn.portals = s.conn.portals ∧ s'.conn.stmts = s.conn.stmts

theorem Stored.inert (hran : ran o x.turn x.before x.frame = [])
    (h : ∀ s', dispatch o x.turn x.before x.frame = .serving s' → Stored x.before s') : x.Inert o :=
  ⟨hran, fun s' hd => (h s' hd).1, fun s' hd _ => (h s' hd).2⟩

theorem handleSimpleQuery_stored (h : handleSimpleQuery o turn s body = .ok s')
    (hidle : ∀ sql, decode cstring body = .ok sql →
      (splitStatements (trimSpace sql)).filter (· ≠ []) = []) : Stored s s' := by
  obtain ⟨sql, hsql, h⟩ := bind_eq_ok.mp h
  dsimp only at h
  split at h
  · cases h
    exact ⟨rfl, rfl⟩
  · rw [hidle sql hsql] at h
    cases h
    exact ⟨rfl, rfl⟩

theorem handleBind_stored (h : handleBind o s body = .ok s')
    (hidle : ∀ portal name r, bindNames { b := body } = .ok ((portal, name), r) →
      s.conn.stmts name = none) : Stored s s' := by
  obtain ⟨⟨⟨portal, name⟩, r⟩, hnames, h⟩ := bind_eq_ok.mp h
  dsimp only at h
  rw [hidle portal name r hnames] at h
  cases h
  exact extendedError_portals _

theorem handleDescribe_stored (h : handleDescribe s body = .ok s') : Stored s s' := by
  obtain ⟨⟨kind, name⟩, -, h⟩ := bind_eq_ok.mp h
  dsimp only at h
  split at h
  · rcases hstmt : s.conn.stmts name with _ | stmt <;> rw [hstmt] at h
    · cases h
      exact extendedError_portals _
    · obtain ⟨oids, -, h⟩ := bind_eq_ok.mp h
      cases h
      exact ⟨rfl, rfl⟩
  · cases h
    exact ⟨rfl, rfl⟩

theorem handleExecute_stored (h : handleExecute o turn s body = .ok s')
    (hidle : ∀ name, decode executeBody body = .ok name → s.conn.portals name = none) :
    Stored s s' := by
  obtain ⟨name, hname, h⟩ := bind_eq_ok.mp h
  rw [hidle name hname] at h
  cases h
  exact extendedError_portals _

theorem update_eq_self {α : Type} {m : Bytes → Option α} {name : Bytes} (h : m name = none) :
    Function.update m name none = m := by
  rw [← h, Function.update_eq_self]

theorem handleClose_stored (h : handleClose s body = .ok s')
    (hidle : ∀ kind name, decode kindName body = .ok (kind, name) →
      (kind = byte 'S' → s.conn.stmts name = none) ∧
        (kind ≠ byte 'S' → kind = byte 'P' → s.conn.portals name = none)) : Stored s s' := by
  obtain ⟨⟨kind, name⟩, hname, h⟩ := bind_eq_ok.mp h
  obtain ⟨hstmt, hportal⟩ := hidle kind name hname
  cases h
  by_cases hS : kind = byte 'S'
  · rw [if_pos hS]
    exact ⟨rfl, update_eq_self (hstmt hS)⟩
  rw [if_neg hS]
  by_cases hP : kind = byte 'P'
  · rw [if_pos hP]
    exact ⟨update_eq_self (hportal hS hP), rfl⟩
  · rw [if_neg hP]
    exact ⟨rfl, rfl⟩

theorem Received.inert_of_idle (h : x.idle = true) : x.Inert o := by
  unfold Received.idle at h
  rcases hk : x.frame.kind with _ | _ | _ | _ | _ | _ | _ | _ | _ | tag <;> rw [hk] at h
  case query =>
    have hidle : ∀ sql, decode cstring x.frame.body = .ok sql →
        (splitStatements (trimSpace sql)).filter (· ≠ []) = [] := by
      intro sql hsql
      rw [hsql] at h
      exact List.isEmpty_iff.mp h
    refine Stored.inert ?_ fun s' hd => ?_
    · unfold PgWire.ran
      rw [hk]
      rcases hsql : decode cstring x.frame.body with e | sql
      · rfl
      · dsimp only
        rw [hidle sql hsql]
        rfl
    · unfold dispatch at hd
      rw [hk] at hd
      exact handleSimpleQuery_stored (of_eq_serving.mp hd) hidle
  case execute =>
    have hidle : ∀ name, decode executeBody x.frame.body = .ok name →
        x.before.conn.portals name = none := by
      intro name hname
      rw [hname] at h
      exact Option.isNone_iff_eq_none.mp h
    refine Stored.inert ?_ fun s' hd => ?_
    · rw [ran_execute hk]
      rcases hname : decode executeBody x.frame.body with e | name
      · rfl
      · rw [Except.toOption, Option.bind, hidle name hname]
    · unfold dispatch at hd
      rw [hk] at hd
      exact handleExecute_stored (of_eq_serving.mp hd) hidle
  all_goals
    have hran : PgWire.ran o x.turn x.before x.frame = [] :=
      ran_eq_nil (by rw [hk]; intro h; cases h) (by rw [hk]; intro h; cases h)
  case parse =>
    refine ⟨hran, fun s' hd => ?_, fun _ _ hne => absurd hk hne⟩
    unfold dispatch at hd
    rw [hk] at hd
    obtain ⟨⟨name, sql, oids⟩, -, h⟩ := bind_eq_ok.mp (of_eq_serving.mp hd)
    cases h
    rfl
  all_goals
    refine Stored.inert hran fun s' hd => ?_
    unfold dispatch at hd
    rw [hk] at hd
  case bind =>
    refine handleBind_stored (of_eq_serving.mp hd) fun portal name r hnames => ?_
    rw [hnames] at h
    exact Option.isNone_iff_eq_none.mp h
  case describe => exact handleDescribe_stored (of_eq_serving.mp hd)
  case close =>
    refine handleClose_stored (of_eq_serving.mp hd) fun kind name hname => ?_
    rw [hname] at h
    dsimp only at h
    refine ⟨fun hS => ?_, fun hS hP => ?_⟩
    · rw [if_pos hS] at h
      exact Option.isNone_iff_eq_none.mp h
    · rw [if_neg hS, if_pos hP] at h
      exact Option.isNone_iff_eq_none.mp h
  case sync =>
    cases hd
    unfold Stored syncReset
    split <;> exact ⟨rfl, rfl⟩
  case flush =>
    cases hd
    exact ⟨rfl, rfl⟩
  case terminate => cases hd
  case other =>
    cases hd
    exact extendedError_portals _

/-- On every connection, as long as the client asks for nothing between an error of the extended
protocol and the next Sync, no message there binds, executes or closes anything. -/
theorem nothing_before_sync (o : Options) (turns : ℕ → Turn) (db : DB) (input : Bytes)
    (h : Watched (errorStep o) (fun pending x => pending = true → x.idle = true) false
      (received o turns db input)) :
    Watched (errorStep o) (fun pending x => pending = true → x.Inert o) false
      (received o turns db input) :=
  h.mono fun _ _ hidle hpending => Received.inert_of_idle (hidle hpending)

section Samples

def rebind (first : Bytes) : Bytes :=
  plainStartup ++ message 'P' ([0] ++ ascii "SELECT version()" ++ [0, 0, 0]) ++
    message 'B' (first ++ [0, 0, 0, 0, 0, 0, 0, 0]) ++
    message 'B' ([0] ++ ascii "x" ++ [0, 0, 0, 0, 0, 0, 0]) ++
    message 'E' [0, 0, 0, 0, 0] ++ message 'S' []

theorem nothing_before_sync_rebind :
    Watched (errorStep trusting) (fun pending x => pending = true → x.Inert trusting) false
      (received trusting (fun _ => {}) {} (rebind (ascii "p"))) :=
  nothing_before_sync trusting (fun _ => {}) {} (rebind (ascii "p")) (by decide +kernel)

/-- After a Bind has failed, an Execute runs the earlier portal of the same name. -/
theorem execute_runs_earlier_portal :
    ¬ Watched (errorStep trusting) (fun pending x => pending = true → x.Inert trusting) false
      (received trusting (fun _ => {}) {} (rebind [])) := by
  have hran : ¬ Watched (errorStep trusting)
      (fun pending x => pending = true → (ran trusting x.turn x.before x.frame).isEmpty = true) false
      (received trusting (fun _ => {}) {} (rebind [])) := by
    decide +kernel
  exact fun h => hran (h.mono fun _ _ hinert hpending => List.isEmpty_iff.mpr (hinert hpending).ran)

end Samples

end VecDb.PgWire

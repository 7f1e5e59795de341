import VecDb.Server.PgWire.Login

/-! # Transaction blocks

A connection reports with every `ReadyForQuery` whether it is in a transaction block that has
failed; a monitor of its trace agrees. A failed block should have no effect: but its statements
are run like others, and it can be committed.
-/

namespace VecDb.PgWire

open List Fallible Session Outcome Storage.Engine

open VectorSql (Stmt)
open Facade (DB)

section Statements

/-- A statement that is run: what it meets, and the session before it. -/
structure Ran where
  env : Env
  before : Session
  sql : Bytes
  formats : List Int16

namespace Ran

variable (o : Options) (x : Ran)

def result : Session × Option PgError := runStatement o x.env x.before x.sql x.formats

def met : Session := { x.before with db := x.env.other x.before.db }

def text : Bytes := trimSpace (trimSuffix (trimSpace x.sql) (ascii ";"))

def stmt : Option Stmt :=
  match txnCommand (lowerText x.text), handleCatalog o x.met x.text (lowerText x.text) x.formats with
  | none, none => (VectorSql.parse o.sc.toFloatText x.text).toOption
  | _, _ => none

/-- The transaction command that the statement is, by its text or for the parser. -/
def command : Option TxnCommand :=
  match txnCommand (lowerText x.text), x.stmt o with
  | some c, _ => some c
  | none, some (.txn st) => TxnKind.command st.kind
  | none, _ => none

def writes : Bool :=
  match x.stmt o with
  | some (.createTable _) | some (.createIndex _) | some (.drop _)
  | some (.insert _) | some (.update _) | some (.delete _) => true
  | _ => false

end Ran

def Msg.quiet : Msg → Bool
  | .errorResponse _ | .readyForQuery _ => false
  | _ => true

/-- What every statement keeps but the transaction commands. -/
structure Keeps (s s' : Session) : Prop where
  inTxn : s'.conn.inTxn = s.conn.inTxn
  state : s'.conn.state = s.conn.state
  stmts : s'.conn.stmts = s.conn.stmts
  portals : s'.conn.portals = s.conn.portals
  out : ∃ msgs, s'.out = s.out ++ msgs ∧ ∀ m ∈ msgs, m.quiet = true

namespace Keeps

variable {s : Session} {msgs : List Msg}

theorem refl (s : Session) : Keeps s s := ⟨rfl, rfl, rfl, rfl, [], by simp, forall_mem_nil _⟩

theorem send (h : ∀ m ∈ msgs, m.quiet = true) : Keeps s (s.send msgs) :=
  ⟨rfl, rfl, rfl, rfl, msgs, rfl, h⟩

theorem complete (tag : Bytes) : Keeps s (s.send [.commandComplete tag]) :=
  send (forall_mem_singleton.mpr rfl)

theorem changed (r : DB × Except PgError Bytes) : Keeps s (s.changed r).1 := by
  obtain ⟨db, e | tag⟩ := r
  · exact ⟨rfl, rfl, rfl, rfl, [], by simp [Session.changed], forall_mem_nil _⟩
  · exact ⟨rfl, rfl, rfl, rfl, [.commandComplete tag], rfl, forall_mem_singleton.mpr rfl⟩

end Keeps

theorem applySet_keeps (c : Conn) (raw : Bytes) :
    ∃ settings, applySet c raw = { c with settings } := by
  unfold applySet
  dsimp only
  repeat' split
  all_goals exact ⟨_, rfl⟩

theorem scalarResult_quiet (r : CatalogResult) (formats : List Int16) :
    ∀ m ∈ scalarResult r formats, m.quiet = true := by
  intro m hm
  simp only [scalarResult, cons_append, mem_cons, mem_append, mem_map, not_mem_nil, or_false] at hm
  rcases hm with rfl | ⟨_, _, rfl⟩ | rfl <;> rfl

theorem handleCatalog_eq_some {o : Options} {s s' : Session} {raw low : Bytes}
    {formats : List Int16} (h : handleCatalog o s raw low formats = some s') :
    s'.db = s.db ∧ Keeps s s' := by
  unfold handleCatalog at h
  split at h
  · obtain ⟨settings, hset⟩ := applySet_keeps s.conn raw
    cases h
    rw [hset]
    exact ⟨rfl, rfl, rfl, rfl, rfl, [_], rfl, forall_mem_singleton.mpr rfl⟩
  iterate 4
    split at h
    · cases h
      exact ⟨rfl, .complete _⟩
  obtain ⟨r, -, rfl⟩ := Option.map_eq_some_iff.mp h
  exact ⟨rfl, .send (scalarResult_quiet r formats)⟩

theorem execSelect_keeps (o : Options) (env : Env) (s : Session) (sel : VectorSql.SelectStmt)
    (formats : List Int16) :
    (execSelect o env s sel formats).1.db = s.db ∧ Keeps s (execSelect o env s sel formats).1 := by
  unfold execSelect
  split
  · exact ⟨rfl, .refl s⟩
  split
  · exact ⟨rfl, .refl s⟩
  · dsimp only
    refine ⟨rfl, Keeps.send fun m hm => ?_⟩
    simp only [cons_append, mem_cons, mem_append, mem_map, not_mem_nil, or_false] at hm
    rcases hm with rfl | ⟨_, _, rfl⟩ | rfl <;> rfl

theorem Ran.result_cases (o : Options) (x : Ran) :
    (∃ c, x.command o = some c ∧ x.result o = Session.commanded (handleTxnControl x.met c)) ∨
      (x.command o = none ∧ Keeps x.met (x.result o).1 ∧
        (x.writes o = false → (x.result o).1.db = x.met.db)) := by
  unfold Ran.result runStatement Ran.command Ran.writes Ran.stmt Ran.text Ran.met
  dsimp only
  generalize trimSpace (trimSuffix (trimSpace x.sql) (ascii ";")) = text
  generalize hmet : ({ x.before with db := x.env.other x.before.db } : Session) = met
  rw [show x.env.other x.before.db = met.db by rw [← hmet]]
  rcases htxn : txnCommand (lowerText text) with _ | c
  · rcases hcat : handleCatalog o met text (lowerText text) x.formats with _ | s'
    · dsimp only
      unfold execVectorSQL
      rcases VectorSql.parse o.sc.toFloatText text with e | st
      · exact .inr ⟨rfl, .refl _, fun _ => rfl⟩
      cases st with
      | select sel =>
        have h := execSelect_keeps o x.env met sel x.formats
        exact .inr ⟨rfl, h.2, fun _ => h.1⟩
      | createTable st | createIndex st | insert st | update st | delete st | drop st =>
        exact .inr ⟨rfl, .changed _, nofun⟩
      | txn st =>
        dsimp only [Except.toOption]
        rcases TxnKind.command st.kind with _ | c
        · exact .inr ⟨rfl, .refl _, fun _ => rfl⟩
        · exact .inl ⟨c, rfl, rfl⟩
      | set st | pragma st => exact .inr ⟨rfl, .complete _, fun _ => rfl⟩
      | _ => exact .inr ⟨rfl, .refl _, fun _ => rfl⟩
    · obtain ⟨hdb, hkeeps⟩ := handleCatalog_eq_some hcat
      exact .inr ⟨rfl, hkeeps, fun _ => hdb⟩
  · exact .inl ⟨c, rfl, rfl⟩

end Statements

section Trace

inductive Event
  | statement (x : Ran)
  | sent (m : Msg)

def ranAll (o : Options) (env : ℕ → Env) : Session → ℕ → List Bytes → List Ran
  | _, _, [] => []
  | s, i, sql :: sqls =>
    let x : Ran := ⟨env i, s, sql, []⟩
    x ::
      match x.result o with
      | (s, none) => ranAll o env s (i + 1) sqls
      | (_, some _) => []

def ran (o : Options) (turn : Turn) (s : Session) (f : Frame) : List Ran :=
  match f.kind with
  | .query =>
    match decode cstring f.body with
    | .error _ => []
    | .ok sql => ranAll o turn.stmt s 0 ((splitStatements (trimSpace sql)).filter (· ≠ []))
  | .execute =>
    match (decode executeBody f.body).toOption.bind s.conn.portals with
    | none => []
    | some p => [⟨turn.stmt 0, s, p.sql, p.resultFormats⟩]
  | _ => []

def answers (o : Options) (turn : Turn) (s : Session) (f : Frame) : List Msg :=
  match dispatch o turn s f with
  | .serving s' => s'.out.drop s.out.length
  | _ => []

def events (o : Options) (turn : Turn) (s : Session) (f : Frame) : List Event :=
  (ran o turn s f).map .statement ++ (answers o turn s f).map .sent

/-- The events of all messages of a connection, one message after the other. -/
def trace (o : Options) (turns : ℕ → Turn) (db : DB) (input : Bytes) : List Event :=
  (messages o turns db input).zipIdx.flatMap fun (x, i) => events o (turns i) x.1 x.2

variable {σ E : Type} {o : Options} {turns : ℕ → Turn} {next : σ → E → σ} {P Q : σ → E → Prop}
  {read : Turn → Session → Frame → List E} {I : σ → Session → Prop}

theorem Watched.visited (hstep : ∀ st turn s f, I st s → Watched next P st (read turn s f) →
      Watched next Q st (read turn s f) ∧
        ∀ s', dispatch o turn s f = .serving s' → I ((read turn s f).foldl next st) s')
    {n i : ℕ} {s : Session} {input : Bytes} {st : σ} (hs : I st s) (h : Watched next P st
      (((visited o turns n i s input).zipIdx i).flatMap fun (x, k) => read (turns k) x.1 x.2)) :
    Watched next Q st
      (((visited o turns n i s input).zipIdx i).flatMap fun (x, k) => read (turns k) x.1 x.2) := by
  induction n generalizing i s input st with
  | zero => trivial
  | succ n ih =>
    rw [PgWire.visited] at h ⊢
    by_cases hstopped : (turns i).stopped = true
    · rw [if_pos hstopped]
      trivial
    rw [if_neg hstopped] at h ⊢
    rcases hf : readFrame input with _ | ⟨f, rest⟩
    · trivial
    rw [hf] at h
    rw [zipIdx_cons, flatMap_cons, watched_append] at h ⊢
    obtain ⟨hq, hserving⟩ := hstep st (turns i) s f hs h.1
    refine ⟨hq, ?_⟩
    rcases hd : dispatch o (turns i) s f with s' | s' | _ <;> rw [hd] at h
    · exact ih (hserving s' hd) h.2
    · trivial
    · trivial

end Trace

section Block

def TxnState.fail (st : TxnState) : TxnState := if st = .inBlock then .failed else st

/-- How a block goes on: it starts with BEGIN, fails with an error, and ends with COMMIT or
ROLLBACK. -/
def TxnState.after (st : TxnState) : Option TxnCommand → Option PgError → TxnState
  | some .commit, _ | some .rollback, _ => .idle
  | some .begin, none => if st = .idle then .inBlock else st
  | none, none => st
  | _, some _ => st.fail

def blockStep (o : Options) (st : TxnState) : Event → TxnState
  | .statement x => st.after (x.command o) (x.result o).2
  | .sent (.errorResponse _) => st.fail
  | .sent _ => st

/-- Two databases with the same contents; their clocks may differ. -/
def SameData (db db' : DB) : Prop :=
  ∃ clock, db' = { db with sys := { db.sys with engine := { db.sys.engine with clock } } }

/-- The open transaction has written nothing. -/
def Unwritten (db : DB) : Prop := ∀ t, db.sys.writer = some t → t.stamp = [] ∧ t.undo = []

/-- In a failed block there is no statement that writes, and it is committed only if nothing has
been written before. -/
def Calm (o : Options) (st : TxnState) : Event → Prop
  | .statement x => st = .failed → x.writes o = false ∧
      (x.command o = some .commit → Unwritten x.met.db)
  | .sent _ => True

/-- The statements of a failed block do not change the database, COMMIT does the same as ROLLBACK,
and reports are right. -/
def Kept (o : Options) (st : TxnState) : Event → Prop
  | .statement x => st = .failed →
      (x.command o ≠ some .commit → x.command o ≠ some .rollback →
        (x.result o).1.db = x.met.db) ∧
      (x.command o = some .commit →
        SameData (handleTxnControl x.met .rollback).1.db (x.result o).1.db)
  | .sent (.readyForQuery reported) => reported = st
  | .sent _ => True

/-- A block is open as long as its transaction. -/
def Session.Consistent (s : Session) : Prop := s.conn.inTxn = true ↔ s.conn.state ≠ .idle

variable {o : Options} {s s' : Session} {st : TxnState} {x : Ran} {msgs : List Msg} {e : PgError}

theorem Keeps.consistent (h : Keeps s s') (hs : s.Consistent) : s'.Consistent := by
  unfold Session.Consistent
  rw [h.inTxn, h.state]
  exact hs

theorem Session.failBlock_state : s.failBlock.conn.state = s.conn.state.fail := by
  unfold Session.failBlock TxnState.fail
  split <;> rfl

theorem Session.failBlock_consistent (hs : s.Consistent) : s.failBlock.Consistent := by
  unfold Session.failBlock
  split
  case isTrue h =>
    have hopen := hs.mpr (by rw [h]; exact nofun)
    exact iff_of_true hopen nofun
  case isFalse => exact hs

theorem TxnState.fail_fail : st.fail.fail = st.fail := by
  cases st <;> rfl

theorem quiet_of_ne {m : Msg} (hq : m.quiet = true) : blockStep o st (.sent m) = st ∧
    Kept o st (.sent m) := by
  cases m <;> first | exact ⟨rfl, trivial⟩ | cases hq

theorem foldl_quiet (h : ∀ m ∈ msgs, m.quiet = true) :
    (msgs.map Event.sent).foldl (blockStep o) st = st ∧
      Watched (blockStep o) (Kept o) st (msgs.map .sent) := by
  induction msgs with
  | nil => exact ⟨rfl, trivial⟩
  | cons m msgs ih =>
    obtain ⟨hm, hms⟩ := forall_mem_cons.mp h
    obtain ⟨hstep, hkept⟩ := @quiet_of_ne o st m hm
    rw [map_cons, foldl_cons, Watched, hstep]
    exact ⟨(ih hms).1, hkept, (ih hms).2⟩

/-- What a session has sent since another one, without errors and reports. -/
def Said (s s' : Session) : Prop := ∃ msgs, s'.out = s.out ++ msgs ∧ ∀ m ∈ msgs, m.quiet = true

theorem closeTxn_consistent : s.closeTxn.Consistent := iff_of_false nofun fun h => h rfl

theorem handleTxnControl_cases (hs : s.Consistent) (c : TxnCommand) :
    (handleTxnControl s c).1.Consistent ∧ (handleTxnControl s c).1.out = s.out ∧
      match c with
      | .commit | .rollback => (handleTxnControl s c).1.conn.state = .idle
      | .begin => if s.conn.state = .idle then
          (handleTxnControl s c).1.conn.state =
            (match (handleTxnControl s c).2 with | .ok _ => .inBlock | .error _ => .idle)
        else (handleTxnControl s c).1 = s ∧ ∃ tag, (handleTxnControl s c).2 = .ok tag := by
  cases c with
  | begin =>
    unfold handleTxnControl
    by_cases hidle : s.conn.state = .idle
    · have hclosed : ¬ s.conn.inTxn = true := fun h => hs.mp h hidle
      rw [if_neg hclosed, if_pos hidle]
      rcases s.db.begin with ⟨db, e | _⟩
      · exact ⟨hs, rfl, hidle⟩
      · exact ⟨iff_of_true rfl nofun, rfl, rfl⟩
    · rw [if_pos (hs.mpr hidle), if_neg hidle]
      exact ⟨hs, rfl, rfl, _, rfl⟩
  | commit =>
    have hclosed : ∀ db, ({ s with
        db, conn := { s.conn with inTxn := false, state := .idle } } : Session).Consistent :=
      fun _ => iff_of_false nofun fun h => h rfl
    unfold handleTxnControl
    dsimp only
    split
    · rcases s.db.commit with ⟨db, e | _⟩ <;> exact ⟨hclosed db, rfl, rfl⟩
    · exact ⟨hclosed s.db, rfl, rfl⟩
  | rollback => exact ⟨closeTxn_consistent, rfl, rfl⟩

def noted : Session × Option PgError → TxnState
  | (s, none) => s.conn.state
  | (s, some _) => s.conn.state.fail

theorem commanded_step (hs : s.Consistent) (c : TxnCommand) :
    (Session.commanded (handleTxnControl s c)).1.Consistent ∧
      Said s (Session.commanded (handleTxnControl s c)).1 ∧
      s.conn.state.after (some c) (Session.commanded (handleTxnControl s c)).2 =
        noted (Session.commanded (handleTxnControl s c)) := by
  obtain ⟨hcons, hout, hstate⟩ := handleTxnControl_cases hs c
  rcases hctl : handleTxnControl s c with ⟨s', e | tag⟩ <;> rw [hctl] at hcons hout hstate
  · refine ⟨hcons, ⟨[], by rw [append_nil]; exact hout, forall_mem_nil _⟩, ?_⟩
    change s.conn.state.after (some c) (some e) = s'.conn.state.fail
    cases c with
    | begin =>
      dsimp only at hstate
      split at hstate
      case isTrue hidle =>
        rw [hstate, hidle]
        rfl
      case isFalse =>
        obtain ⟨-, tag, htag⟩ := hstate
        cases htag
    | commit | rollback =>
      rw [hstate]
      rfl
  · refine ⟨hcons, ⟨[.commandComplete tag], ?_, forall_mem_singleton.mpr rfl⟩, ?_⟩
    · exact congrArg (· ++ [Msg.commandComplete tag]) hout
    change s.conn.state.after (some c) none = s'.conn.state
    cases c with
    | begin =>
      dsimp only at hstate
      split at hstate
      case isTrue hidle => rw [hstate, TxnState.after, if_pos hidle]
      case isFalse hidle => rw [hstate.1, TxnState.after, if_neg hidle]
    | commit | rollback => exact hstate.symm

theorem statement_step (o : Options) (hs : x.before.Consistent) :
    (x.result o).1.Consistent ∧ Said x.before (x.result o).1 ∧
      blockStep o x.before.conn.state (.statement x) = noted (x.result o) := by
  have hmet : x.met.Consistent := hs
  rcases x.result_cases o with ⟨c, hc, hr⟩ | ⟨hc, hkeeps, -⟩
  · rw [blockStep, hc, hr]
    exact commanded_step hmet c
  · refine ⟨hkeeps.consistent hmet, hkeeps.out, ?_⟩
    rw [blockStep, hc]
    have hstate : (x.result o).1.conn.state = x.before.conn.state := hkeeps.state
    rw [← hstate]
    rcases x.result o with ⟨s', _ | e⟩ <;> rfl

theorem sameData_commit {db : DB} (h : Unwritten db) : SameData db.rollback.1 db.commit.1 := by
  unfold Facade.DB.commit Facade.DB.rollback
  rcases hw : db.sys.writer with _ | t
  · exact ⟨db.sys.engine.clock, rfl⟩
  · obtain ⟨hstamp, hundo⟩ := h t hw
    dsimp only
    unfold commit abort publish
    rw [hstamp, hundo]
    exact ⟨db.sys.engine.drawSeq.1.clock, rfl⟩

theorem commit_db (h : s.conn.inTxn = true) : (handleTxnControl s .commit).1.db = s.db.commit.1 := by
  unfold handleTxnControl
  dsimp only
  rw [if_pos h]
  rcases s.db.commit with ⟨db, e | _⟩ <;> rfl

theorem commanded_db (r : Session × Except PgError Bytes) :
    (Session.commanded r).1.db = r.1.db := by
  obtain ⟨s, e | tag⟩ := r <;> rfl

theorem kept_of_calm (hs : x.before.Consistent) (h : Calm o x.before.conn.state (.statement x)) :
    Kept o x.before.conn.state (.statement x) := by
  intro hfailed
  obtain ⟨hwrites, hunwritten⟩ := h hfailed
  have hopen : x.met.conn.inTxn = true := hs.mpr (by rw [hfailed]; exact nofun)
  rcases x.result_cases o with ⟨c, hc, hr⟩ | ⟨hc, -, hdb⟩
  · rw [hc, hr]
    cases c with
    | begin =>
      refine ⟨fun _ _ => ?_, nofun⟩
      unfold handleTxnControl
      rw [if_pos hopen]
      rfl
    | rollback => exact ⟨fun _ h => absurd rfl h, nofun⟩
    | commit =>
      refine ⟨fun h => absurd rfl h, fun _ => ?_⟩
      have hback : (handleTxnControl x.met .rollback).1.db = x.met.db.rollback.1 := if_pos hopen
      rw [commanded_db, commit_db hopen, hback]
      exact sameData_commit (hunwritten hc)
  · rw [hc]
    exact ⟨fun _ _ => hdb hwrites, nofun⟩

/-- What a session has sent since another one brings the block to the state that it is in, and
reports it as it is. -/
structure Answered (o : Options) (st : TxnState) (s s' : Session) : Prop where
  consistent : s'.Consistent
  sent : ∃ msgs, s'.out = s.out ++ msgs ∧
    (msgs.map Event.sent).foldl (blockStep o) st = s'.conn.state ∧
    Watched (blockStep o) (Kept o) st (msgs.map .sent)

theorem Session.failBlock_send : (s.send msgs).failBlock = s.failBlock.send msgs := by
  unfold Session.failBlock
  by_cases h : s.conn.state = .inBlock
  · rw [if_pos h, if_pos (show (s.send msgs).conn.state = .inBlock from h)]
    rfl
  · rw [if_neg h, if_neg (show ¬ (s.send msgs).conn.state = .inBlock from h)]

theorem Session.extendedError_out : (s.extendedError e).out = s.out ++ [.errorResponse e] := by
  unfold Session.extendedError Session.failBlock
  split <;> rfl

namespace Answered

variable {s'' : Session} {e : PgError}

theorem refl (hs : s.Consistent) : Answered o s.conn.state s s :=
  ⟨hs, [], (append_nil _).symm, rfl, trivial⟩

theorem after_said (h : Said s s') (h' : Answered o st s' s'') : Answered o st s s'' := by
  obtain ⟨msgs, hout, hq⟩ := h
  obtain ⟨hcons, msgs', hout', hfold, hkept⟩ := h'
  obtain ⟨hfold', hkept'⟩ := @foldl_quiet o st msgs hq
  refine ⟨hcons, msgs ++ msgs', by rw [hout', hout, append_assoc], ?_, ?_⟩
  · rw [map_append, foldl_append, hfold', hfold]
  · rw [map_append, watched_append, hfold']
    exact ⟨hkept', hkept⟩

theorem concat {m : Msg} (h : Answered o st s s') (hs : s''.Consistent)
    (hout : s''.out = s'.out ++ [m]) (hm : Kept o s'.conn.state (.sent m))
    (hstep : blockStep o s'.conn.state (.sent m) = s''.conn.state) : Answered o st s s'' := by
  obtain ⟨-, msgs, hout', hfold, hkept⟩ := h
  refine ⟨hs, msgs ++ [m], by rw [hout, hout', append_assoc], ?_, ?_⟩
  · rw [map_append, foldl_append, hfold]
    exact hstep
  · rw [map_append, watched_append, hfold]
    exact ⟨hkept, hm, trivial⟩

theorem ready (h : Answered o st s s') : Answered o st s s'.ready :=
  h.concat h.consistent rfl rfl rfl

theorem extendedError (h : Answered o st s s') : Answered o st s (s'.extendedError e) :=
  @concat _ _ _ _ _ (.errorResponse e) h (failBlock_consistent h.consistent)
    extendedError_out trivial failBlock_state.symm

end Answered

variable {turn : Turn} {f : Frame} {body : Bytes}

section

variable (hs : s.Consistent)
include hs

theorem answered_noted : Answered o s.conn.state.fail s (s.extendedError e) := by
  refine ⟨failBlock_consistent hs, [.errorResponse e], extendedError_out, ?_, trivial, trivial⟩
  exact TxnState.fail_fail.trans failBlock_state.symm

theorem runAll_step {env : ℕ → Env} {i : ℕ} {sqls : List Bytes}
    (hcalm : Watched (blockStep o) (Calm o) s.conn.state ((ranAll o env s i sqls).map .statement)) :
    Watched (blockStep o) (Kept o) s.conn.state ((ranAll o env s i sqls).map .statement) ∧
      Answered o (((ranAll o env s i sqls).map .statement).foldl (blockStep o) s.conn.state) s
        (runAll o env s i sqls) := by
  induction sqls generalizing s i with
  | nil => exact ⟨trivial, .refl hs⟩
  | cons sql sqls ih =>
    have hrun : runStatement o (env i) s sql [] = Ran.result o ⟨env i, s, sql, []⟩ := rfl
    obtain ⟨hcons, hsaid, hstep⟩ := @statement_step ⟨env i, s, sql, []⟩ o hs
    rw [ranAll, map_cons, Watched, hstep] at hcalm
    have hkept := @kept_of_calm o ⟨env i, s, sql, []⟩ hs hcalm.1
    rw [runAll, hrun, ranAll, map_cons, foldl_cons, Watched, hstep]
    rcases hr : Ran.result o ⟨env i, s, sql, []⟩ with ⟨s', _ | e⟩ <;>
      rw [hr] at hcons hsaid hcalm
    · obtain ⟨hwatched, hanswered⟩ := ih hcons hcalm.2
      exact ⟨⟨hkept, hwatched⟩, hanswered.after_said hsaid⟩
    · refine ⟨⟨hkept, trivial⟩, ?_⟩
      dsimp only
      rw [failBlock_send]
      exact (answered_noted hcons).after_said hsaid

theorem answered_send {c : Conn} (hq : msgs.all Msg.quiet = true)
    (hstate : c.state = s.conn.state) (htxn : c.inTxn = s.conn.inTxn) :
    Answered o s.conn.state s ({ s with conn := c }.send msgs) := by
  obtain ⟨hfold, hkept⟩ := @foldl_quiet o s.conn.state msgs (all_eq_true.mp hq)
  refine ⟨?_, msgs, rfl, hfold.trans hstate.symm, hkept⟩
  change c.inTxn = true ↔ c.state ≠ .idle
  rw [hstate, htxn]
  exact hs

theorem handleParse_answered (h : handleParse s body = .ok s') : Answered o s.conn.state s s' := by
  obtain ⟨⟨name, sql, oids⟩, -, h⟩ := bind_eq_ok.mp h
  cases h
  exact answered_send hs rfl rfl rfl

theorem handleBind_answered (h : handleBind o s body = .ok s') : Answered o s.conn.state s s' := by
  obtain ⟨⟨⟨portal, name⟩, r⟩, -, h⟩ := bind_eq_ok.mp h
  dsimp only at h
  rcases hstmt : s.conn.stmts name with _ | stmt <;> rw [hstmt] at h
  · cases h
    exact (Answered.refl hs).extendedError
  obtain ⟨⟨⟨formats, values, resultFormats⟩, r'⟩, -, h⟩ := bind_eq_ok.mp h
  obtain ⟨e | sql, -, h⟩ := bind_eq_ok.mp h
  · cases h
    exact (Answered.refl hs).extendedError
  · cases h
    exact answered_send hs rfl rfl rfl

theorem handleDescribe_answered (h : handleDescribe s body = .ok s') :
    Answered o s.conn.state s s' := by
  obtain ⟨⟨kind, name⟩, -, h⟩ := bind_eq_ok.mp h
  dsimp only at h
  split at h
  · rcases hstmt : s.conn.stmts name with _ | stmt <;> rw [hstmt] at h
    · cases h
      exact (Answered.refl hs).extendedError
    · obtain ⟨oids, -, h⟩ := bind_eq_ok.mp h
      cases h
      exact answered_send hs rfl rfl rfl
  · cases h
    exact answered_send hs rfl rfl rfl

theorem handleClose_answered (h : handleClose s body = .ok s') : Answered o s.conn.state s s' := by
  obtain ⟨⟨kind, name⟩, -, h⟩ := bind_eq_ok.mp h
  cases h
  refine answered_send hs rfl ?_ ?_ <;> (repeat' split) <;> rfl

theorem syncReset_eq : syncReset s = s := by
  unfold syncReset
  split
  · rfl
  case isFalse h =>
    have hidle : s.conn.state = .idle := by
      by_contra hne
      exact h (.inr (hs.mpr hne))
    rw [← hidle]

end

theorem ran_eq_nil (hq : f.kind ≠ .query) (he : f.kind ≠ .execute) : ran o turn s f = [] := by
  unfold ran
  split
  · exact absurd ‹_› hq
  · exact absurd ‹_› he
  · rfl

section

variable (hran : Watched (blockStep o) (Kept o) s.conn.state ((ran o turn s f).map .statement))
include hran
theorem Answered.events {st : TxnState}
    (hst : ((ran o turn s f).map .statement).foldl (blockStep o) s.conn.state = st)
    (hd : dispatch o turn s f = .serving s') (h : Answered o st s s') :
    Watched (blockStep o) (Kept o) s.conn.state (events o turn s f) ∧
      (events o turn s f).foldl (blockStep o) s.conn.state = s'.conn.state := by
  obtain ⟨-, msgs, hout, hfold, hkept⟩ := h
  have hanswers : answers o turn s f = msgs := by
    unfold answers
    rw [hd]
    dsimp only
    rw [hout]
    exact drop_left
  unfold PgWire.events
  rw [hanswers, watched_append, foldl_append, hst]
  exact ⟨⟨hran, hkept⟩, hfold⟩

theorem events_of_not_serving (hd : ∀ s', dispatch o turn s f ≠ .serving s') :
    Watched (blockStep o) (Kept o) s.conn.state (events o turn s f) := by
  unfold events answers
  rcases h : dispatch o turn s f with s' | s' | _
  · exact absurd h (hd s')
  all_goals
    rwa [map_nil, append_nil]

end

theorem Outcome.of_eq_serving {r : Except Fault Session} :
    Outcome.of s r = .serving s' ↔ r = .ok s' := by
  rcases r with (_ | _) | s''
  · exact iff_of_false nofun nofun
  · exact iff_of_false nofun nofun
  · exact ⟨fun h => by cases h; rfl, fun h => by cases h; rfl⟩

/-- The statements of a message keep what they should, and its answers are right. -/
def Handled (o : Options) (turn : Turn) (s : Session) (f : Frame) : Prop :=
  Watched (blockStep o) (Kept o) s.conn.state ((ran o turn s f).map .statement) ∧
    ∀ s', dispatch o turn s f = .serving s' →
      Answered o (((ran o turn s f).map .statement).foldl (blockStep o) s.conn.state) s s'

theorem query_step (hs : s.Consistent) (hk : f.kind = .query)
    (hcalm : Watched (blockStep o) (Calm o) s.conn.state ((ran o turn s f).map .statement)) :
    Handled o turn s f := by
  rw [Handled]
  unfold dispatch ran at *
  rw [hk] at hcalm ⊢
  simp only [of_eq_serving]
  unfold handleSimpleQuery
  rcases hdec : decode cstring f.body with e | sql <;> rw [hdec] at hcalm
  · exact ⟨trivial, nofun⟩
  obtain ⟨hkept, hanswered⟩ := runAll_step hs hcalm
  refine ⟨hkept, fun s' h => ?_⟩
  change (if trimSpace sql = [] then pure (s.send [.emptyQuery]).ready else pure _) = _ at h
  split at h
  case isTrue hempty =>
    cases h
    dsimp only
    rw [hempty]
    exact (@answered_send o s [.emptyQuery] hs s.conn rfl rfl rfl).ready
  case isFalse =>
    cases h
    exact hanswered.ready

def executed : Session × Option PgError → Session
  | (s, none) => s
  | (s, some e) => s.extendedError e

theorem executed_answered (hs : x.before.Consistent) :
    Answered o (blockStep o x.before.conn.state (.statement x)) x.before
      (executed (x.result o)) := by
  obtain ⟨hcons, hsaid, hstep⟩ := statement_step o hs
  rw [hstep]
  rcases hr : x.result o with ⟨s', _ | e⟩ <;> rw [hr] at hcons hsaid
  · exact (Answered.refl hcons).after_said hsaid
  · exact (answered_noted hcons).after_said hsaid

theorem handleExecute_eq {name : Bytes} (h : decode executeBody body = .ok name) :
    handleExecute o turn s body =
      match s.conn.portals name with
      | none => .ok (s.extendedError (noPortal name))
      | some p => .ok (executed (Ran.result o ⟨turn.stmt 0, s, p.sql, p.resultFormats⟩)) := by
  unfold handleExecute Ran.result
  rw [h]
  dsimp only [bind, Except.bind]
  rcases s.conn.portals name with _ | p
  · rfl
  dsimp only
  rcases runStatement o (turn.stmt 0) s p.sql p.resultFormats with ⟨s', _ | e⟩ <;> rfl

theorem ran_execute (hk : f.kind = .execute) : ran o turn s f =
      match (decode executeBody f.body).toOption.bind s.conn.portals with
      | none => []
      | some p => [⟨turn.stmt 0, s, p.sql, p.resultFormats⟩] := by
  unfold ran
  rw [hk]

theorem execute_step (hs : s.Consistent) (hk : f.kind = .execute)
    (hcalm : Watched (blockStep o) (Calm o) s.conn.state ((ran o turn s f).map .statement)) :
    Handled o turn s f := by
  have hd : dispatch o turn s f = .of s (handleExecute o turn s f.body) := by
    unfold dispatch
    rw [hk]
  have hran := @ran_execute o s turn f hk
  rw [Handled, hd]
  simp only [of_eq_serving]
  rcases hdec : decode executeBody f.body with e | name <;> rw [hdec] at hran
  · rw [hran]
    refine ⟨trivial, fun s' h => ?_⟩
    unfold handleExecute at h
    rw [hdec] at h
    cases h
  rw [handleExecute_eq hdec]
  rcases hp : s.conn.portals name with _ | p
  · have hnil : ran o turn s f = [] := by
      rw [hran, Except.toOption, Option.bind, hp]
    rw [hnil]
    refine ⟨trivial, fun s' h => ?_⟩
    rw [← Except.ok.inj h]
    exact (Answered.refl hs).extendedError
  · have hone : ran o turn s f = [⟨turn.stmt 0, s, p.sql, p.resultFormats⟩] := by
      rw [hran, Except.toOption, Option.bind, hp]
    rw [hone, map_singleton] at hcalm ⊢
    rw [watched_singleton] at hcalm ⊢
    refine ⟨@kept_of_calm o ⟨turn.stmt 0, s, p.sql, p.resultFormats⟩ hs hcalm, fun s' h => ?_⟩
    rw [← Except.ok.inj h, foldl_cons, foldl_nil]
    exact @executed_answered o ⟨turn.stmt 0, s, p.sql, p.resultFormats⟩ hs

theorem message_step (hs : s.Consistent)
    (hcalm : Watched (blockStep o) (Calm o) s.conn.state ((ran o turn s f).map .statement)) :
    Handled o turn s f := by
  -- all messages but two run no statement, and are left to their handlers
  have hnone : f.kind ≠ .query → f.kind ≠ .execute →
      (∀ s', dispatch o turn s f = .serving s' → Answered o s.conn.state s s') →
      Handled o turn s f := by
    intro hq he h
    rw [Handled, ran_eq_nil hq he]
    exact ⟨trivial, h⟩
  rcases hk : f.kind with _ | _ | _ | _ | _ | _ | _ | _ | _ | tag
  case query => exact query_step hs hk hcalm
  case execute => exact execute_step hs hk hcalm
  all_goals
    refine hnone (by rw [hk]; exact nofun) (by rw [hk]; exact nofun) fun s' hd => ?_
    unfold dispatch at hd
    rw [hk] at hd
  case parse => exact handleParse_answered hs (of_eq_serving.mp hd)
  case bind => exact handleBind_answered hs (of_eq_serving.mp hd)
  case describe => exact handleDescribe_answered hs (of_eq_serving.mp hd)
  case close => exact handleClose_answered hs (of_eq_serving.mp hd)
  case sync =>
    cases hd
    rw [syncReset_eq hs]
    exact (Answered.refl hs).ready
  case flush =>
    cases hd
    exact .refl hs
  case terminate => cases hd
  case other =>
    cases hd
    exact (Answered.refl hs).extendedError

theorem events_step (hs : s.Consistent)
    (hcalm : Watched (blockStep o) (Calm o) s.conn.state (events o turn s f)) :
    Watched (blockStep o) (Kept o) s.conn.state (events o turn s f) ∧
      ∀ s', dispatch o turn s f = .serving s' →
        (events o turn s f).foldl (blockStep o) s.conn.state = s'.conn.state ∧ s'.Consistent := by
  obtain ⟨hran, hanswered⟩ := message_step hs (watched_append.mp hcalm).1
  refine ⟨?_, fun s' hd => ?_⟩
  · by_cases hserving : ∃ s', dispatch o turn s f = .serving s'
    · obtain ⟨s', hd⟩ := hserving
      exact (Answered.events hran rfl hd (hanswered s' hd)).1
    · exact events_of_not_serving hran fun s' hd => hserving ⟨s', hd⟩
  · exact ⟨(Answered.events hran rfl hd (hanswered s' hd)).2, (hanswered s' hd).consistent⟩

def Conn.Fresh (c : Conn) : Prop := c.state = .idle ∧ c.inTxn = false

theorem Conn.Fresh.setParam {c : Conn} (h : c.Fresh) (key val : Bytes) :
    (setParam c key val).Fresh := by
  unfold PgWire.setParam
  repeat' split
  all_goals exact h

theorem Conn.Fresh.parseStartupParams {c c' : Conn} {p : Bytes} (hc : c.Fresh)
    (h : parseStartupParams c p = .ok c') : c'.Fresh := by
  obtain ⟨c₁, hc₁, h⟩ := bind_eq_ok.mp h
  obtain ⟨⟨c₂, r⟩, hr, rfl⟩ := map_eq_ok.mp hc₁
  obtain ⟨pairs, -, rfl⟩ := @startupParams_eq_ok _ _ _ { b := p } _ (le_refl _) hr
  have hfold : (pairs.foldl (fun c x => PgWire.setParam c x.1 x.2) c).Fresh :=
    List.foldlRecOn pairs _ hc fun _ hc x _ => hc.setParam x.1 x.2
  cases h
  split <;> exact hfold

variable {input rest : Bytes} {es : List Event}

theorem fresh_of_authenticate (hs : s.conn.Fresh)
    (h : authenticate o s input = .accepted s' rest) : s'.conn.Fresh := by
  have hwelcome : ∀ {s : Session} {rest' : Bytes}, s.conn.Fresh →
      welcome o s rest' = .accepted s' rest → s'.conn.Fresh := by
    intro s rest' hs h
    cases h
    exact hs
  unfold authenticate at h
  dsimp only at h
  split at h
  · exact hwelcome hs h
  split at h
  case isFalse => cases h
  split at h
  · cases h
  · rename_i e _ _
    rcases e with _ | _ <;> cases h
  split at h
  · cases h
  split at h
  · refine hwelcome ?_ h
    exact hs
  · cases h

theorem fresh_of_startup {n : ℕ} (hs : s.conn.Fresh) (h : startup o n s input = .accepted s' rest) :
    s'.conn.Fresh := by
  induction n generalizing s input with
  | zero => cases h
  | succ n ih =>
    rw [startup] at h
    rcases hbody : readStartup input with _ | ⟨body, rest'⟩ <;> rw [hbody] at h
    · cases h
    dsimp only at h
    split at h
    · cases h
    split at h
    · have hsend : (s.send [.sslRefused]).conn.Fresh := hs
      exact ih hsend h
    split at h
    · cases h
    split at h
    · rcases hparams : parseStartupParams s.conn (body.drop 4) with e | conn <;> rw [hparams] at h
      · rcases e with _ | _ <;> cases h
      · have hconn : ({ s with conn } : Session).conn.Fresh := hs.parseStartupParams hparams
        exact fresh_of_authenticate hconn h
    · cases h

/-- On every connection where no statement of a failed block writes, and nothing written before is
committed: its statements have no effect, COMMIT does the same as ROLLBACK, and reports are right.
-/
theorem failed_block_kept (o : Options) (turns : ℕ → Turn) (db : DB) (input : Bytes)
    (h : Watched (blockStep o) (Calm o) .idle (trace o turns db input)) :
    Watched (blockStep o) (Kept o) .idle (trace o turns db input) := by
  unfold trace messages at *
  rcases hlogin : startup o (input.length + 1) { db } input with ⟨s, rest⟩ | s | _ <;>
    rw [hlogin] at h
  · obtain ⟨hstate, htxn⟩ := fresh_of_startup ⟨rfl, rfl⟩ hlogin
    refine Watched.visited (I := fun st s => st = s.conn.state ∧ s.Consistent) ?_
      ⟨hstate.symm, ?_⟩ h
    · rintro st turn s f ⟨rfl, hs⟩ hcalm
      obtain ⟨hkept, hserving⟩ := events_step hs hcalm
      exact ⟨hkept, hserving⟩
    · unfold Session.Consistent
      rw [hstate, htxn]
      exact iff_of_false nofun fun h => h rfl
  · trivial
  · trivial

section Samples

def queries (sqls : List String) : Bytes :=
  plainStartup ++ sqls.flatMap fun sql => message 'Q' (ascii sql ++ [0])

def lenient : Options :=
  { trusting with sc := { trusting.sc with parseFloat32 := fun _ => some ⟨0⟩ } }

def Uncommitted (o : Options) (st : TxnState) : Event → Prop
  | .statement x => st = .failed → x.writes o = false ∧ x.command o ≠ some .commit
  | .sent _ => True

instance (o : Options) (st : TxnState) : ∀ e, Decidable (Uncommitted o st e)
  | .statement x =>
    inferInstanceAs (Decidable (st = .failed → x.writes o = false ∧ x.command o ≠ some .commit))
  | .sent _ => .isTrue trivial

theorem calm_of_uncommitted (h : Watched (blockStep o) (Uncommitted o) st es) :
    Watched (blockStep o) (Calm o) st es := by
  refine h.mono fun st e he => ?_
  cases e with
  | statement x => exact fun hst => ⟨(he hst).1, fun hc => absurd hc (he hst).2⟩
  | sent m => trivial

theorem failed_block_kept_version :
    Watched (blockStep trusting) (Kept trusting) .idle (trace trusting (fun _ => {}) {}
      (queries ["BEGIN", "x", "SELECT version()", "ROLLBACK"])) :=
  failed_block_kept trusting (fun _ => {}) {}
    (queries ["BEGIN", "x", "SELECT version()", "ROLLBACK"]) (calm_of_uncommitted (by decide +kernel))

def look (db : DB) : Bool × Bool :=
  ((db.colls (ascii "t")).isSome, (db.sys.engine.colls 1).any fun c => (c.idmap.fwd 0).isSome)

theorem look_of_sameData {db db' : DB} (h : SameData db db') : look db' = look db := by
  obtain ⟨clock, rfl⟩ := h
  rfl

def Seen (o : Options) (st : TxnState) : Event → Prop
  | .statement x => st = .failed →
      (x.command o ≠ some .commit → x.command o ≠ some .rollback →
        look (x.result o).1.db = look x.met.db) ∧
      (x.command o = some .commit →
        look (x.result o).1.db = look (handleTxnControl x.met .rollback).1.db)
  | .sent _ => True

instance (o : Options) (st : TxnState) : ∀ e, Decidable (Seen o st e)
  | .statement x => inferInstanceAs (Decidable (st = .failed →
      (x.command o ≠ some .commit → x.command o ≠ some .rollback →
        look (x.result o).1.db = look x.met.db) ∧
      (x.command o = some .commit →
        look (x.result o).1.db = look (handleTxnControl x.met .rollback).1.db)))
  | .sent _ => .isTrue trivial

theorem not_kept (h : ¬ Watched (blockStep o) (Seen o) st es) :
    ¬ Watched (blockStep o) (Kept o) st es := by
  refine fun hkept => h (hkept.mono fun st e he => ?_)
  cases e with
  | statement x =>
    exact fun hst => ⟨fun hc hr => congrArg look ((he hst).1 hc hr),
      fun hc => look_of_sameData ((he hst).2 hc)⟩
  | sent m => trivial

/-- A table is created in a failed block; and a row that was inserted before the error is kept by
COMMIT. -/
theorem failed_block_writes :
    ¬ Watched (blockStep lenient) (Kept lenient) .idle (trace lenient (fun _ => {}) {}
        (queries ["BEGIN", "x", "CREATE TABLE t (v vector(1))", "ROLLBACK"])) ∧
      ¬ Watched (blockStep lenient) (Kept lenient) .idle (trace lenient (fun _ => {}) {}
        (queries ["CREATE TABLE t (v vector(1))", "BEGIN", "INSERT INTO t (v) VALUES ('[1]')", "x",
          "COMMIT"])) :=
  ⟨not_kept (by decide +kernel), not_kept (by decide +kernel)⟩

end Samples

end Block

end VecDb.PgWire

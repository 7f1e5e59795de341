import VecDb.Base.Locks

/-! # The locks of a scan

A scan holds the engine's lock for reading over all its points and takes it again to fetch each of
them. If a writer arrives between two points, each waits for the other.
-/

namespace VecDb.Facade

open Locks List

inductive Lock where
  /-- The mutex of the single writer of a database. -/
  | writeMu
  /-- The mutex of the single writer of an engine. -/
  | writerMu
  /-- The read-write lock of a database. -/
  | dbMu
  /-- The mutex of a transaction. -/
  | txnMu (txn : ℕ)
  /-- The mutex of the ids of a collection. -/
  | identity
  /-- The read-write lock of an engine. -/
  | mu
  /-- The read-write lock of a metadata store. -/
  | columns
  deriving DecidableEq

def Lock.rank : Lock → ℕ
  | .writeMu => 0
  | .writerMu => 1
  | .dbMu | .txnMu _ | .identity => 2
  | .mu => 3
  | .columns => 4

/-- A mutex that is taken for a moment. -/
def briefly (l : Lock) : List (Act Lock) := [.lock l, .unlock l]

inductive Cell where
  | read
  | write
  deriving DecidableEq

def Cell.acts : Cell → List (Act Lock)
  | .read => [.rlock .columns, .runlock .columns]
  | .write => briefly .columns

def stateActs : List (Act Lock) := [.rlock .dbMu, .runlock .dbMu]

/-- `Engine.Fetch`, for a number of columns; without columns, `Engine.LookupID`. -/
def fetchActs (cols : ℕ) : List (Act Lock) :=
  .rlock .mu :: ((List.replicate cols Cell.read).flatMap Cell.acts ++ [.runlock .mu])

/-- A call of the engine that changes it: `Insert`, `Upsert`, `Delete`, `UpdateMeta`, and what
`Commit` and `Abort` do. -/
def changeActs (cells : List Cell) : List (Act Lock) :=
  .lock .mu :: (cells.flatMap Cell.acts ++ [.unlock .mu])

/-- What a write transaction does between its begin and its end. -/
inductive TxnCall where
  | state
  /-- `IsDone` and the calls about savepoints. -/
  | status
  /-- The catalog checks an id, assigns one or notes that it is deleted. -/
  | identity
  | fetch (cols : ℕ)
  | change (cells : List Cell)
  deriving DecidableEq

def TxnCall.acts (txn : ℕ) : TxnCall → List (Act Lock)
  | .state => stateActs
  | .status => briefly (.txnMu txn)
  | .identity => briefly .identity
  | .fetch cols => fetchActs cols
  | .change cells => changeActs cells

inductive Task where
  /-- `Collection.Scan`, with the number of columns fetched for each point that it visits. -/
  | scan (points : List ℕ)
  /-- A write transaction, with what its commit or rollback changes. -/
  | transaction (txn : ℕ) (calls : List TxnCall) (finish : List Cell)
  deriving DecidableEq

def Task.acts : Task → List (Act Lock)
  | .scan points => stateActs ++ .rlock .mu :: (points.flatMap fetchActs ++ [.runlock .mu])
  | .transaction txn calls finish =>
    stateActs ++ .lock .writeMu :: .lock .writerMu ::
      (calls.flatMap (TxnCall.acts txn) ++ .lock (.txnMu txn) :: (changeActs finish ++
        [.unlock .writerMu, .unlock .writeMu, .unlock (.txnMu txn)]))

/-- Threads that run scans and write transactions on one engine, before any of them starts. -/
def threads {T : Type*} (tasks : T → List Task) : Sys T Lock where
  prog t := (tasks t).flatMap Task.acts
  mutex _ := {}

section Discipline

variable {h : List (Lock × Bool)}

theorem disciplined_briefly {l : Lock} (hh : ∀ x ∈ h, x.1.rank < l.rank) :
    Disciplined Lock.rank h (briefly l) h := by
  refine .lock hh (.unlock mem_cons_self ?_)
  rw [erase_cons_head]
  exact .nil h

theorem disciplined_cell (c : Cell) (hh : ∀ x ∈ h, x.1.rank < 4) :
    Disciplined Lock.rank h c.acts h := by
  cases c with
  | read =>
    refine .rlock (fun x hx => .inl (hh x hx)) (.runlock mem_cons_self ?_)
    rw [erase_cons_head]
    exact .nil h
  | write => exact disciplined_briefly hh

theorem disciplined_state (hh : ∀ x ∈ h, x.1.rank < 2) : Disciplined Lock.rank h stateActs h := by
  refine .rlock (fun x hx => .inl (hh x hx)) (.runlock mem_cons_self ?_)
  rw [erase_cons_head]
  exact .nil h

theorem disciplined_fetch (cols : ℕ) (hh : ∀ x ∈ h, x.1.rank < 3 ∨ x = (.mu, false)) :
    Disciplined Lock.rank h (fetchActs cols) h := by
  refine .rlock hh (.append (.flatMap fun c _ => disciplined_cell c ?_)
    (.runlock mem_cons_self ?_))
  · intro x hx
    rcases mem_cons.mp hx with rfl | hx
    · decide
    · rcases hh x hx with hlt | rfl
      · exact Nat.lt_succ_of_lt hlt
      · decide
  · rw [erase_cons_head]
    exact .nil h

theorem disciplined_change (cells : List Cell) (hh : ∀ x ∈ h, x.1.rank < 3) :
    Disciplined Lock.rank h (changeActs cells) h := by
  refine .lock hh (.append (.flatMap fun c _ => disciplined_cell c ?_)
    (.unlock mem_cons_self ?_))
  · intro x hx
    rcases mem_cons.mp hx with rfl | hx
    · decide
    · exact Nat.lt_succ_of_lt (hh x hx)
  · rw [erase_cons_head]
    exact .nil h

theorem disciplined_task (t : Task) : Disciplined Lock.rank [] t.acts [] := by
  cases t with
  | scan points =>
    have hloop : Disciplined Lock.rank [(.mu, false)] (points.flatMap fetchActs) [(.mu, false)] :=
      .flatMap fun cols _ => disciplined_fetch cols (by simp)
    exact .append (disciplined_state (by simp)) (.rlock (by simp)
      (.append hloop (.runlock mem_cons_self (.nil []))))
  | transaction txn calls finish =>
    have hheld : ∀ x ∈ [(Lock.writerMu, true), (Lock.writeMu, true)], x.1.rank < 2 := by decide
    have hcalls : Disciplined Lock.rank [(.writerMu, true), (.writeMu, true)]
        (calls.flatMap (TxnCall.acts txn)) [(.writerMu, true), (.writeMu, true)] := by
      refine .flatMap fun c _ => ?_
      cases c with
      | state => exact disciplined_state hheld
      | status | identity => exact disciplined_briefly hheld
      | fetch cols => exact disciplined_fetch cols fun x hx => .inl (Nat.lt_succ_of_lt (hheld x hx))
      | change cells => exact disciplined_change cells fun x hx => Nat.lt_succ_of_lt (hheld x hx)
    have hend : Disciplined Lock.rank
        [(.txnMu txn, true), (.writerMu, true), (.writeMu, true)] (changeActs finish) _ :=
      disciplined_change finish fun x hx => by
        rcases mem_cons.mp hx with rfl | hx
        · exact Nat.lt_succ_self 2
        · exact Nat.lt_succ_of_lt (hheld x hx)
    refine .append (disciplined_state (by simp)) (.lock (by simp) (.lock (by decide)
      (.append hcalls (.lock hheld (.append hend ?_)))))
    refine .unlock (by simp) (.unlock (by simp) (.unlock (by simp) ?_))
    simpa using Disciplined.nil []

end Discipline

/-- No deadlock while no writer asks for the engine's lock during a scan with points to fetch. -/
theorem scan_deadlock_free {T : Type*} [DecidableEq T] (tasks : T → List Task) (schedule : List T)
    (hcalm : Along Sys.step Sys.Calm (threads tasks) schedule) :
    ∀ s ∈ visited Sys.step (threads tasks) schedule, ¬ s.Deadlocked := by
  have hrank : ∀ l, Lock.rank l < 5 := by
    intro l
    cases l <;> simp [Lock.rank]
  exact deadlock_free (fun t => .flatMap fun task _ => disciplined_task task) hrank hcalm

def scanAndInsert : Bool → List Task
  | false => [.scan [0]]
  | true => [.transaction 0 [.change []] []]

theorem scan_deadlock_free_in_turn :
    Along Sys.step Sys.Calm (threads scanAndInsert) [false, false, false, true, true, false, false] ∧
    ∀ s ∈ visited Sys.step (threads scanAndInsert) [false, false, false, true, true, false, false],
      ¬ s.Deadlocked :=
  ⟨by decide, scan_deadlock_free scanAndInsert _ (by decide)⟩

/-- The writer begins, the scan takes its lock, and the writer asks for it: neither can go on. -/
theorem scan_deadlocks : ∃ s, exec Sys.step (threads scanAndInsert)
    [true, true, true, true, true, true, false, false, false, true] = .ok s ∧ s.Deadlocked := by
  refine ⟨_, rfl, ⟨true, cons_ne_nil _ _⟩, ?_⟩
  rintro (_ | _) <;> rfl

end VecDb.Facade

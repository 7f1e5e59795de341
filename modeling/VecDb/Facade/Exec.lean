import VecDb.Facade.Indexes
import VecDb.Query.Executor
import VecDb.VectorSql.Binder

/-! # Queries and statements

A query or a SELECT is bound, planned and executed on the open collection of its name, and the
cells of its rows are raised to values. The planner starts with a positive beam, so the executor
stops to widen it after finitely many rounds.
-/

namespace VecDb.Facade

/-- The text of a column name: a character for each byte. -/
def columnText (name : Bytes) : String := String.ofList (name.map fun b => Char.ofNat b.toNat)

theorem columnText_inj {a b : Bytes} (h : columnText a = columnText b) : a = b := by
  have hchar : Function.Injective fun x : UInt8 => Char.ofNat x.toNat := by
    intro x y hxy
    have hval : ∀ z : UInt8, (Char.ofNat z.toNat).toNat = z.toNat := by
      intro z
      have hz := z.toNat_lt
      have hvalid : Nat.isValidChar z.toNat := .inl (by omega)
      simp [Char.ofNat, hvalid, Char.toNat, Char.ofNatAux]
    have := congrArg Char.toNat hxy
    rw [hval, hval] at this
    exact UInt8.toNat_inj.mp this
  exact List.map_injective_iff.mpr hchar (String.ofList_injective h)

structure Result where
  id : PointID
  distance : Float32
  columns : List (String × Value)
  deriving DecidableEq

structure Machine where
  platform : Query.Platform
  workers : ℕ
  kernels : Query.Kernels

def metaColMap (cc : Catalog.Collection) : List (String × Storage.ColID) :=
  cc.schema.metadataColumns.filterMap fun col =>
    (cc.colID col.name).map fun id => (columnText col.name, id)

def newRows (rs : Query.ResultSet) : List Result :=
  rs.rows.map fun row =>
    { id := { n := row.pointID }, distance := row.distance
      columns := row.metadata.map fun e => (e.1, valueFromStorage e.2) }

namespace DB

def queryCollection (db : DB) (cc : Catalog.Collection) (cs : CollState) : Query.Collection where
  engine := db.sys.engine
  collID := cc.id
  dims := cc.storageDef.dims.toNat
  index := cs.index
  indexKind := cs.idxKind
  m := cs.m
  nList := cs.nlist
  metaCols := metaColMap cc

/-- Plan and execute a bound query. The context is looked at first; there is no answer if the fuel
does not last. -/
def execWith (machine : Machine) (db : DB) (fuel : ℕ) (ctx : Query.Ctx) (name : Bytes)
    (bq : Query.BoundQuery) : Option (Except LibErr (List Result)) :=
  if (ctx 0).isSome then some (.error .canceled)
  else
    match db.state name with
    | .error e => some (.error e)
    | .ok cs =>
      match db.cat.collections cs.collID with
      | none => some (.error .notFound)
      | some cc =>
        let qcoll := db.queryCollection cc cs
        if bq.vector.length ≠ qcoll.dims then some (.error .dimMismatch)
        else
          match ((Query.Planner.new qcoll machine.platform 0).plan bq).2 with
          | .error e => some (.error (.query e))
          | .ok plan =>
            let exec : Query.Executor := ⟨qcoll, machine.workers, machine.kernels⟩
            (exec.execute fuel (fun i => ctx (i + 1)) plan bq.vector).map fun r =>
              match r with
              | .error e => .error (.query e)
              | .ok rs => .ok (newRows rs)

end DB

open VectorSql (VecError SelectStmt)

inductive ExecErr
  | lib (e : LibErr)
  | sql (e : VecError)
  | noVector
  deriving DecidableEq

def rounds (plan : Query.PhysicalPlan) : ℕ := (plan.maxEfSearch - plan.efSearch).toNat + 1

namespace DB

variable (machine : Machine) (db : DB) (ctx : Query.Ctx)

def planned (cc : Catalog.Collection) (cs : CollState) (bq : Query.BoundQuery) :
    Option (Except Query.QueryErr Query.ResultSet) :=
  let qcoll := db.queryCollection cc cs
  match ((Query.Planner.new qcoll machine.platform 0).plan bq).2 with
  | .error e => some (.error e)
  | .ok plan =>
    (⟨qcoll, machine.workers, machine.kernels⟩ : Query.Executor).execute (rounds plan) ctx plan
      bq.vector

def execTxn (sc : Strconv) (sel : SelectStmt) : Except ExecErr (List Result) :=
  if (ctx 0).isSome then .error (.lib .canceled)
  else
    match db.state sel.from_ with
    | .error e => .error (.lib e)
    | .ok cs =>
      match db.cat.collections cs.collID with
      | none => .error (.lib .notFound)
      | some cc =>
        match VectorSql.bindSelect sc sel cc with
        | .error e => .error (.sql e)
        | .ok bq =>
          if bq.vector = [] then .error .noVector
          else
            let bq := { bq with allowFlat := true, includeDistance := true }
            match planned machine db (fun i => ctx (i + 1)) cc cs bq with
            | some (.ok rs) => .ok (newRows rs)
            | some (.error e) => .error (.lib (.query e))
            -- not reached: see `planned_ne_none`
            | none => .error (.lib .canceled)

end DB

end VecDb.Facade

import VecDb.Facade.Database

/-! # Two registries of names

The names that a database resolves and those of its catalog are the same all along a run exactly
if no rename of the run is let through.
-/

namespace VecDb.Facade

open Storage Function Option Catalog Catalog.Schema

open Catalog (Codecs)

inductive Ddl
  | create (canceled : Bool) (schema : CollectionSchema)
  | rename (canceled : Bool) (oldName newName : Bytes)
  | drop (canceled : Bool) (name : Bytes)

def Ddl.canceled : Ddl → Bool
  | create c _ | rename c _ _ | drop c _ => c

namespace DB

/-- The database resolves the names that the catalog holds. -/
def Agree (db : DB) : Prop := ∀ n, (db.colls n).isSome = (db.cat.byName n).isSome

/-- The schema passes all checks, apart from its name being new. -/
def Admissible (schema : CollectionSchema) : Prop :=
  ∃ s s', toCatalogSchema schema = .ok s ∧ s.normalize = .ok s'

/-- The names ask for the call to succeed. -/
def Due (db : DB) : Ddl → Prop
  | .create _ schema => Admissible schema ∧ db.colls schema.name = none
  | .rename _ oldName newName => (db.colls oldName).isSome ∧ db.colls newName = none
  | .drop _ name => (db.colls name).isSome

variable (codecs : Codecs)

def ddl (db : DB) : Ddl → DB × Except LibErr Unit
  | .create canceled schema => db.createCollection codecs canceled schema
  | .rename canceled oldName newName => db.renameCollection canceled oldName newName
  | .drop canceled name => db.dropCollection canceled name

def ddlStep (db : DB) (op : Ddl) : Except Empty DB := .ok (db.ddl codecs op).1

/-- The registries agree before and after the call, it succeeds exactly when its checks
pass and the names ask for it, and they do not change if it fails. -/
structure Sound (db : DB) (op : Ddl) : Prop where
  before : db.Agree
  after : (db.ddl codecs op).1.Agree
  success : (db.ddl codecs op).2 = .ok () ↔ db.guard op.canceled = .ok () ∧ db.Due op
  failure : (db.ddl codecs op).2 ≠ .ok () →
    (db.ddl codecs op).1.colls = db.colls ∧ (db.ddl codecs op).1.cat.byName = db.cat.byName

def Unrenamed (db : DB) (op : Ddl) : Prop :=
  match op with
  | .rename canceled _ _ => ¬ (db.guard canceled = .ok () ∧ db.Due op)
  | _ => True

/-- The engine has no collection under the number that the catalog assigns next, which is
at most the given one. -/
structure Fresh (n : ℕ) (db : DB) : Prop where
  engine : ∀ k, (db.sys.engine.colls k).isSome → k.toNat < db.cat.nextCID.toNat
  next_le : db.cat.nextCID.toNat ≤ n

variable {codecs} {db : DB} {n : ℕ} {oldName newName : Bytes}

variable {canceled : Bool}

theorem toCatalogSchema_name {schema : CollectionSchema} {s : Catalog.Schema}
    (h : toCatalogSchema schema = .ok s) : s.name = schema.name := by
  rw [toCatalogSchema] at h
  split at h
  · cases h
  split at h
  · cases h
  split at h <;> cases h
  rfl

theorem Fresh.createCollection (hf : db.Fresh n) {s s' : Catalog.Schema}
    (hs : s.normalize = .ok s') :
    db.sys.engine.createCollection (s'.lower codecs db.cat.nextCID 0) = .ok { db.sys.engine with
        colls := update db.sys.engine.colls db.cat.nextCID
          (some (newCollection (s'.lower codecs db.cat.nextCID 0))) } := by
  have hdim : (s'.lower codecs db.cat.nextCID 0).dims ≠ 0 := primary_dim_ne_zero hs
  have hnew : db.sys.engine.colls db.cat.nextCID = none := by
    rw [← not_isSome_iff_eq_none]
    exact fun h => Nat.lt_irrefl _ (hf.engine _ h)
  rw [Engine.createCollection, if_neg hdim]
  simp only [Catalog.Schema.lower, hnew]

theorem createCollection_ok (hf : db.Fresh n) {canceled : Bool} {schema : CollectionSchema}
    {s s' : Catalog.Schema} (hg : db.guard canceled = .ok ()) (hc : db.colls schema.name = none)
    (hs : toCatalogSchema schema = .ok s) (hs' : s.normalize = .ok s')
    (hb : db.cat.byName schema.name = none) : db.createCollection codecs canceled schema =
      ({ db with
          cat := db.cat.register codecs s'
          sys := { db.sys with
            engine := { db.sys.engine with
              colls := update db.sys.engine.colls db.cat.nextCID
                (some (newCollection (s'.lower codecs db.cat.nextCID 0))) } }
          colls := update db.colls schema.name (some { collID := db.cat.nextCID }) },
        .ok ()) := by
  have hname : s'.name = schema.name :=
    (normalize_eq_ok hs').1.trans (toCatalogSchema_name hs)
  have hcat : db.cat.createCollection codecs s false =
      .ok (db.cat.register codecs s', db.cat.nextCID, true) := by
    rw [Registry.createCollection, hs']
    simp only [hname, hb]
  have hhandle : (db.cat.register codecs s').collections db.cat.nextCID =
      some (Registry.newHandle codecs s' db.cat.nextCID) := by
    simp [Registry.register]
  simp only [DB.createCollection, hg, hc, hs, hcat, hhandle, openCollection,
    Registry.newHandle, defaultSegmentCapacity, hf.createCollection hs']

theorem createCollection_refused {canceled : Bool} {schema : CollectionSchema}
    (h : ¬ (db.guard canceled = .ok () ∧ (Admissible schema ∧ db.colls schema.name = none) ∧
      db.cat.byName schema.name = none)) : (db.createCollection codecs canceled schema).1 = db ∧
      (db.createCollection codecs canceled schema).2 ≠ .ok () := by
  rw [DB.createCollection]
  rcases hg : db.guard canceled with e | u
  · exact ⟨rfl, nofun⟩
  rcases hc : db.colls schema.name with _ | cs
  case some => exact ⟨rfl, nofun⟩
  rcases hs : toCatalogSchema schema with e | s
  · exact ⟨rfl, nofun⟩
  rcases hs' : s.normalize with e | s'
  · simp [Registry.createCollection, hs']
  · have hname : s'.name = schema.name :=
      (normalize_eq_ok hs').1.trans (toCatalogSchema_name hs)
    rcases hb : db.cat.byName schema.name with _ | cid
    · exact absurd ⟨hg, ⟨⟨s, s', hs, hs'⟩, hc⟩, hb⟩ h
    · simp [Registry.createCollection, hs', hname, hb]

theorem Agree.none_iff (ha : db.Agree) (name : Bytes) :
    db.colls name = none ↔ db.cat.byName name = none := by
  rw [← not_isSome_iff_eq_none, ← not_isSome_iff_eq_none, ha name]

theorem isSome_update {α : Type*} (f : Bytes → Option α) (name m : Bytes) (v : Option α) :
    (update f name v m).isSome = if m = name then v.isSome else (f m).isSome := by
  by_cases h : m = name
  · subst h; simp
  · simp [h]

theorem Agree.update (ha : db.Agree) {db' : DB} {name : Bytes} {v : Option CollState}
    {w : Option UInt64} (hv : v.isSome = w.isSome) (hc : db'.colls = update db.colls name v)
    (hb : db'.cat.byName = update db.cat.byName name w) : db'.Agree := by
  intro m
  rw [hc, hb, isSome_update, isSome_update, hv, ha m]

theorem sound_of_unchanged {op : Ddl} (ha : db.Agree) (hdb : (db.ddl codecs op).1 = db)
    (herr : (db.ddl codecs op).2 ≠ .ok ())
    (hdue : ¬ (db.guard op.canceled = .ok () ∧ db.Due op)) : db.Sound codecs op where
  before := ha
  after := by rw [hdb]; exact ha
  success := ⟨fun h => absurd h herr, fun h => absurd h hdue⟩
  failure _ := by rw [hdb]; exact ⟨rfl, rfl⟩

theorem sound_create (hf : db.Fresh n) (ha : db.Agree) (hn : n + 1 < 2 ^ 64) (canceled : Bool)
    (schema : CollectionSchema) : db.Sound codecs (.create canceled schema) ∧
      (db.ddl codecs (.create canceled schema)).1.Fresh (n + 1) := by
  by_cases h : db.guard canceled = .ok () ∧ db.Due (.create canceled schema)
  · obtain ⟨hg, hadm, hc⟩ := h
    obtain ⟨s, s', hs, hs'⟩ := id hadm
    have hb : db.cat.byName schema.name = none := (ha.none_iff _).mp hc
    have hname : s'.name = schema.name :=
      (normalize_eq_ok hs').1.trans (toCatalogSchema_name hs)
    have heq := @createCollection_ok codecs _ _ hf _ _ _ _ hg hc hs hs' hb
    have hddl : db.ddl codecs (.create canceled schema) = _ := heq
    have hle := hf.next_le
    have hnext : (db.cat.nextCID + 1).toNat = db.cat.nextCID.toNat + 1 := by
      have hone : (1 : UInt64).toNat = 1 := rfl
      rw [UInt64.toNat_add]
      omega
    refine ⟨⟨ha, ?_, ?_, ?_⟩, ?_, ?_⟩
    · rw [hddl]
      refine ha.update (w := some db.cat.nextCID) rfl rfl ?_
      rw [← hname]
      rfl
    · rw [hddl]
      exact ⟨fun _ => ⟨hg, hadm, hc⟩, fun _ => rfl⟩
    · rw [hddl]
      exact fun herr => absurd rfl herr
    · rw [hddl]
      intro k hk
      change k.toNat < (db.cat.nextCID + 1).toNat
      rw [hnext]
      by_cases hk' : k = db.cat.nextCID
      · rw [hk']; omega
      · have hold : (db.sys.engine.colls k).isSome := by simpa [hk'] using hk
        have := hf.engine k hold
        omega
    · rw [hddl]
      change (db.cat.nextCID + 1).toNat ≤ n + 1
      omega
  · have hrefused := @createCollection_refused codecs db canceled schema
      fun hall => h ⟨hall.1, hall.2.1⟩
    refine ⟨sound_of_unchanged ha hrefused.1 hrefused.2 h, ?_⟩
    rw [show (db.ddl codecs (.create canceled schema)).1 = db from hrefused.1]
    exact ⟨hf.engine, hf.next_le.trans (Nat.le_succ n)⟩

theorem sound_drop (hf : db.Fresh n) (ha : db.Agree) (canceled : Bool) (name : Bytes) :
    db.Sound codecs (.drop canceled name) ∧
      (db.ddl codecs (.drop canceled name)).1.Fresh (n + 1) := by
  have hf' : db.Fresh (n + 1) := ⟨hf.engine, hf.next_le.trans (Nat.le_succ n)⟩
  by_cases h : db.guard canceled = .ok () ∧ db.Due (.drop canceled name)
  · obtain ⟨hg, hsome⟩ := h
    have hresolved : (db.colls name).isSome := hsome
    obtain ⟨cs, hc⟩ := isSome_iff_exists.mp hresolved
    rw [ha name] at hresolved
    obtain ⟨cid, hb⟩ := isSome_iff_exists.mp hresolved
    have heq : db.dropCollection canceled name =
        ({ db with
            cat := { db.cat with byName := update db.cat.byName name none }
            colls := update db.colls name none }, .ok ()) := by
      simp [dropCollection, hg, hc, Registry.dropCollection, hb]
    have hddl : db.ddl codecs (.drop canceled name) = _ := heq
    refine ⟨⟨ha, ?_, ?_, ?_⟩, ?_⟩
    · rw [hddl]
      exact ha.update (w := none) rfl rfl rfl
    · rw [hddl]
      exact ⟨fun _ => ⟨hg, hsome⟩, fun _ => rfl⟩
    · rw [hddl]
      exact fun herr => absurd rfl herr
    · rw [hddl]
      exact ⟨hf'.engine, hf'.next_le⟩
  · have hrefused : (db.dropCollection canceled name).1 = db ∧
        (db.dropCollection canceled name).2 ≠ .ok () := by
      rw [dropCollection]
      rcases hg : db.guard canceled with e | u
      · exact ⟨rfl, nofun⟩
      rcases hc : db.colls name with _ | cs
      · exact ⟨rfl, nofun⟩
      · exact absurd ⟨hg, by simp [Due, hc]⟩ h
    refine ⟨sound_of_unchanged ha hrefused.1 hrefused.2 h, ?_⟩
    rw [show (db.ddl codecs (.drop canceled name)).1 = db from hrefused.1]
    exact hf'

theorem renameCollection_refused
    (h : ¬ (db.guard canceled = .ok () ∧ db.Due (.rename canceled oldName newName))) :
    (db.renameCollection canceled oldName newName).1 = db ∧
      (db.renameCollection canceled oldName newName).2 ≠ .ok () := by
  rw [renameCollection]
  rcases hg : db.guard canceled with e | u
  · exact ⟨rfl, nofun⟩
  rcases hc : db.colls oldName with _ | cs
  · exact ⟨rfl, nofun⟩
  rcases hc' : db.colls newName with _ | cs'
  · exact absurd ⟨hg, by simp [Due, hc, hc']⟩ h
  · exact ⟨rfl, nofun⟩

theorem not_agree_rename (ha : db.Agree)
    (hg : db.guard canceled = .ok ()) (hdue : db.Due (.rename canceled oldName newName)) :
    ¬ (db.ddl codecs (.rename canceled oldName newName)).1.Agree := by
  intro hafter
  obtain ⟨hsome, hnone⟩ := hdue
  obtain ⟨cs, hc⟩ := isSome_iff_exists.mp hsome
  have hb : db.cat.byName newName = none := (ha.none_iff _).mp hnone
  have hnew := hafter newName
  simp [ddl, renameCollection, hg, hc, hnone, hb] at hnew

theorem sound_rename (hf : db.Fresh n) (ha : db.Agree)
    (h : db.Unrenamed (.rename canceled oldName newName)) :
    db.Sound codecs (.rename canceled oldName newName) ∧
      (db.ddl codecs (.rename canceled oldName newName)).1.Fresh (n + 1) := by
  have hrefused := renameCollection_refused h
  refine ⟨sound_of_unchanged ha hrefused.1 hrefused.2 h, ?_⟩
  rw [show (db.ddl codecs (.rename canceled oldName newName)).1 = db from hrefused.1]
  exact ⟨hf.engine, hf.next_le.trans (Nat.le_succ n)⟩

theorem sound_iff (hf : db.Fresh n) (ha : db.Agree) (hn : n + 1 < 2 ^ 64) (op : Ddl) :
    (db.Sound codecs op ↔ db.Unrenamed op) ∧
      (db.Unrenamed op → (db.ddl codecs op).1.Fresh (n + 1)) := by
  cases op with
  | create canceled schema =>
    have h := @sound_create codecs _ _ hf ha hn canceled schema
    exact ⟨⟨fun _ => trivial, fun _ => h.1⟩, fun _ => h.2⟩
  | drop canceled name =>
    have h := @sound_drop codecs _ _ hf ha canceled name
    exact ⟨⟨fun _ => trivial, fun _ => h.1⟩, fun _ => h.2⟩
  | rename canceled oldName newName =>
    refine ⟨⟨fun h hdue => ?_, fun h => (sound_rename hf ha h).1⟩, fun h => (sound_rename hf ha h).2⟩
    exact not_agree_rename ha hdue.1 hdue.2 h.after

theorem along_sound_iff (hf : db.Fresh n) (ha : db.Agree) {ops : List Ddl}
    (hn : n + ops.length < 2 ^ 64) :
    Along (ddlStep codecs) (Sound codecs) db ops ↔ Along (ddlStep codecs) Unrenamed db ops := by
  induction ops generalizing db n with
  | nil => exact Iff.rfl
  | cons op ops ih =>
    rw [List.length_cons] at hn
    obtain ⟨hiff, hfresh⟩ := @sound_iff codecs _ _ hf ha (by omega) op
    have hstep : ddlStep codecs db op = .ok (db.ddl codecs op).1 := rfl
    rw [along_cons hstep, along_cons hstep, hiff]
    refine and_congr_right fun hun => ?_
    exact ih (hfresh hun) (hiff.mpr hun).after (by omega)

/-- In a run of fewer than 2^64 - 1 calls on a new database, the two registries have the same
names all along, exactly if no rename is let through. -/
theorem registries_sound_iff (codecs : Codecs) (readOnly : Bool) (ops : List Ddl)
    (hn : ops.length < 2 ^ 64 - 1) :
    Along (ddlStep codecs) (Sound codecs) { readOnly } ops ↔
      Along (ddlStep codecs) Unrenamed { readOnly } ops := by
  refine along_sound_iff (n := 1) ⟨fun k hk => ?_, ?_⟩ (fun _ => rfl) (by omega)
  · simp [newEngine] at hk
  · exact Nat.le_refl 1

section Runs

def noCodecs : Codecs := ⟨fp32Codec, fp32Codec, fp32Codec⟩

def vectorSchema (name : Bytes) : CollectionSchema :=
  { name, columns := [{ name := ascii "v", type := .vector, dim := 1 }] }

theorem registries_sound_create_drop :
    Along (ddlStep noCodecs) (Sound noCodecs) {}
      [.create false (vectorSchema (ascii "a")), .drop false (ascii "a")] :=
  (registries_sound_iff noCodecs false _ (by decide)).mpr
    ⟨trivial, fun _ _ => ⟨trivial, fun _ _ => trivial⟩⟩

def renamed : DB :=
  (renameCollection (createCollection noCodecs {} false (vectorSchema (ascii "a"))).1 false
    (ascii "a") (ascii "b")).1

/-- After a rename, the name that is resolved cannot be dropped, and the old one cannot be
created. -/
theorem rename_splits_registries :
    (renamed.colls (ascii "b")).isSome ∧ renamed.cat.byName (ascii "b") = none ∧
      (renamed.dropCollection false (ascii "b")).2 = .error .notFound ∧
      renamed.colls (ascii "a") = none ∧ (renamed.cat.byName (ascii "a")).isSome ∧
      (renamed.createCollection noCodecs false (vectorSchema (ascii "a"))).2 =
        .error .alreadyExists := by
  refine ⟨by decide +kernel, by decide +kernel, by decide +kernel, rfl, by decide +kernel,
    by decide +kernel⟩

end Runs

end DB

end VecDb.Facade

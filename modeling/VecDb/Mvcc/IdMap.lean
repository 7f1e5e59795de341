import VecDb.Mvcc.Refine

/-! # The versioned id map

The id map keeps two version tables, from ids to positions and back. A writer that assigns only
what it sees unmapped, and deletes only what it sees mapped, leaves writes of which every tail is
a bijection.
-/

namespace VecDb.Mvcc

open History

def unassigned : UInt32 := ~~~0

structure IDMap where
  forward : VersionTable UInt64 UInt32
  reverse : VersionTable UInt32 UInt64

namespace IDMap

def newIDMap : IDMap := ⟨newVersionTable _ _, newVersionTable _ _⟩

def assign (m : IDMap) (id : UInt64) (pos : UInt32) (txn : ℕ) : IDMap where
  forward := m.forward.stage id txn pos false
  reverse := m.reverse.stage pos txn id false

def delete (m : IDMap) (id : UInt64) (pos : UInt32) (txn : ℕ) : IDMap where
  forward := m.forward.stage id txn unassigned true
  reverse := m.reverse.stage pos txn id true

def lookup (m : IDMap) (id : UInt64) (s : Snapshot) : Option UInt32 := m.forward.visible id s

def reverseLookup (m : IDMap) (pos : UInt32) (s : Snapshot) : Option UInt64 :=
  m.reverse.visible pos s

def commit (m : IDMap) (txn seq : ℕ) : IDMap := ⟨m.forward.commit txn seq, m.reverse.commit txn seq⟩

def abort (m : IDMap) (txn : ℕ) : IDMap := ⟨m.forward.abort txn, m.reverse.abort txn⟩

def gc (m : IDMap) (watermark : ℕ) : IDMap := ⟨m.forward.gc watermark, m.reverse.gc watermark⟩

end IDMap

structure Link where
  id : UInt64
  pos : UInt32
  deleted : Bool := false
  deriving DecidableEq

namespace Link

def forward (l : Link) : Cell UInt64 UInt32 :=
  { key := l.id, val := if l.deleted then unassigned else l.pos, tomb := l.deleted }

def reverse (l : Link) : Cell UInt32 UInt64 := { key := l.pos, val := l.id, tomb := l.deleted }

def position (links : List Link) (id : UInt64) : Option UInt32 :=
  readCells (links.map forward) id

def point (links : List Link) (pos : UInt32) : Option UInt64 := readCells (links.map reverse) pos

/-- Each write, in its turn, assigned what was unmapped or deleted what was mapped. -/
inductive Consistent : List Link → Prop
  | nil : Consistent []
  | assign {links} (id pos) : Consistent links → position links id = none →
      point links pos = none → Consistent ({ id, pos } :: links)
  | delete {links} (id pos) : Consistent links → position links id = some pos →
      Consistent ({ id, pos, deleted := true } :: links)

variable {links older : List Link}

theorem Consistent.suffix (h : Consistent links) (ho : older <:+ links) : Consistent older := by
  obtain ⟨newer, rfl⟩ := ho
  induction newer with
  | nil => exact h
  | cons l newer ih =>
    refine ih ?_
    cases h with
    | assign _ _ h | delete _ _ h => exact h

theorem position_cons (l : Link) (id : UInt64) : position (l :: links) id =
      if l.id = id then (if l.deleted then none else some l.pos) else position links id := by
  by_cases hid : l.id = id <;> cases hd : l.deleted <;>
    simp [position, readCells, forward, hid, hd]

theorem point_cons (l : Link) (pos : UInt32) : point (l :: links) pos =
      if l.pos = pos then (if l.deleted then none else some l.id) else point links pos := by
  by_cases hpos : l.pos = pos <;> cases hd : l.deleted <;>
    simp [point, readCells, reverse, hpos, hd]

theorem Consistent.bijective (h : Consistent links) (id : UInt64) (pos : UInt32) :
    position links id = some pos ↔ point links pos = some id := by
  induction h generalizing id pos with
  | nil => simp [position, point, readCells]
  | assign i p _ hi hp ih | delete i p _ hi ih =>
    rw [position_cons, point_cons]
    have hip := ih i pos
    have hpi := ih id p
    by_cases hid : i = id <;> by_cases hpos : p = pos
    · simp [hid, hpos]
    · subst hid
      simp [hpos, ← hip, hi]
    · subst hpos
      simp_all
    · simp [hid, hpos, ih]

end Link

namespace IDMap

def act (m : IDMap) : Action Link → IDMap
  | .stage txn l => if l.deleted then m.delete l.id l.pos txn else m.assign l.id l.pos txn
  | .commit txn seq => m.commit txn seq
  | .abort txn => m.abort txn
  | .gc watermark => m.gc watermark

/-- One writer at a time assigns a pair only if its view maps neither side, and deletes
only a pair that it sees mapped. -/
def Careful (m : IDMap) (h : History Link) (a : Action Link) : Prop :=
  h.OneWriter a ∧ match a with
    | .stage txn ⟨id, pos, false⟩ =>
      m.lookup id (h.view txn) = none ∧ m.reverseLookup pos (h.view txn) = none
    | .stage txn ⟨id, pos, true⟩ => m.lookup id (h.view txn) = some pos
    | _ => True

instance decidableCareful (m : IDMap) (h : History Link) : ∀ a, Decidable (Careful m h a)
  | .stage txn ⟨id, pos, false⟩ => inferInstanceAs (Decidable (_ ∧
      m.lookup id (h.view txn) = none ∧ m.reverseLookup pos (h.view txn) = none))
  | .stage txn ⟨id, pos, true⟩ =>
    inferInstanceAs (Decidable (_ ∧ m.lookup id (h.view txn) = some pos))
  | .commit txn seq => inferInstanceAs (Decidable (h.OneWriter (.commit txn seq) ∧ True))
  | .abort txn => inferInstanceAs (Decidable (h.OneWriter (.abort txn) ∧ True))
  | .gc watermark => inferInstanceAs (Decidable (h.OneWriter (.gc watermark) ∧ True))

/-- Runs of an id map from the empty one. -/
def Run (G : IDMap → History Link → Action Link → Prop) (m : IDMap) (h : History Link) : Prop :=
  Reached act newIDMap G m h

theorem act_forward (m : IDMap) (a : Action Link) :
    (m.act a).forward = m.forward.act (a.map Link.forward) := by
  cases a with
  | stage txn l => rcases l with ⟨id, pos, _ | _⟩ <;> rfl
  | _ => rfl

theorem act_reverse (m : IDMap) (a : Action Link) :
    (m.act a).reverse = m.reverse.act (a.map Link.reverse) := by
  cases a with
  | stage txn l => rcases l with ⟨id, pos, _ | _⟩ <;> rfl
  | _ => rfl

/-- Both tables follow one history, whose writes are consistent. -/
structure Follows (m : IDMap) (h : History Link) : Prop where
  orderly : h.Orderly
  forward : Refines m.forward (h.map Link.forward)
  reverse : Refines m.reverse (h.map Link.reverse)
  consistent : Link.Consistent h.writes

namespace Follows

variable {m : IDMap} {h : History Link} {s : Snapshot} {a : Action Link}

theorem lookup (hf : Follows m h)
    (hs : ∀ c ∈ h.committed, ∀ w ∈ h.watermarks, c.1 ≤ w → sees s c) (id : UInt64) :
    m.lookup id s = Link.position (h.seen s) id := by
  rw [IDMap.lookup, hf.forward.visible _ id, seen_map, Link.position]
  intro c hc
  obtain ⟨d, hd, rfl⟩ := List.mem_map.mp hc
  exact hs d hd

theorem reverseLookup (hf : Follows m h)
    (hs : ∀ c ∈ h.committed, ∀ w ∈ h.watermarks, c.1 ≤ w → sees s c) (pos : UInt32) :
    m.reverseLookup pos s = Link.point (h.seen s) pos := by
  rw [IDMap.reverseLookup, hf.reverse.visible _ pos, seen_map, Link.point]
  intro c hc
  obtain ⟨d, hd, rfl⟩ := List.mem_map.mp hc
  exact hs d hd

theorem consistent_record (hf : Follows m h) (ha : Careful m h a) :
    Link.Consistent (h.record a).writes := by
  cases a with
  | stage txn l =>
    have hsees : ∀ c ∈ h.committed, ∀ w ∈ h.watermarks, c.1 ≤ w → sees (h.view txn) c :=
      fun c hc _ _ _ => hf.orderly.sees_view txn hc
    have hview := hf.orderly.seen_view ha.1
    rcases l with ⟨id, pos, _ | _⟩
    · obtain ⟨-, hid, hpos⟩ := ha
      rw [hf.lookup hsees, hview] at hid
      rw [hf.reverseLookup hsees, hview] at hpos
      exact .assign id pos hf.consistent hid hpos
    · have hid : m.lookup id (h.view txn) = some pos := ha.2
      rw [hf.lookup hsees, hview] at hid
      exact .delete id pos hf.consistent hid
  | commit txn seq =>
    rw [hf.orderly.writes_commit]
    exact hf.consistent
  | abort txn => exact hf.consistent.suffix (hf.orderly.writes_abort txn)
  | gc watermark => exact hf.consistent

theorem act (hf : Follows m h) (ha : Careful m h a) : Follows (m.act a) (h.record a) where
  orderly := hf.orderly.record ha.1
  forward := by
    rw [act_forward, ← History.record_map]
    exact hf.forward.act (History.oneWriter_map _ ha.1)
  reverse := by
    rw [act_reverse, ← History.record_map]
    exact hf.reverse.act (History.oneWriter_map _ ha.1)
  consistent := hf.consistent_record ha

end Follows

theorem Run.follows {m : IDMap} {h : History Link} (hr : Run Careful m h) : Follows m h := by
  induction hr with
  | init => exact ⟨.init, .init, .init, .nil⟩
  | step a _ ha ih => exact ih.act ha

/-- In every run of careful writers, a snapshot that no watermark passes, and that sees the
history without a gap, sees a bijection. -/
theorem lookup_eq_some_iff {m : IDMap} {h : History Link} (hr : Run Careful m h) (s : Snapshot)
    (hw : ∀ w ∈ h.watermarks, w ≤ s.readSeq) (hg : History.Gapless s h) (id : UInt64)
    (pos : UInt32) : m.lookup id s = some pos ↔ m.reverseLookup pos s = some id := by
  have hf := hr.follows
  have hs : ∀ c ∈ h.committed, ∀ w ∈ h.watermarks, c.1 ≤ w → History.sees s c :=
    fun c hc w hwm hle => hg.below c hc (hle.trans (hw w hwm))
  rw [hf.lookup hs, hf.reverseLookup hs]
  exact (hf.consistent.suffix (hg.seen_suffix hf.orderly)).bijective id pos

section Runs

def reuseRun : List (Action Link) :=
  [.stage 1 { id := 1, pos := 10 }, .commit 1 1,
    .stage 2 { id := 1, pos := 10, deleted := true }, .commit 2 2,
    .stage 3 { id := 2, pos := 10 }, .commit 3 3]

theorem reuseRun_careful : Run Careful (reuseRun.foldl act newIDMap) (runHistory reuseRun) :=
  reached_of_prefixes reuseRun (by decide)

theorem lookup_eq_some_iff_reused :
    (reuseRun.foldl act newIDMap).lookup 1 { readSeq := 1, txnID := 9 } = some 10 ∧
      (reuseRun.foldl act newIDMap).reverseLookup 10 { readSeq := 1, txnID := 9 } = some 1 := by
  have hl : (reuseRun.foldl act newIDMap).lookup 1 { readSeq := 1, txnID := 9 } = some 10 := by
    decide
  exact ⟨hl, (lookup_eq_some_iff reuseRun_careful { readSeq := 1, txnID := 9 } (by decide)
    ⟨by decide, by decide, by decide⟩ 1 10).mp hl⟩

/-- A snapshot that takes the second transaction for in flight, or has an older read point, maps
two ids to the position. -/
theorem lookup_two_ids_one_position :
    ∃ (m : IDMap) (h : History Link), Run Careful m h ∧ h.watermarks = [] ∧
      (m.lookup 1 { readSeq := 3, txnID := 9, inFlight := [2] } = some 10 ∧
        m.reverseLookup 10 { readSeq := 3, txnID := 9, inFlight := [2] } = some 2) ∧
      m.lookup 1 { readSeq := 1, txnID := 3 } = some 10 ∧
        m.reverseLookup 10 { readSeq := 1, txnID := 3 } = some 2 :=
  ⟨_, _, reuseRun_careful, by decide, by decide, by decide, by decide⟩

end Runs

end IDMap

end VecDb.Mvcc

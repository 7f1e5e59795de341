import VecDb.Catalog.Schema

/-! # Point identity

A collection assigns ids from a counter, or takes the ids it is given and moves the counter past
them. As long as the largest id is never supplied, the counter stays above them all.
-/

namespace VecDb.Catalog

open List

open Storage (PointID)

def maxIDBytes : ℕ := 255

inductive Id
  | bigInt (n : UInt64)
  | text (b : Bytes)
  | blob (b : Bytes)
  deriving DecidableEq

def fnv1a (b : Bytes) : UInt64 :=
  b.foldl (fun h c => (h ^^^ c.toUInt64) * 1099511628211) 1469598103934665603

namespace Id

def kind : Id → IDKind
  | bigInt _ => .bigInt
  | text _ => .text
  | blob _ => .blob

/-- The form in which deleted ids are remembered. -/
def string : Id → Bytes
  | bigInt n => Decimal.text n.toNat
  | text b | blob b => b

def bytes : Id → Bytes
  | bigInt _ => []
  | text b | blob b => b

def engineID : Id → PointID
  | bigInt n => n
  | text b | blob b => fnv1a b

end Id

def validateForm (want : IDKind) (p : Id) : Except Err Unit :=
  if p.kind ≠ want then .error .idTypeMismatch
  else if want ≠ .bigInt ∧ maxIDBytes < p.bytes.length then .error .idTypeMismatch
  else .ok ()

structure Identity where
  auto : Bool
  seq : UInt64 := 0
  deleted : List Bytes := []
  deriving DecidableEq

namespace Identity

def nextAuto (i : Identity) : Except Err (Identity × Id) :=
  if !i.auto then .error .idRequired
  else if i.seq = ~~~0 then .error .sequenceOverflow
  else .ok ({ i with seq := i.seq + 1 }, .bigInt i.seq)

/-- Move the counter past an id that was supplied. The sum wraps. -/
def reserveAuto (i : Identity) : Id → Identity
  | .bigInt n => if i.auto && i.seq ≤ n then { i with seq := n + 1 } else i
  | _ => i

def markDeleted (i : Identity) (p : Id) : Identity := { i with deleted := p.string :: i.deleted }

def wasDeleted (i : Identity) (p : Id) : Bool := decide (p.string ∈ i.deleted)

/-- Assign an id, or check and reserve the one supplied. -/
def prepareID (i : Identity) (kind : IDKind) : Option Id → Except Err (Identity × Id)
  | none => i.nextAuto
  | some p => do
    validateForm kind p
    if i.wasDeleted p then .error .duplicateKey else .ok (i.reserveAuto p, p)

variable {i i' : Identity} {p q : Id} {n : UInt64}

theorem nextAuto_eq_ok (h : i.nextAuto = .ok (i', p)) :
    i.auto = true ∧ i.seq ≠ ~~~0 ∧ i' = { i with seq := i.seq + 1 } ∧ p = .bigInt i.seq := by
  rw [nextAuto] at h
  split at h
  · cases h
  case isFalse hauto =>
    split at h
    · cases h
    case isFalse hmax =>
      cases h
      exact ⟨by simpa using hauto, hmax, rfl, rfl⟩

theorem prepareID_some_eq_ok {kind : IDKind} (h : i.prepareID kind (some p) = .ok (i', q)) :
    p.kind = kind ∧ i.wasDeleted p = false ∧ i' = i.reserveAuto p ∧ q = p := by
  rw [prepareID] at h
  obtain ⟨u, hform, h⟩ := Fallible.bind_eq_ok.mp h
  rw [validateForm] at hform
  split at hform
  · cases hform
  case isFalse hkind =>
    split at h
    · cases h
    case isFalse hdel =>
      cases h
      exact ⟨not_not.mp hkind, by simpa using hdel, rfl, rfl⟩

theorem prepareID_bigInt_eq_error {e : Err} (h : i.prepareID .bigInt (some (.bigInt n)) = .error e) :
    i.wasDeleted (.bigInt n) = true := by
  by_contra hdel
  simp [prepareID, validateForm, Id.kind, hdel, bind, Except.bind] at h

theorem string_bigInt_inj {m n : UInt64} (h : (Id.bigInt m).string = (Id.bigInt n).string) :
    m = n := by
  have hval := congrArg Decimal.value h
  rw [Id.string, Id.string, Decimal.value_text, Decimal.value_text] at hval
  exact UInt64.toNat_inj.mp hval

end Identity

/-- What has been done with the ids of a collection, the latest first. -/
structure Issues where
  /-- The ids that callers supplied, whether they were taken or not. -/
  supplied : List Id := []
  used : List Id := []
  autos : List UInt64 := []

/-- The identity states that inserts and deletes of ids in use lead to; the ids supplied are
restricted by a guard. -/
inductive Issued (G : Id → Prop) : Identity → Issues → Prop
  | init : Issued G { auto := true } {}
  | assign {i i' s n} : Issued G i s → i.prepareID .bigInt none = .ok (i', .bigInt n) →
      Issued G i' { s with used := .bigInt n :: s.used, autos := n :: s.autos }
  | take {i i' s p q} : Issued G i s → G p → i.prepareID .bigInt (some p) = .ok (i', q) →
      Issued G i' { s with supplied := p :: s.supplied, used := q :: s.used }
  | refuse {i s p e} : Issued G i s → i.prepareID .bigInt (some p) = .error e →
      Issued G i { s with supplied := p :: s.supplied }
  | delete {i s p} : Issued G i s → p ∈ s.used → Issued G (i.markDeleted p) s

/-- The counter is above all numbers that were used or supplied, and just above one. -/
structure Ahead (i : Identity) (s : Issues) : Prop where
  auto : i.auto = true
  used : ∀ n, .bigInt n ∈ s.used → n < i.seq
  supplied : ∀ n, .bigInt n ∈ s.supplied → n < i.seq
  autos : ∀ n ∈ s.autos, n < i.seq
  number : ∀ p ∈ s.used, ∃ n, p = .bigInt n
  deleted : ∀ b ∈ i.deleted, ∃ n, .bigInt n ∈ s.used ∧ b = (Id.bigInt n).string
  just : i.seq = 0 ∨ .bigInt (i.seq - 1) ∈ s.used

namespace Ahead

variable {i i' : Identity} {s : Issues} {p q : Id} {n : UInt64}

theorem lt_add_one (h : n ≠ ~~~0) : n < n + 1 := by
  rw [UInt64.lt_iff_toNat_lt, UInt64.toNat_add]
  have hn : n.toNat ≠ 2 ^ 64 - 1 := fun heq => h (UInt64.toNat_inj.mp heq)
  have hlt := n.toNat_lt
  have hone : (1 : UInt64).toNat = 1 := rfl
  omega

theorem lt_raise {k m seq : UInt64} (hm : seq ≤ m) (hmax : m ≠ ~~~0) (hk : k < seq) : k < m + 1 :=
  UInt64.lt_trans (UInt64.lt_of_lt_of_le hk hm) (lt_add_one hmax)

theorem assign (h : Ahead i s) (hok : i.prepareID .bigInt none = .ok (i', .bigInt n)) :
    Ahead i' { s with used := .bigInt n :: s.used, autos := n :: s.autos } := by
  obtain ⟨-, hmax, rfl, hn⟩ := Identity.nextAuto_eq_ok hok
  obtain rfl : n = i.seq := Id.bigInt.inj hn
  have hle : i.seq ≤ i.seq := UInt64.le_refl _
  refine ⟨h.auto, fun k hk => ?_, fun k hk => lt_raise hle hmax (h.supplied k hk), fun k hk => ?_,
    fun p hp => ?_, fun b hb => ?_, .inr ?_⟩
  · rcases mem_cons.mp hk with hk | hk
    · cases hk
      exact lt_add_one hmax
    · exact lt_raise hle hmax (h.used k hk)
  · rcases mem_cons.mp hk with rfl | hk
    · exact lt_add_one hmax
    · exact lt_raise hle hmax (h.autos k hk)
  · rcases mem_cons.mp hp with rfl | hp
    · exact ⟨_, rfl⟩
    · exact h.number p hp
  · obtain ⟨m, hm, hb⟩ := h.deleted b hb
    exact ⟨m, mem_cons_of_mem _ hm, hb⟩
  · simp

theorem take (h : Ahead i s) (hmax : n ≠ ~~~0) : Ahead (i.reserveAuto (.bigInt n))
      { s with supplied := .bigInt n :: s.supplied, used := .bigInt n :: s.used } := by
  obtain ⟨j, hj⟩ : ∃ j, j = i.reserveAuto (.bigInt n) := ⟨_, rfl⟩
  have hkept : n < j.seq ∧ (∀ k, k < i.seq → k < j.seq) ∧ (j.seq = i.seq ∨ j.seq = n + 1) ∧
      j.auto = i.auto ∧ j.deleted = i.deleted := by
    rw [hj, Identity.reserveAuto]
    split
    case isTrue hle =>
      rw [h.auto, Bool.true_and, decide_eq_true_iff] at hle
      exact ⟨lt_add_one hmax, fun k hk => lt_raise hle hmax hk, .inr rfl, rfl, rfl⟩
    case isFalse hle =>
      rw [h.auto, Bool.true_and, decide_eq_true_iff] at hle
      exact ⟨UInt64.not_le.mp hle, fun k hk => hk, .inl rfl, rfl, rfl⟩
  obtain ⟨hn, hraise, hnew, hauto, hdeleted⟩ := hkept
  have hcons {l : List Id} (hl : ∀ k, .bigInt k ∈ l → k < i.seq) :
      ∀ k, .bigInt k ∈ .bigInt n :: l → k < j.seq := by
    intro k hk
    rcases mem_cons.mp hk with hk | hk
    · cases hk
      exact hn
    · exact hraise k (hl k hk)
  rw [← hj]
  refine ⟨hauto.trans h.auto, hcons h.used, hcons h.supplied, fun k hk => hraise k (h.autos k hk),
    fun p hp => ?_, fun b hb => ?_, ?_⟩
  · rcases mem_cons.mp hp with rfl | hp
    · exact ⟨n, rfl⟩
    · exact h.number p hp
  · obtain ⟨m, hm, hb⟩ := h.deleted b (hdeleted ▸ hb)
    exact ⟨m, mem_cons_of_mem _ hm, hb⟩
  · rcases hnew with hnew | hnew
    · rw [hnew]
      exact h.just.imp_right (mem_cons_of_mem _)
    · rw [hnew]
      exact .inr (by simp)

theorem refuse (h : Ahead i s) {e : Err} (herr : i.prepareID .bigInt (some p) = .error e) :
    Ahead i { s with supplied := p :: s.supplied } := by
  refine ⟨h.auto, h.used, fun k hk => ?_, h.autos, h.number, h.deleted, h.just⟩
  rcases mem_cons.mp hk with rfl | hk
  · -- a number is refused because it was deleted, so it was in use
    have hdel := Identity.prepareID_bigInt_eq_error herr
    obtain ⟨m, hm, hstr⟩ := h.deleted _ (of_decide_eq_true hdel)
    rw [Identity.string_bigInt_inj hstr]
    exact h.used m hm
  · exact h.supplied k hk

theorem delete (h : Ahead i s) (hp : p ∈ s.used) : Ahead (i.markDeleted p) s := by
  refine ⟨h.auto, h.used, h.supplied, h.autos, h.number, fun b hb => ?_, h.just⟩
  rcases mem_cons.mp hb with rfl | hb
  · obtain ⟨n, rfl⟩ := h.number p hp
    exact ⟨n, hp, rfl⟩
  · exact h.deleted b hb

end Ahead

theorem Issued.ahead {i : Identity} {s : Issues} (h : Issued (· ≠ .bigInt (~~~0)) i s) :
    Ahead i s := by
  induction h with
  | init => exact ⟨rfl, by simp, by simp, by simp, by simp, by simp, .inl rfl⟩
  | assign _ hok ih => exact ih.assign hok
  | @take i i' s p q _ hp hok ih =>
    obtain ⟨hkind, -, rfl, rfl⟩ := Identity.prepareID_some_eq_ok hok
    cases q with
    | bigInt n => exact ih.take fun hn => hp (congrArg Id.bigInt hn)
    | text b | blob b => cases hkind
  | refuse _ herr ih => exact ih.refuse herr
  | delete _ hp ih => exact ih.delete hp

/-- In every history that does not supply the largest id, an assigned id is new and greater than
all assigned before; the assignment fails just if the last id but one is in use. -/
theorem assigned_id_fresh {i : Identity} {s : Issues} (h : Issued (· ≠ .bigInt (~~~0)) i s) :
    (∀ i' p, i.prepareID .bigInt none = .ok (i', p) →
      p ∉ s.used ∧ p ∉ s.supplied ∧ ∃ n, p = .bigInt n ∧ ∀ m ∈ s.autos, m < n) ∧
    (∀ e, i.prepareID .bigInt none = .error e → e = .sequenceOverflow) ∧
    (i.prepareID .bigInt none = .error .sequenceOverflow ↔ .bigInt (~~~0 - 1) ∈ s.used) := by
  have ha := h.ahead
  have hirrefl : ¬ i.seq < i.seq := UInt64.lt_irrefl _
  have hnext : i.prepareID .bigInt none =
      if i.seq = ~~~0 then .error .sequenceOverflow
      else .ok ({ i with seq := i.seq + 1 }, .bigInt i.seq) := by
    rw [Identity.prepareID, Identity.nextAuto, ha.auto]
    rfl
  refine ⟨fun i' p hok => ?_, fun e he => ?_, ?_⟩
  · obtain ⟨-, -, -, rfl⟩ := Identity.nextAuto_eq_ok hok
    exact ⟨fun hu => hirrefl (ha.used _ hu), fun hs => hirrefl (ha.supplied _ hs), i.seq, rfl,
      ha.autos⟩
  · rw [hnext] at he
    split at he <;> cases he
    rfl
  · rw [hnext]
    constructor
    · intro herr
      split at herr
      case isFalse => cases herr
      case isTrue hmax =>
        rcases ha.just with h0 | hj
        · rw [h0] at hmax
          exact absurd hmax (by decide)
        · rwa [hmax] at hj
    · intro hu
      have hlt := ha.used _ hu
      have hmax : i.seq = ~~~0 := by
        rw [UInt64.lt_iff_toNat_lt] at hlt
        have hle := i.seq.toNat_lt
        have hval : (~~~0 - 1 : UInt64).toNat = 2 ^ 64 - 2 := rfl
        refine UInt64.toNat_inj.mp ?_
        have hval' : (~~~0 : UInt64).toNat = 2 ^ 64 - 1 := rfl
        omega
      rw [if_pos hmax]

theorem assigned_id_fresh_after_delete :
    ∃ i s, Issued (· ≠ .bigInt (~~~0)) i s ∧ s.used = [.bigInt 5, .bigInt 0] ∧
      i.prepareID .bigInt none = .ok ({ i with seq := 7 }, .bigInt 6) ∧ .bigInt 6 ∉ s.used := by
  have h : Issued (· ≠ .bigInt (~~~0)) { auto := true, seq := 6, deleted := [ascii "5"] }
      { supplied := [.bigInt 5], used := [.bigInt 5, .bigInt 0], autos := [0] } :=
    .delete (p := .bigInt 5) (.take (p := .bigInt 5) (.assign .init rfl) (by decide) rfl)
      (by decide)
  exact ⟨_, _, h, rfl, rfl, ((assigned_id_fresh h).1 _ _ rfl).1⟩

/-- A supplied largest id takes the counter back to zero, which is assigned again. -/
theorem assigns_id_in_use :
    ∃ i i' s, Issued (fun _ => True) i s ∧ i.prepareID .bigInt none = .ok (i', .bigInt 0) ∧
      .bigInt 0 ∈ s.used ∧ 0 ∈ s.autos :=
  ⟨_, _, _, .take (p := .bigInt (~~~0)) (.assign .init rfl) trivial rfl, rfl, by decide, by decide⟩

end VecDb.Catalog

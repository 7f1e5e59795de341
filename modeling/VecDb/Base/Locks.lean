import VecDb.Base.Run

/-! # Threads and read-write locks

Each thread has a list of lock operations still to do. While a writer is announced, no reader gets
in. If every thread takes its locks in the order of a rank, and no writer announces itself while a
reader is still to take the same lock again, no run comes to a deadlock.
-/

namespace VecDb.Locks

open List Function

inductive Act (L : Type*) where
  | rlock (l : L)
  | runlock (l : L)
  | lock (l : L)
  | unlock (l : L)
  deriving DecidableEq

def Act.target {L : Type*} : Act L → L
  | .rlock l | .runlock l | .lock l | .unlock l => l

/-- A lock: who holds it for reading, which writer has announced itself, and whether it is in. -/
structure RWMutex (T : Type*) where
  readers : List T := []
  writer : Option T := none
  granted : Bool := false

structure Sys (T L : Type*) where
  prog : T → List (Act L)
  mutex : L → RWMutex T

inductive Blocked where
  | blocked
  deriving DecidableEq

variable {T L : Type*} [DecidableEq T] [DecidableEq L]

namespace Sys

def pass (s : Sys T L) (t : T) (l : L) (m : RWMutex T) : Sys T L where
  prog := update s.prog t (s.prog t).tail
  mutex := update s.mutex l m

def step (s : Sys T L) (t : T) : Except Blocked (Sys T L) :=
  match s.prog t with
  | [] => .error .blocked
  | .rlock l :: _ =>
    match (s.mutex l).writer with
    | some _ => .error .blocked
    | none => .ok (s.pass t l { s.mutex l with readers := t :: (s.mutex l).readers })
  | .runlock l :: _ =>
    .ok (s.pass t l { s.mutex l with readers := (s.mutex l).readers.erase t })
  | .lock l :: _ =>
    match (s.mutex l).writer with
    | none => .ok { s with mutex := update s.mutex l { s.mutex l with writer := some t } }
    | some w =>
      if w = t ∧ (s.mutex l).granted = false ∧ (s.mutex l).readers = [] then
        .ok (s.pass t l { s.mutex l with granted := true })
      else .error .blocked
  | .unlock l :: _ => .ok (s.pass t l { s.mutex l with writer := none, granted := false })

def Deadlocked (s : Sys T L) : Prop :=
  (∃ t, s.prog t ≠ []) ∧ ∀ t, s.step t = .error .blocked

end Sys

/-- A thread that holds a lock some times takes it again before it has given it back as often. -/
def nests (l : L) : ℕ → List (Act L) → Bool
  | _, [] => false
  | n, .rlock l' :: p => if l' = l then 0 < n || nests l (n + 1) p else nests l n p
  | n, .runlock l' :: p => if l' = l then 1 < n && nests l (n - 1) p else nests l n p
  | n, .lock _ :: p => nests l n p
  | n, .unlock _ :: p => nests l n p

/-- A thread that is about to announce itself as a writer finds no reader that is still to take
the lock again. -/
def Sys.Calm (s : Sys T L) (t : T) : Prop :=
  match s.prog t with
  | .lock l :: _ => (s.mutex l).writer = none →
      ∀ r ∈ (s.mutex l).readers, nests l ((s.mutex l).readers.count r) (s.prog r) = false
  | _ => True

instance Sys.decidableCalm (s : Sys T L) (t : T) : Decidable (s.Calm t) :=
  match hp : s.prog t with
  | .lock l :: _ => decidable_of_iff ((s.mutex l).writer.isNone → ∀ r ∈ (s.mutex l).readers,
      nests l ((s.mutex l).readers.count r) (s.prog r) = false) (by
        rw [Calm, hp, Option.isNone_iff_eq_none])
  | [] | .rlock _ :: _ | .runlock _ :: _ | .unlock _ :: _ => .isTrue (by rw [Calm, hp]; trivial)

/-- A program that takes its locks in the order of a rank, from the locks it holds to those it
holds in the end, marked if held for writing. One held for reading may be taken for reading again.
-/
inductive Disciplined (rank : L → ℕ) : List (L × Bool) → List (Act L) → List (L × Bool) → Prop
  | nil (h : List (L × Bool)) : Disciplined rank h [] h
  | rlock {h h' : List (L × Bool)} {l : L} {p : List (Act L)}
      (hrank : ∀ x ∈ h, rank x.1 < rank l ∨ x = (l, false))
      (hp : Disciplined rank ((l, false) :: h) p h') : Disciplined rank h (.rlock l :: p) h'
  | runlock {h h' : List (L × Bool)} {l : L} {p : List (Act L)} (hmem : (l, false) ∈ h)
      (hp : Disciplined rank (h.erase (l, false)) p h') : Disciplined rank h (.runlock l :: p) h'
  | lock {h h' : List (L × Bool)} {l : L} {p : List (Act L)} (hrank : ∀ x ∈ h, rank x.1 < rank l)
      (hp : Disciplined rank ((l, true) :: h) p h') : Disciplined rank h (.lock l :: p) h'
  | unlock {h h' : List (L × Bool)} {l : L} {p : List (Act L)} (hmem : (l, true) ∈ h)
      (hp : Disciplined rank (h.erase (l, true)) p h') : Disciplined rank h (.unlock l :: p) h'

variable {rank : L → ℕ} {h h' h'' : List (L × Bool)} {p q : List (Act L)}

theorem Disciplined.append (hp : Disciplined rank h p h') (hq : Disciplined rank h' q h'') :
    Disciplined rank h (p ++ q) h'' := by
  induction hp with
  | nil h => exact hq
  | rlock hrank _ ih => exact .rlock hrank (ih hq)
  | runlock hmem _ ih => exact .runlock hmem (ih hq)
  | lock hrank _ ih => exact .lock hrank (ih hq)
  | unlock hmem _ ih => exact .unlock hmem (ih hq)

theorem Disciplined.flatMap {α : Type*} {f : α → List (Act L)} {l : List α}
    (hf : ∀ a ∈ l, Disciplined rank h (f a) h) : Disciplined rank h (l.flatMap f) h := by
  induction l with
  | nil => exact .nil h
  | cons a l ih =>
    rw [flatMap_cons]
    exact (hf a mem_cons_self).append (ih fun b hb => hf b (mem_cons_of_mem _ hb))

def RWMutex.holds (m : RWMutex T) (t : T) : Bool → ℕ
  | true => if m.writer = some t ∧ m.granted = true then 1 else 0
  | false => m.readers.count t

/-- Every thread holds what its program has still to give back, a writer that waits is at its lock,
and where a reader takes a lock again there is no writer. -/
structure Inv (rank : L → ℕ) (s : Sys T L) : Prop where
  held : ∀ t, ∃ h, Disciplined rank h (s.prog t) [] ∧
    ∀ x : L × Bool, h.count x = (s.mutex x.1).holds t x.2
  waiting : ∀ l w, (s.mutex l).writer = some w → (s.mutex l).granted = false →
    ∃ p, s.prog w = .lock l :: p
  idle : ∀ l, (s.mutex l).writer = none → (s.mutex l).granted = false
  alone : ∀ l r, r ∈ (s.mutex l).readers →
    nests l ((s.mutex l).readers.count r) (s.prog r) = true → (s.mutex l).writer = none

variable {s s' : Sys T L} {t : T} {prog : T → List (Act L)} {l : L} {a : Act L}

theorem Sys.step_cases (hs : s.step t = .ok s') :
    (∃ l p, s.prog t = .rlock l :: p ∧ (s.mutex l).writer = none ∧
      s' = s.pass t l { s.mutex l with readers := t :: (s.mutex l).readers }) ∨
    (∃ l p, s.prog t = .runlock l :: p ∧
      s' = s.pass t l { s.mutex l with readers := (s.mutex l).readers.erase t }) ∨
    (∃ l p, s.prog t = .lock l :: p ∧ (s.mutex l).writer = none ∧
      s' = { s with mutex := update s.mutex l { s.mutex l with writer := some t } }) ∨
    (∃ l p, s.prog t = .lock l :: p ∧ (s.mutex l).writer = some t ∧ (s.mutex l).readers = [] ∧
      (s.mutex l).granted = false ∧ s' = s.pass t l { s.mutex l with granted := true }) ∨
    (∃ l p, s.prog t = .unlock l :: p ∧
      s' = s.pass t l { s.mutex l with writer := none, granted := false }) := by
  unfold step at hs
  rcases hp : s.prog t with _ | ⟨l | l | l | l, p⟩ <;> rw [hp] at hs <;> dsimp only at hs
  · cases hs
  · rcases hw : (s.mutex l).writer with _ | w <;> rw [hw] at hs
    · cases hs
      exact .inl ⟨l, p, rfl, hw, by rw [← hw]⟩
    · cases hs
  · cases hs
    exact .inr (.inl ⟨l, p, rfl, rfl⟩)
  · rcases hw : (s.mutex l).writer with _ | w <;> rw [hw] at hs <;> dsimp only at hs
    · cases hs
      exact .inr (.inr (.inl ⟨l, p, rfl, hw, rfl⟩))
    · split at hs
      · rename_i hc
        obtain ⟨rfl, hg, hr⟩ := hc
        cases hs
        exact .inr (.inr (.inr (.inl ⟨l, p, rfl, hw, hr, hg, by simp only [hw]⟩)))
      · cases hs
  · cases hs
    exact .inr (.inr (.inr (.inr ⟨l, p, rfl, rfl⟩)))

theorem nests_cons_of_ne (ha : a.target ≠ l) (n : ℕ) (p : List (Act L)) :
    nests l n (a :: p) = nests l n p := by
  cases a with
  | rlock l' | runlock l' => exact if_neg ha
  | lock l' | unlock l' => rfl

/-- A thread acts on a lock and goes on, or waits for it: what has to be shown of the lock. -/
theorem Inv.act {m : RWMutex T} {q : List (Act L)} (hi : Inv rank s) (hp : s.prog t = a :: p)
    (ha : a.target = l) (hq : q = p ∨ q = a :: p)
    (hother : ∀ r, r ≠ t → ∀ b, m.holds r b = (s.mutex l).holds r b)
    (hown : ∃ h, Disciplined rank h q [] ∧ (∀ b, h.count (l, b) = m.holds t b) ∧
      ∀ l' ≠ l, ∀ b, h.count (l', b) = (s.mutex l').holds t b)
    (hwait : ∀ w, m.writer = some w → m.granted = false →
      ∃ q', (if w = t then q else s.prog w) = .lock l :: q')
    (hidle : m.writer = none → m.granted = false)
    (halone : ∀ r ∈ m.readers, nests l (m.readers.count r) (if r = t then q else s.prog r) = true →
      m.writer = none) : Inv rank ⟨update s.prog t q, update s.mutex l m⟩ where
  held := by
    intro r
    by_cases hr : r = t
    · subst hr
      obtain ⟨h, hd, hc, hrest⟩ := hown
      refine ⟨h, by simpa using hd, fun ⟨l', b⟩ => ?_⟩
      by_cases hl : l' = l
      · simpa [hl] using hc b
      · simpa [hl] using hrest l' hl b
    · obtain ⟨h, hd, hc⟩ := hi.held r
      refine ⟨h, by simpa [hr] using hd, fun x => (hc x).trans ?_⟩
      by_cases hx : x.1 = l <;> simp [hx, hother r hr]
  waiting := by
    intro l' w hw hg
    by_cases hl : l' = l
    · subst hl
      simp only [update_self] at hw hg
      obtain ⟨q', hq'⟩ := hwait w hw hg
      exact ⟨q', (update_apply ..).trans hq'⟩
    · simp only [update_of_ne hl] at hw hg
      obtain ⟨q', hq'⟩ := hi.waiting l' w hw hg
      have hne : w ≠ t := by
        rintro rfl
        rw [hp] at hq'
        cases hq'
        exact hl ha
      exact ⟨q', by simpa [hne] using hq'⟩
  idle := by
    intro l' hw
    by_cases hl : l' = l
    · subst hl
      simp only [update_self] at hw ⊢
      exact hidle hw
    · simp only [update_of_ne hl] at hw ⊢
      exact hi.idle l' hw
  alone := by
    intro l' r hr hn
    simp only [update_apply s.prog] at hn
    by_cases hl : l' = l
    · subst hl
      simp only [update_self] at hr hn ⊢
      exact halone r hr hn
    · simp only [update_of_ne hl] at hr hn ⊢
      refine hi.alone l' r hr ?_
      by_cases hrt : r = t
      · have hnests := nests_cons_of_ne (ha ▸ Ne.symm hl) ((s.mutex l').readers.count r) p
        rw [if_pos hrt] at hn
        rw [hrt, hp, ← hrt]
        rcases hq with rfl | rfl
        · rwa [hnests]
        · exact hn
      · rwa [if_neg hrt] at hn

section Cases

variable {l : L}

section

variable (hi : Inv rank s)
include hi

theorem Inv.enter (hp : s.prog t = .rlock l :: p) (hw : (s.mutex l).writer = none) :
    Inv rank (s.pass t l { s.mutex l with readers := t :: (s.mutex l).readers }) := by
  obtain ⟨h, hd, hcount⟩ := hi.held t
  rw [hp] at hd
  cases hd with | rlock _ hd => ?_
  rw [Sys.pass, hp, tail_cons]
  refine hi.act hp rfl (.inl rfl) ?_ ⟨_, hd, ?_, ?_⟩ ?_ (hi.idle l) (fun _ _ _ => hw)
  · rintro r hr (_ | _)
    · exact count_cons_of_ne (Ne.symm hr)
    · rfl
  · rintro (_ | _) <;> simp [RWMutex.holds, hcount]
  · exact fun l' hl b => by simp [Ne.symm hl, hcount]
  · intro w hw'
    rw [hw] at hw'
    cases hw'

theorem Inv.leave (hp : s.prog t = .runlock l :: p) :
    Inv rank (s.pass t l { s.mutex l with readers := (s.mutex l).readers.erase t }) := by
  obtain ⟨h, hd, hcount⟩ := hi.held t
  rw [hp] at hd
  cases hd with | runlock hmem hd => ?_
  rw [Sys.pass, hp, tail_cons]
  refine hi.act hp rfl (.inl rfl) ?_ ⟨_, hd, ?_, ?_⟩ ?_ (hi.idle l) ?_
  · rintro r hr (_ | _)
    · exact count_erase_of_ne hr
    · rfl
  · rintro (_ | _)
    · simp [RWMutex.holds, count_erase_self, hcount]
    · simp [RWMutex.holds, hcount]
  · exact fun l' hl b => by simp [hl, hcount]
  · intro w hw hg
    obtain ⟨q, hq⟩ := hi.waiting l w hw hg
    have hne : w ≠ t := by
      rintro rfl
      rw [hp] at hq
      cases hq
    exact ⟨q, (if_neg hne).trans hq⟩
  · intro r hr hn
    have hmem := mem_of_mem_erase hr
    refine hi.alone l r hmem ?_
    by_cases hrt : r = t
    · subst hrt
      rw [if_pos rfl, count_erase_self] at hn
      have hpos : 0 < ((s.mutex l).readers.erase r).count r := count_pos_iff.mpr hr
      rw [count_erase_self] at hpos
      rw [hp, nests, if_pos rfl, hn, Bool.and_true]
      exact decide_eq_true (by omega)
    · rwa [if_neg hrt, count_erase_of_ne hrt] at hn

theorem Inv.announce (hc : s.Calm t) (hp : s.prog t = .lock l :: p)
    (hw : (s.mutex l).writer = none) :
    Inv rank { s with mutex := update s.mutex l { s.mutex l with writer := some t } } := by
  have hg := hi.idle l hw
  obtain ⟨h, hd, hcount⟩ := hi.held t
  rw [← update_eq_self t s.prog]
  unfold Sys.Calm at hc
  rw [hp] at hc hd ⊢
  refine hi.act hp rfl (.inr rfl) ?_ ⟨h, hd, ?_, ?_⟩ ?_ nofun ?_
  · rintro r hr (_ | _)
    · rfl
    · simp [RWMutex.holds, hg]
  · rintro (_ | _) <;> simp [RWMutex.holds, hcount, hg]
  · exact fun l' hl b => hcount (l', b)
  · rintro w ⟨⟩ -
    exact ⟨p, if_pos rfl⟩
  · intro r hr hn
    have hprog : (if r = t then .lock l :: p else s.prog r) = s.prog r := by
      split
      · rw [‹r = t›, hp]
      · rfl
    rw [hprog, hc hw r hr] at hn
    cases hn

theorem Inv.grant (hp : s.prog t = .lock l :: p)
    (hw : (s.mutex l).writer = some t) (hr : (s.mutex l).readers = [])
    (hg : (s.mutex l).granted = false) :
    Inv rank (s.pass t l { s.mutex l with granted := true }) := by
  obtain ⟨h, hd, hcount⟩ := hi.held t
  rw [hp] at hd
  cases hd with | lock _ hd => ?_
  rw [Sys.pass, hp, tail_cons]
  refine hi.act hp rfl (.inl rfl) ?_ ⟨_, hd, ?_, ?_⟩ ?_ ?_ ?_
  · rintro r hrt (_ | _)
    · rfl
    · simp [RWMutex.holds, hw, Ne.symm hrt]
  · rintro (_ | _) <;> simp [RWMutex.holds, hcount, hw, hg]
  · exact fun l' hl b => by simp [Ne.symm hl, hcount]
  · intro w _ hg'
    cases hg'
  · intro hw'
    rw [hw] at hw'
    cases hw'
  · intro r hr'
    rw [hr] at hr'
    cases hr'

theorem Inv.release (hp : s.prog t = .unlock l :: p) :
    Inv rank (s.pass t l { s.mutex l with writer := none, granted := false }) := by
  obtain ⟨h, hd, hcount⟩ := hi.held t
  rw [hp] at hd
  cases hd with | unlock hmem hd => ?_
  have hin : (s.mutex l).writer = some t ∧ (s.mutex l).granted = true := by
    have hpos := count_pos_iff.mpr hmem
    rw [hcount] at hpos
    by_contra hne
    simp [RWMutex.holds, hne] at hpos
  rw [Sys.pass, hp, tail_cons]
  refine hi.act hp rfl (.inl rfl) ?_ ⟨_, hd, ?_, ?_⟩ ?_ (fun _ => rfl) (fun _ _ _ => rfl)
  · rintro r hrt (_ | _)
    · rfl
    · simp [RWMutex.holds, hin, Ne.symm hrt]
  · rintro (_ | _)
    · simp [RWMutex.holds, hcount]
    · simp [RWMutex.holds, count_erase_self, hcount, hin]
  · exact fun l' hl b => by simp [hl, hcount]
  · intro w hw'
    cases hw'

end

end Cases

/-- One step keeps the invariant, if no writer announces itself over a reader that is still to
take the lock again. -/
theorem Inv.step (hi : Inv rank s) (hc : s.Calm t) (hs : s.step t = .ok s') : Inv rank s' := by
  rcases Sys.step_cases hs with ⟨l, p, hp, hw, rfl⟩ | ⟨l, p, hp, rfl⟩ | ⟨l, p, hp, hw, rfl⟩ |
    ⟨l, p, hp, hw, hr, hg, rfl⟩ | ⟨l, p, hp, rfl⟩
  · exact hi.enter hp hw
  · exact hi.leave hp
  · exact hi.announce hc hp hw
  · exact hi.grant hp hw hr hg
  · exact hi.release hp

theorem Inv.start (hprog : ∀ t, Disciplined rank [] (prog t) []) :
    Inv rank (⟨prog, fun _ => {}⟩ : Sys T L) where
  held t := ⟨[], hprog t, by rintro ⟨l, _ | _⟩ <;> rfl⟩
  waiting := by simp
  idle := by simp
  alone := by simp

section

variable (hi : Inv rank s)
include hi

theorem Inv.prog_ne_nil {b : Bool} (hb : 0 < (s.mutex l).holds t b) : s.prog t ≠ [] := by
  obtain ⟨h, hd, hcount⟩ := hi.held t
  intro hnil
  rw [hnil] at hd
  cases hd
  rw [← hcount (l, b)] at hb
  cases hb

theorem Inv.blocked_above {b : Bool} (hb : 0 < (s.mutex l).holds t b)
    (hs : s.step t = .error .blocked) : ∃ a p, s.prog t = a :: p ∧ rank l < rank a.target := by
  obtain ⟨h, hd, hcount⟩ := hi.held t
  have hmem : (l, b) ∈ h := count_pos_iff.mp (by rw [hcount]; exact hb)
  unfold Sys.step at hs
  rcases hp : s.prog t with _ | ⟨l' | l' | l' | l', p⟩ <;> rw [hp] at hs hd <;> dsimp only at hs
  · exact absurd hp (hi.prog_ne_nil hb)
  · refine ⟨_, p, rfl, ?_⟩
    cases hd with | rlock hrank hd => ?_
    refine (hrank _ hmem).resolve_right ?_
    rintro heq
    cases heq
    -- the lock is held for reading and taken again, so that there is no writer
    have hr : t ∈ (s.mutex l).readers := count_pos_iff.mp hb
    have hw := hi.alone l t hr (by
      rw [hp, nests, if_pos rfl, decide_eq_true (count_pos_iff.mpr hr), Bool.true_or])
    rw [hw] at hs
    cases hs
  · cases hs
  · refine ⟨_, p, rfl, ?_⟩
    cases hd with | lock hrank hd => exact hrank _ hmem
  · cases hs

theorem Inv.held_of_blocked (hdead : ∀ t, s.step t = .error .blocked)
    (hp : s.prog t = a :: p) : ∃ r b, 0 < (s.mutex a.target).holds r b := by
  -- a writer has announced itself at the lock
  have hwriter : ∃ w, (s.mutex a.target).writer = some w := by
    have hs := hdead t
    unfold Sys.step at hs
    rw [hp] at hs
    rcases a with l | l | l | l <;> dsimp only at hs
    · rcases hw : (s.mutex l).writer with _ | w
      · rw [hw] at hs
        cases hs
      · exact ⟨w, hw⟩
    · cases hs
    · rcases hw : (s.mutex l).writer with _ | w
      · rw [hw] at hs
        cases hs
      · exact ⟨w, hw⟩
    · cases hs
  obtain ⟨w, hw⟩ := hwriter
  rcases hg : (s.mutex a.target).granted with _ | _
  · -- it waits for the readers to leave
    obtain ⟨q, hq⟩ := hi.waiting _ w hw hg
    have hs := hdead w
    unfold Sys.step at hs
    rw [hq] at hs
    dsimp only at hs
    rw [hw] at hs
    dsimp only at hs
    rcases hr : (s.mutex a.target).readers with _ | ⟨r, rs⟩
    · rw [if_pos ⟨rfl, hg, hr⟩] at hs
      cases hs
    · exact ⟨r, false, by simp [RWMutex.holds, hr]⟩
  · exact ⟨w, true, by simp [RWMutex.holds, hw, hg]⟩

theorem Inv.not_deadlocked {N : ℕ} (hN : ∀ l, rank l < N) : ¬ s.Deadlocked := by
  rintro ⟨⟨t, ht⟩, hdead⟩
  have hclimb : ∀ n, ∃ t a p, s.prog t = a :: p ∧ n ≤ rank a.target := by
    intro n
    induction n with
    | zero =>
      obtain ⟨a, p, hp⟩ := exists_cons_of_ne_nil ht
      exact ⟨t, a, p, hp, Nat.zero_le _⟩
    | succ n ih =>
      obtain ⟨t, a, p, hp, hn⟩ := ih
      obtain ⟨r, b, hb⟩ := hi.held_of_blocked hdead hp
      obtain ⟨a', p', hp', hlt⟩ := hi.blocked_above hb (hdead r)
      exact ⟨r, a', p', hp', Nat.lt_of_le_of_lt hn hlt⟩
  obtain ⟨t, a, p, -, hn⟩ := hclimb N
  exact absurd (hN a.target) (Nat.not_lt.mpr hn)

end

theorem deadlock_free (hprog : ∀ t, Disciplined rank [] (prog t) [])
    {N : ℕ} (hN : ∀ l, rank l < N) {schedule : List T}
    (hcalm : Along Sys.step Sys.Calm ⟨prog, fun _ => {}⟩ schedule) :
    ∀ s ∈ visited Sys.step ⟨prog, fun _ => {}⟩ schedule, ¬ s.Deadlocked := by
  intro s hs
  have hinv := Along.visited (fun s t s' hi hc hs => Inv.step hi hc hs) (Inv.start hprog) hcalm
  exact (hinv s hs).not_deadlocked hN

end VecDb.Locks

import Mathlib.Data.Int.Notation
import Mathlib.Data.List.Count
import Mathlib.Data.List.Nodup
import VecDb.Base.Run

/-! # The writer pipeline

Callers put their requests into a bounded queue and wait; one goroutine runs them. When the
server's context is cancelled it fails what is still queued and goes, and then the queue is
closed. A request queued once the writer has gone is never answered, and a caller about to send on
the closed queue panics.
-/

namespace VecDb.Server

open List Function

/-- What comes back to a caller: the result of its function, or the error of the shutdown. -/
inductive Answer (R : Type*) where
  | result (r : R)
  | shuttingDown
  deriving DecidableEq

inductive CallPc (R : Type*) where
  | idle
  | sending
  | waiting
  | answered (a : Answer R)
  /-- The caller's own context ended before the request was queued. -/
  | refused
  /-- The caller's own context ended while the request was queued. -/
  | abandoned
  /-- The caller has sent on the closed queue. -/
  | panicked
  deriving DecidableEq

inductive WriterPc (C : Type*) where
  | selecting
  | running (c : C)
  | draining
  | exited
  deriving DecidableEq

def WriterPc.current {C : Type*} : WriterPc C → List C
  | .running c => [c]
  | _ => []

inductive Mark (C : Type*) where
  | began (c : C)
  | ended (c : C)
  deriving DecidableEq

/-- The state of the pipeline. The last four fields record what has happened. -/
structure Pipeline (C R : Type*) where
  calls : C → CallPc R
  done : C → Option (Answer R)
  queue : List C
  closed : Bool
  cancelled : Bool
  writer : WriterPc C
  enqueued : List C
  ran : List C
  dropped : List C
  log : List (Mark C)

inductive Event (C : Type*) where
  | call (c : C)
  | send (c : C)
  | take (c : C)
  | giveUp (c : C)
  | receive
  | finish
  | seeDone
  | seeClosed
  | drain
  | drained
  | cancel
  | close
  deriving DecidableEq

def Event.byWriter {C : Type*} : Event C → Bool
  | .receive | .finish | .seeDone | .seeClosed | .drain | .drained => true
  | _ => false

inductive Disabled where
  | disabled
  deriving DecidableEq

variable {C R : Type*} [DecidableEq C]

namespace Pipeline

def start : Pipeline C R where
  calls _ := .idle
  done _ := none
  queue := []
  closed := false
  cancelled := false
  writer := .selecting
  enqueued := []
  ran := []
  dropped := []
  log := []

def setCall (s : Pipeline C R) (c : C) (pc : CallPc R) : Pipeline C R :=
  { s with calls := update s.calls c pc }

@[simp] theorem setCall_writer (s : Pipeline C R) (c : C) (pc : CallPc R) :
    (s.setCall c pc).writer = s.writer := rfl

variable (fn : C → R) (depth : ℤ)

/-- One step of a caller, the writer or the shutdown. A function's outcome is given; the queue
holds at least one request. -/
def step (s : Pipeline C R) : Event C → Except Disabled (Pipeline C R)
  | .call c =>
    match s.calls c with
    | .idle => .ok (s.setCall c .sending)
    | _ => .error .disabled
  | .send c =>
    match s.calls c with
    | .sending =>
      if s.closed then .ok (s.setCall c .panicked)
      else if (s.queue.length : ℤ) < max 1 depth then
        .ok { s.setCall c .waiting with queue := s.queue ++ [c], enqueued := s.enqueued ++ [c] }
      else .error .disabled
    | _ => .error .disabled
  | .take c =>
    match s.calls c, s.done c with
    | .waiting, some a => .ok (s.setCall c (.answered a))
    | _, _ => .error .disabled
  | .giveUp c =>
    match s.calls c with
    | .sending => .ok (s.setCall c .refused)
    | .waiting => .ok (s.setCall c .abandoned)
    | _ => .error .disabled
  | .receive =>
    match s.writer, s.queue with
    | .selecting, c :: q => .ok { s with writer := .running c, queue := q, log := s.log ++ [.began c] }
    | _, _ => .error .disabled
  | .finish =>
    match s.writer with
    | .running c =>
      .ok { s with
        writer := .selecting
        done := update s.done c (some (.result (fn c)))
        ran := s.ran ++ [c]
        log := s.log ++ [.ended c] }
    | _ => .error .disabled
  | .seeDone =>
    match s.writer with
    | .selecting => if s.cancelled then .ok { s with writer := .draining } else .error .disabled
    | _ => .error .disabled
  | .seeClosed =>
    match s.writer, s.queue with
    | .selecting, [] => if s.closed then .ok { s with writer := .exited } else .error .disabled
    | _, _ => .error .disabled
  | .drain =>
    match s.writer, s.queue with
    | .draining, c :: q =>
      .ok { s with
        queue := q
        done := update s.done c (some .shuttingDown)
        dropped := s.dropped ++ [c] }
    | _, _ => .error .disabled
  | .drained =>
    match s.writer, s.queue with
    | .draining, [] => .ok { s with writer := .exited }
    | _, _ => .error .disabled
  | .cancel => .ok { s with cancelled := true }
  | .close =>
    if s.cancelled ∧ ¬ s.closed then .ok { s with closed := true } else .error .disabled

/-- No request is queued once the writer has gone, the queue is closed when no caller is about to
send, and no caller gives up while its request is queued. -/
def Orderly (s : Pipeline C R) : Event C → Prop
  | .call _ => s.closed = false
  | .send _ => s.writer ≠ .exited
  | .giveUp c => s.calls c ≠ .waiting
  | .close => ∀ c, s.calls c ≠ .sending
  | _ => True

variable {fn} {depth} {s s' : Pipeline C R} {e : Event C} {c : C} {es : List (Event C)}
  {pc : CallPc R}

inductive Moves (fn : C → R) (s : Pipeline C R) : Event C → Pipeline C R → Prop
  | call {c : C} (hc : s.calls c = .idle) : Moves fn s (.call c) (s.setCall c .sending)
  | panic {c : C} (hc : s.calls c = .sending) (hclosed : s.closed = true) :
      Moves fn s (.send c) (s.setCall c .panicked)
  | send {c : C} (hc : s.calls c = .sending) :
      Moves fn s (.send c)
        { s.setCall c .waiting with queue := s.queue ++ [c], enqueued := s.enqueued ++ [c] }
  | take {c : C} {a : Answer R} (hc : s.calls c = .waiting) (hd : s.done c = some a) :
      Moves fn s (.take c) (s.setCall c (.answered a))
  | refuse {c : C} (hc : s.calls c = .sending) : Moves fn s (.giveUp c) (s.setCall c .refused)
  | abandon {c : C} (hc : s.calls c = .waiting) : Moves fn s (.giveUp c) (s.setCall c .abandoned)
  | receive {c : C} {q : List C} (hw : s.writer = .selecting) (hq : s.queue = c :: q) :
      Moves fn s .receive { s with writer := .running c, queue := q, log := s.log ++ [.began c] }
  | finish {c : C} (hw : s.writer = .running c) :
      Moves fn s .finish
        { s with
          writer := .selecting
          done := update s.done c (some (.result (fn c)))
          ran := s.ran ++ [c]
          log := s.log ++ [.ended c] }
  | seeDone (hw : s.writer = .selecting) : Moves fn s .seeDone { s with writer := .draining }
  | seeClosed (hw : s.writer = .selecting) (hq : s.queue = []) :
      Moves fn s .seeClosed { s with writer := .exited }
  | drain {c : C} {q : List C} (hw : s.writer = .draining) (hq : s.queue = c :: q) :
      Moves fn s .drain
        { s with
          queue := q
          done := update s.done c (some .shuttingDown)
          dropped := s.dropped ++ [c] }
  | drained (hw : s.writer = .draining) (hq : s.queue = []) :
      Moves fn s .drained { s with writer := .exited }
  | cancel : Moves fn s .cancel { s with cancelled := true }
  | close : Moves fn s .close { s with closed := true }

theorem moves_of_step (hs : s.step fn depth e = .ok s') : Moves fn s e s' := by
  cases e with
  | call | take | receive | finish | drain | drained =>
    rw [step] at hs
    split at hs
    · cases hs
      constructor <;> assumption
    · cases hs
  | send c =>
    rw [step] at hs
    split at hs
    · split_ifs at hs with hclosed
      · cases hs
        exact .panic ‹_› hclosed
      · cases hs
        exact .send ‹_›
    · cases hs
  | giveUp c =>
    rw [step] at hs
    split at hs
    · cases hs
      exact .refuse ‹_›
    · cases hs
      exact .abandon ‹_›
    · cases hs
  | seeDone | seeClosed =>
    rw [step] at hs
    split at hs
    · split_ifs at hs
      cases hs
      constructor <;> assumption
    · cases hs
  | cancel =>
    cases hs
    exact .cancel
  | close =>
    rw [step] at hs
    split_ifs at hs
    cases hs
    exact .close

/-- The requests were run, dropped or are still queued, in their order; an answer is there just for
those run or dropped; and while a request is queued the writer has not gone. -/
structure Inv (fn : C → R) (s : Pipeline C R) : Prop where
  order : s.enqueued = s.ran ++ s.writer.current ++ s.dropped ++ s.queue
  nodup : s.enqueued.Nodup
  loop : s.writer = .selecting ∨ s.writer.current ≠ [] → s.dropped = []
  status : ∀ c, c ∈ s.enqueued ↔
    s.calls c = .waiting ∨ s.calls c = .abandoned ∨ ∃ a, s.calls c = .answered a
  done : ∀ c a, s.done c = some a →
    (a = .result (fn c) ∧ c ∈ s.ran) ∨ (a = .shuttingDown ∧ c ∈ s.dropped)
  filled : ∀ c, c ∈ s.ran ∨ c ∈ s.dropped → s.done c ≠ none
  taken : ∀ c a, s.calls c = .answered a → s.done c = some a
  log : s.log = s.ran.flatMap (fun c => [.began c, .ended c]) ++ s.writer.current.map .began
  live : s.writer = .exited → s.queue = []
  shut : s.closed = true → ∀ c, s.calls c ≠ .sending
  safe : ∀ c, s.calls c ≠ .panicked

omit [DecidableEq C] in
theorem inv_start : (start : Pipeline C R).Inv fn := by
  constructor <;> simp [start, WriterPc.current]

theorem forall_setCall {P : C → CallPc R → Prop} (h : ∀ d, P d (s.calls d))
    (hc : P c pc) (d : C) : P d ((s.setCall c pc).calls d) := by
  by_cases hd : d = c
  · subst hd
    simpa [setCall] using hc
  · simpa [setCall, hd] using h d

/-- A caller goes on to a place that has nothing to do with the send, the panic or a queued
request. -/
theorem Inv.setCall (h : s.Inv fn)
    (hstatus : c ∈ s.enqueued ↔ pc = .waiting ∨ pc = .abandoned ∨ ∃ a, pc = .answered a)
    (htaken : ∀ a, pc = .answered a → s.done c = some a)
    (hshut : s.closed = true → pc ≠ .sending) (hsafe : pc ≠ .panicked) : (s.setCall c pc).Inv fn :=
  { h with
    status := forall_setCall (P := fun c pc => c ∈ s.enqueued ↔
      pc = .waiting ∨ pc = .abandoned ∨ ∃ a, pc = .answered a) h.status hstatus
    taken := forall_setCall (P := fun c pc => ∀ a, pc = .answered a → s.done c = some a)
      h.taken htaken
    shut := fun hclosed => forall_setCall (P := fun _ pc => pc ≠ .sending) (h.shut hclosed)
      (hshut hclosed)
    safe := forall_setCall (P := fun _ pc => pc ≠ .panicked) h.safe hsafe }

theorem Inv.send (h : s.Inv fn) (hc : s.calls c = .sending) (hw : s.writer ≠ .exited) :
    ({ s.setCall c .waiting with
        queue := s.queue ++ [c], enqueued := s.enqueued ++ [c] } : Pipeline C R).Inv fn :=
  { h with
    order := by
      rw [h.order, ← append_assoc]
      rfl
    nodup := by
      refine nodup_append.mpr ⟨h.nodup, nodup_singleton c, ?_⟩
      rintro a ha b hb rfl
      obtain rfl := mem_singleton.mp hb
      rw [h.status, hc] at ha
      simp at ha
    status := fun d => by
      by_cases hd : d = c
      · subst hd
        simp [Pipeline.setCall]
      · simpa [Pipeline.setCall, hd] using h.status d
    taken := forall_setCall (P := fun c pc => ∀ a, pc = .answered a → s.done c = some a)
      h.taken (by simp)
    live := fun hexit => absurd hexit hw
    shut := fun hclosed => forall_setCall (P := fun _ pc => pc ≠ .sending) (h.shut hclosed) (by simp)
    safe := forall_setCall (P := fun _ pc => pc ≠ .panicked) h.safe (by simp) }

omit [DecidableEq C] in
theorem Inv.receive {q : List C} (h : s.Inv fn) (hw : s.writer = .selecting)
    (hq : s.queue = c :: q) :
    ({ s with writer := .running c, queue := q, log := s.log ++ [.began c] } :
      Pipeline C R).Inv fn :=
  { h with
    order := by
      have horder := h.order
      rw [hw, hq, h.loop (.inl hw)] at horder
      simpa [WriterPc.current, h.loop (.inl hw)] using horder
    loop := fun _ => h.loop (.inl hw)
    log := by
      rw [h.log, hw]
      simp [WriterPc.current]
    live := fun hexit => by cases hexit }

theorem Inv.answer {a : Answer R} {ran dropped : List C} (h : s.Inv fn)
    (hnew : c ∉ s.ran ∧ c ∉ s.dropped)
    (ha : (a = .result (fn c) ∧ c ∈ ran) ∨ (a = .shuttingDown ∧ c ∈ dropped))
    (hran : ∀ d, d ≠ c → (d ∈ ran ↔ d ∈ s.ran))
    (hdropped : ∀ d, d ≠ c → (d ∈ dropped ↔ d ∈ s.dropped)) :
    (∀ d b, update s.done c (some a) d = some b →
      (b = .result (fn d) ∧ d ∈ ran) ∨ (b = .shuttingDown ∧ d ∈ dropped)) ∧
    (∀ d, d ∈ ran ∨ d ∈ dropped → update s.done c (some a) d ≠ none) ∧
    ∀ d b, s.calls d = .answered b → update s.done c (some a) d = some b := by
  refine ⟨?_, ?_, ?_⟩
  · intro d b hd
    by_cases hdc : d = c
    · subst hdc
      rw [update_self] at hd
      exact Option.some.inj hd ▸ ha
    · rw [update_of_ne hdc] at hd
      rw [hran d hdc, hdropped d hdc]
      exact h.done d b hd
  · intro d hd
    by_cases hdc : d = c
    · simp [hdc]
    · rw [update_of_ne hdc]
      rw [hran d hdc, hdropped d hdc] at hd
      exact h.filled d hd
  · intro d b hd
    have hdone := h.taken d b hd
    have hdc : d ≠ c := by
      rintro rfl
      rcases h.done d b hdone with ⟨-, hmem⟩ | ⟨-, hmem⟩
      · exact hnew.1 hmem
      · exact hnew.2 hmem
    rw [update_of_ne hdc]
    exact hdone

omit [DecidableEq C] in
theorem Inv.pending_new (h : s.Inv fn) (hc : c ∈ s.writer.current ∨ c ∈ s.queue) :
    c ∉ s.ran ∧ c ∉ s.dropped := by
  have hnodup := h.nodup
  rw [h.order, append_assoc, nodup_append] at hnodup
  obtain ⟨hleft, hright, hdisj⟩ := hnodup
  rcases hc with hc | hc
  · refine ⟨fun hmem => (nodup_append.mp hleft).2.2 c hmem c hc rfl, fun hmem => ?_⟩
    exact hdisj c (mem_append_right _ hc) c (mem_append_left _ hmem) rfl
  · refine ⟨fun hmem => ?_, fun hmem => (nodup_append.mp hright).2.2 c hmem c hc rfl⟩
    exact hdisj c (mem_append_left _ hmem) c (mem_append_right _ hc) rfl

theorem Inv.finish (h : s.Inv fn) (hw : s.writer = .running c) : ({ s with
        writer := .selecting
        done := update s.done c (some (.result (fn c)))
        ran := s.ran ++ [c]
        log := s.log ++ [.ended c] } : Pipeline C R).Inv fn := by
  have hdrop : s.dropped = [] := h.loop (.inr (by simp [hw, WriterPc.current]))
  have hnew := h.pending_new (.inl (by rw [hw]; exact mem_singleton_self c))
  obtain ⟨hdone, hfilled, htaken⟩ := @Inv.answer _ _ _ _ s c (.result (fn c)) (s.ran ++ [c])
    s.dropped h hnew (.inl ⟨rfl, by simp⟩) (by simp_all) (by simp)
  exact { h with
    order := by
      have horder := h.order
      rw [hw, hdrop] at horder
      simpa [WriterPc.current, hdrop] using horder
    loop := fun _ => hdrop
    done := hdone
    filled := hfilled
    taken := htaken
    log := by
      rw [h.log, hw]
      simp [WriterPc.current]
    live := fun hexit => by cases hexit }

theorem Inv.drain {q : List C} (h : s.Inv fn) (hw : s.writer = .draining) (hq : s.queue = c :: q) :
    ({ s with
        queue := q
        done := update s.done c (some .shuttingDown)
        dropped := s.dropped ++ [c] } : Pipeline C R).Inv fn := by
  have hnew := h.pending_new (.inr (by rw [hq]; exact mem_cons_self))
  obtain ⟨hdone, hfilled, htaken⟩ := @Inv.answer _ _ _ _ s c .shuttingDown s.ran
    (s.dropped ++ [c]) h hnew (.inr ⟨rfl, by simp⟩) (by simp) (by simp_all)
  exact { h with
    order := by
      have horder := h.order
      rw [hw, hq] at horder
      simpa [WriterPc.current, hw] using horder
    loop := by simp [hw, WriterPc.current]
    done := hdone
    filled := hfilled
    taken := htaken
    live := fun hexit => by
      rw [hw] at hexit
      cases hexit }

omit [DecidableEq C] in
theorem Inv.setWriter {w : WriterPc C} (h : s.Inv fn) (hcur : s.writer.current = [])
    (hw : w.current = []) (hloop : w ≠ .selecting) (hlive : w = .exited → s.queue = []) :
    ({ s with writer := w } : Pipeline C R).Inv fn :=
  { h with
    order := by
      have horder := h.order
      rw [hcur] at horder
      rw [hw]
      exact horder
    loop := by simp [hw, hloop]
    log := by
      have hlog := h.log
      rw [hcur] at hlog
      rw [hw]
      exact hlog
    live := hlive }

theorem Inv.step (h : s.Inv fn) (ho : s.Orderly e) (hs : Moves fn s e s') : s'.Inv fn := by
  cases hs with
  | call hc =>
    rename_i c
    have hnot : c ∉ s.enqueued := by simp [h.status, hc]
    exact h.setCall (by simpa using hnot) (by simp) (by simp [show s.closed = false from ho])
      (by simp)
  | panic hc hclosed => exact absurd hc (h.shut hclosed _)
  | send hc => exact h.send hc ho
  | take hc hd =>
    rename_i c a
    have hmem : c ∈ s.enqueued := by simp [h.status, hc]
    exact h.setCall (by simpa using hmem) (by simp [hd]) (by simp) (by simp)
  | refuse hc =>
    rename_i c
    have hnot : c ∉ s.enqueued := by simp [h.status, hc]
    exact h.setCall (by simpa using hnot) (by simp) (by simp) (by simp)
  | abandon hc => exact absurd hc ho
  | receive hw hq => exact h.receive hw hq
  | finish hw => exact h.finish hw
  | seeDone hw => exact h.setWriter (by rw [hw]; rfl) rfl (by simp) (by simp)
  | seeClosed hw hq | drained hw hq =>
    exact h.setWriter (by rw [hw]; rfl) rfl (by simp) (fun _ => hq)
  | drain hw hq => exact h.drain hw hq
  | cancel => exact { h with }
  | close => exact { h with shut := fun _ => ho }

/-- No caller has sent on the closed queue; an answered call has the result of its own function,
which ran once, or the error of the shutdown; where a call waits the writer can go on; functions
run in the order of the queue. -/
structure Served (fn : C → R) (depth : ℤ) (s : Pipeline C R) : Prop where
  safe : ∀ c, s.calls c ≠ .panicked
  answered : ∀ c a, s.calls c = .answered a →
    (a = .result (fn c) ∧ s.log.count (.began c) = 1 ∧ s.log.count (.ended c) = 1) ∨
    (a = .shuttingDown ∧ s.log.count (.began c) = 0)
  waiting : ∀ c, s.calls c = .waiting → s.done c = none →
    ∃ e s', e.byWriter = true ∧ s.step fn depth e = .ok s'
  serial : s.log = s.ran.flatMap (fun c => [.began c, .ended c]) ++ s.writer.current.map .began
  ordered : s.ran ++ s.writer.current <+: s.enqueued

omit [DecidableEq C] in
theorem Inv.pending (h : s.Inv fn) (hc : s.calls c = .waiting) (hd : s.done c = none) :
    c ∈ s.writer.current ∨ c ∈ s.queue := by
  have hmem : c ∈ s.enqueued := (h.status c).mpr (.inl hc)
  rw [h.order] at hmem
  simp only [mem_append] at hmem
  rcases hmem with ((hmem | hmem) | hmem) | hmem
  · exact absurd hd (h.filled c (.inl hmem))
  · exact .inl hmem
  · exact absurd hd (h.filled c (.inr hmem))
  · exact .inr hmem

theorem Inv.writer_enabled (h : s.Inv fn) (hc : c ∈ s.writer.current ∨ c ∈ s.queue) :
    ∃ e s', e.byWriter = true ∧ s.step fn depth e = .ok s' := by
  rcases hw : s.writer with _ | d | _ | _
  · rcases hq : s.queue with _ | ⟨d, q⟩
    · simp [hw, hq, WriterPc.current] at hc
    · exact ⟨.receive, _, rfl, by simp only [Pipeline.step, hw, hq]; rfl⟩
  · exact ⟨.finish, _, rfl, by simp only [Pipeline.step, hw]; rfl⟩
  · rcases hq : s.queue with _ | ⟨d, q⟩
    · simp [hw, hq, WriterPc.current] at hc
    · exact ⟨.drain, _, rfl, by simp only [Pipeline.step, hw, hq]; rfl⟩
  · simp [hw, h.live hw, WriterPc.current] at hc

theorem count_marks (l : List C) (c : C) :
    (l.flatMap fun c => [Mark.began c, Mark.ended c]).count (.began c) = l.count c ∧
      (l.flatMap fun c => [Mark.began c, Mark.ended c]).count (.ended c) = l.count c := by
  induction l with
  | nil => exact ⟨rfl, rfl⟩
  | cons d l ih => by_cases hd : d = c <;> simp [ih, hd]

theorem Inv.served (h : s.Inv fn) : s.Served fn depth where
  safe := h.safe
  answered c a hc := by
    have hnodup : (s.ran ++ s.writer.current).Nodup := by
      have hnodup := h.nodup
      rw [h.order, append_assoc] at hnodup
      exact (nodup_append.mp hnodup).1
    obtain ⟨hran, -, hdisj⟩ := nodup_append.mp hnodup
    -- what is running has no answer yet
    have hcur : s.writer.current.count c = 0 := by
      refine count_eq_zero.mpr fun hmem => ?_
      obtain ⟨hnot, hnot'⟩ := h.pending_new (.inl hmem)
      rcases h.done c a (h.taken c a hc) with ⟨-, hmem⟩ | ⟨-, hmem⟩
      · exact hnot hmem
      · exact hnot' hmem
    have hbegan : s.log.count (.began c) = s.ran.count c := by
      rw [h.log, count_append, (count_marks s.ran c).1,
        count_map_of_injective _ _ fun _ _ => Mark.began.inj, hcur, Nat.add_zero]
    have hended : s.log.count (.ended c) = s.ran.count c := by
      have hnone : (s.writer.current.map Mark.began).count (Mark.ended c) = 0 := by
        simp [count_eq_zero]
      rw [h.log, count_append, (count_marks s.ran c).2, hnone, Nat.add_zero]
    rw [hbegan, hended]
    rcases h.done c a (h.taken c a hc) with ⟨ha, hmem⟩ | ⟨ha, hmem⟩
    · exact .inl ⟨ha, count_eq_one_of_mem hran hmem, count_eq_one_of_mem hran hmem⟩
    · refine .inr ⟨ha, count_eq_zero.mpr fun hmem' => ?_⟩
      have hall := h.nodup
      rw [h.order, append_assoc, append_assoc, nodup_append] at hall
      exact hall.2.2 c hmem' c (mem_append_right _ (mem_append_left _ hmem)) rfl
  waiting c hc hd := h.writer_enabled (h.pending hc hd)
  serial := h.log
  ordered := by
    rw [h.order, append_assoc]
    exact prefix_append _ _

/-- How many steps of the writer it takes at most until a request is answered. -/
def distance (s : Pipeline C R) (c : C) : ℕ :=
  match s.writer with
  | .running d => if d = c then 1 else 2 * (s.queue.idxOf c + 1) + 2
  | .selecting => 2 * (s.queue.idxOf c + 1) + 1
  | .draining => s.queue.idxOf c + 1
  | .exited => 0

theorem distance_step (hc : c ∈ s.writer.current ∨ c ∈ s.queue) (hs : Moves fn s e s') :
    s'.done c ≠ none ∨ (c ∈ s'.writer.current ∨ c ∈ s'.queue) ∧
      s'.distance c + (if e.byWriter then 1 else 0) ≤ s.distance c := by
  cases hs with
  | call hc' | panic hc' hclosed | take hc' hd | refuse hc' | abandon hc' | cancel | close =>
    exact .inr ⟨hc, Nat.le_refl _⟩
  | send hc' =>
    refine .inr ⟨hc.imp_right (mem_append_left _), ?_⟩
    -- a new request goes to the end of the queue
    have hidx : c ∉ s.writer.current → ∀ l, (s.queue ++ l).idxOf c = s.queue.idxOf c :=
      fun h _ => idxOf_append_of_mem (hc.resolve_left h)
    rcases hw : s.writer with _ | d | _ | _ <;> rw [hw] at hidx
    · simp [distance, hw, hidx nofun, Event.byWriter]
    · by_cases hd : d = c
      · simp [distance, hw, hd, Event.byWriter]
      · simp [distance, hw, hd, hidx fun h => hd (mem_singleton.mp h).symm, Event.byWriter]
    · simp [distance, hw, hidx nofun, Event.byWriter]
    · simp [distance, hw, Event.byWriter]
  | receive hw hq =>
    rename_i d q
    right
    by_cases hd : d = c
    · subst hd
      simp [distance, hw, hq, WriterPc.current, Event.byWriter]
    · have hmem : c ∈ q := by simpa [hw, hq, WriterPc.current, Ne.symm hd] using hc
      refine ⟨.inr hmem, ?_⟩
      simp only [distance, hw, hq, hd, idxOf_cons_ne _ hd, Event.byWriter, if_true, if_false]
      omega
  | finish hw =>
    rename_i d
    by_cases hd : d = c
    · left
      simp [hd]
    · right
      have hmem : c ∈ s.queue := by simpa [hw, WriterPc.current, Ne.symm hd] using hc
      refine ⟨.inr hmem, ?_⟩
      simp only [distance, hw, hd, Event.byWriter, if_true, if_false]
      omega
  | seeDone hw =>
    right
    have hmem : c ∈ s.queue := by simpa [hw, WriterPc.current] using hc
    refine ⟨.inr hmem, ?_⟩
    simp only [distance, hw, Event.byWriter, if_true]
    omega
  | seeClosed hw hq | drained hw hq => simp [hw, hq, WriterPc.current] at hc
  | drain hw hq =>
    rename_i d q
    by_cases hd : d = c
    · left
      simp [hd]
    · right
      have hmem : c ∈ q := by simpa [hw, hq, WriterPc.current, Ne.symm hd] using hc
      refine ⟨.inr hmem, ?_⟩
      simp only [distance, hw, hq, idxOf_cons_ne _ hd, Event.byWriter, if_true]
      omega

theorem done_step (hs : Moves fn s e s') (hd : s.done c ≠ none) : s'.done c ≠ none := by
  cases hs with
  | finish hw =>
    rename_i d
    by_cases hdc : c = d <;> simp [hdc, hd]
  | drain hw hq =>
    rename_i d q
    by_cases hdc : c = d <;> simp [hdc, hd]
  | _ => exact hd

theorem done_exec (hs : exec (step fn depth) s es = .ok s')
    (hd : s.done c ≠ none) : s'.done c ≠ none := by
  refine exec_invariant (I := fun s => s.done c ≠ none) ?_ hd hs
  exact fun s e s' hd _ hs => done_step (moves_of_step hs) hd

theorem Inv.answered_within (h : s.Inv fn) (ho : Along (Pipeline.step fn depth) Orderly s es)
    (hs : exec (Pipeline.step fn depth) s es = .ok s') (hc : c ∈ s.writer.current ∨ c ∈ s.queue)
    (hn : s.distance c ≤ (es.filter Event.byWriter).length) : s'.done c ≠ none := by
  induction es generalizing s with
  | nil =>
    rcases hw : s.writer with _ | d | _ | _ <;> simp only [distance, hw] at hn
    · cases hn
    · split at hn <;> cases hn
    · cases hn
    · simp [hw, h.live hw, WriterPc.current] at hc
  | cons e es ih =>
    rcases hs₁ : s.step fn depth e with err | s₁
    · rw [exec, foldlM_cons, hs₁] at hs
      cases hs
    rw [exec_cons hs₁] at hs
    obtain ⟨he, ho⟩ := (along_cons hs₁).mp ho
    have hmove := moves_of_step hs₁
    rcases distance_step hc hmove with hd | ⟨hc₁, hdist⟩
    · exact done_exec hs hd
    · refine ih (h.step he hmove) ho hs hc₁ ?_
      rcases hb : e.byWriter
      · rw [filter_cons_of_neg (by simp [hb])] at hn
        rw [hb] at hdist
        exact Nat.le_trans hdist hn
      · rw [filter_cons_of_pos hb, length_cons] at hn
        rw [hb, if_pos rfl] at hdist
        omega

/-- In every orderly run, every call of `write` is served, and one that waits is answered once the
writer has taken as many steps as there are before its answer. -/
theorem every_write_served (fn : C → R) (depth : ℤ) (es : List (Event C))
    (ho : Along (step fn depth) Orderly start es) :
    (∀ s ∈ visited (step fn depth) start es, s.Served fn depth) ∧
    ∀ pre post s s' c, es = pre ++ post → exec (step fn depth) start pre = .ok s →
      exec (step fn depth) s post = .ok s' → s.calls c = .waiting →
      s.distance c ≤ (post.filter Event.byWriter).length → s'.done c ≠ none := by
  have hstep : ∀ (s : Pipeline C R) e s', s.Inv fn → s.Orderly e →
      s.step fn depth e = .ok s' → s'.Inv fn := fun s e s' h ho hs => h.step ho (moves_of_step hs)
  refine ⟨fun s hs => (Along.visited hstep inv_start ho s hs).served, ?_⟩
  rintro pre post s s' c rfl hpre hpost hc hn
  rw [along_append hpre] at ho
  have h := Along.visited hstep inv_start ho.1 s (mem_visited hpre)
  by_cases hd : s.done c = none
  · exact h.answered_within ho.2 hpost (h.pending hc hd) hn
  · exact done_exec hpost hd

instance decidableOrderly [DecidableEq R] (s : Pipeline Bool R) (e : Event Bool) :
    Decidable (s.Orderly e) :=
  match e with
  | .call _ => inferInstanceAs (Decidable (_ = _))
  | .send _ => inferInstanceAs (Decidable (_ ≠ _))
  | .giveUp _ => inferInstanceAs (Decidable (_ ≠ _))
  | .close => inferInstanceAs (Decidable (∀ _, _))
  | .take _ | .receive | .finish | .seeDone | .seeClosed | .drain | .drained | .cancel =>
    .isTrue trivial

def twoWrites : List (Event Bool) :=
  [.call false, .call true, .send false, .receive, .send true, .cancel, .finish, .seeDone, .drain,
    .drained, .take false, .take true, .close]

theorem every_write_served_two_writes :
    (exec (step (fun _ : Bool => 7) 1) start twoWrites).toOption.map (fun s => (s.calls false, s.calls true))
        = some (.answered (.result 7), .answered .shuttingDown) ∧
      ∀ s ∈ visited (step (fun _ : Bool => 7) 1) start twoWrites, s.Served (fun _ => 7) 1 :=
  ⟨by decide, (every_write_served _ _ twoWrites (by decide)).1⟩

theorem exited_step (hs : Moves fn s e s') (h : s.writer = .exited ∧ s.done c = none) :
    s'.writer = .exited ∧ s'.done c = none := by
  cases hs with
  | receive hw hq | finish hw | seeDone hw | seeClosed hw hq | drain hw hq | drained hw hq =>
    exact absurd (h.1.symm.trans hw) (by simp)
  | _ => exact h

/-- A write that comes after the writer has gone waits for ever, and one that is about to send
when the queue is closed panics. -/
theorem writes_lost_at_shutdown :
    (∃ s, exec (step (fun _ : Bool => 7) 1) start
        [.cancel, .seeDone, .drained, .call true, .send true] = .ok s ∧ s.calls true = .waiting ∧
      ∀ es s', exec (step (fun _ => 7) 1) s es = .ok s' → s'.done true = none) ∧
    ∃ s, exec (step (fun _ : Bool => 7) 1) start [.call true, .cancel, .close, .send true] = .ok s ∧
      s.calls true = .panicked := by
  refine ⟨⟨_, rfl, rfl, fun es s' hs => ?_⟩, _, rfl, rfl⟩
  have hgone := exec_invariant (I := fun s : Pipeline Bool ℕ => s.writer = .exited ∧ s.done true = none)
    (fun s e s' h _ hs => exited_step (moves_of_step hs) h) ⟨rfl, rfl⟩ hs
  exact hgone.2

end Pipeline

end VecDb.Server

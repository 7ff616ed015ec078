import MengSen.Net.EventLoopQueue
import MengSen.Net.TimerQueueCut

/-!
# Net.TimerLoop — timers that any thread adds and cancels

`addTimer` and `cancel` of `net/TimerQueue.cpp` over `runInLoop` of `net/EventLoop.cpp`: the loop
thread executes `addTimerInLoop` and `cancelInLoop` at once, the threads `τ` push them as functors.
The machine is the event loop and the timer queue side by side; an action moves one of them or both.
`handleRead` of the timer queue runs where the event loop handles its channels, with `reset` in
rounds: the destructors of the callbacks that it deletes are user code as well.  The destructors of
the functors, at the end of `doPendingFunctors`, may add and cancel timers too.

The numbers of the timers, which tell them apart whatever address they have, are ghosts, and so are
`returned` and `canceled`.
-/

namespace MengSen.TimerLoop

open Machine (guarded guarded_eq within within_eq_ok seq_eq_ok ite_eq_ok)

/-- What is pushed to `pendingFunctors_`. -/
inductive Functor
  | addTimerInLoop (timer : Addr)
  /-- `targets` is a ghost: the timers for which `addTimer` had returned the id at the call -/
  | cancelInLoop (timerId : TimerId) (targets : List ℕ)
  | other
  deriving DecidableEq

/-- Where a thread is in `addTimer`: it has created the timer, or also called `runInLoop`. -/
inductive Thread
  | idle
  | created (timer : Addr) (number : ℕ)
  | queued (timer : Addr) (number : ℕ)
  deriving DecidableEq

inductive Fault
  | loop (e : EventLoop.Fault)
  | queue (e : TimerQueue.Fault)

structure State (D τ : Type) where
  loop : EventLoop.State Functor τ
  queue : TimerQueue.State D
  threads : τ → Thread
  /-- the ids that `addTimer` returned, with the numbers of the timers -/
  returned : List (TimerId × ℕ)
  /-- the cancels executed: the number of the timer and that of the last batch begun before -/
  canceled : List (ℕ × ℕ)

variable {D τ : Type}

namespace State

/-- `doPendingFunctors` has called its functors and destroys them. -/
def DestroysFunctors (s : State D τ) : Prop :=
  s.loop.pc = .draining ∧ s.loop.functors = []

instance (s : State D τ) : Decidable s.DestroysFunctors := inferInstanceAs (Decidable (_ ∧ _))

/-- The loop thread may be in user code, not in a call of `EventLoop` or `TimerQueue`. -/
def InUserCode (s : State D τ) : Prop :=
  (s.loop.InUserCode ∨ s.DestroysFunctors) ∧ s.queue.phase.inUserCode = true

instance (s : State D τ) : Decidable s.InUserCode := inferInstanceAs (Decidable (_ ∧ _))

/-- The timers for which `addTimer` has returned the id. -/
def timersOf (s : State D τ) (timerId : TimerId) : List ℕ :=
  (s.returned.filter fun p => p.1 = timerId).map Prod.snd

def noteCanceled (s : State D τ) (targets : List ℕ) : State D τ :=
  { s with canceled := targets.map (fun n => (n, s.queue.batchNo)) ++ s.canceled }

/-- The functor that adds the timer with number `n` is pushed and not called yet. -/
def addWaiting (s : State D τ) (n : ℕ) : Bool :=
  s.loop.waiting.any fun
    | .addTimerInLoop timer => (s.queue.heap timer).map Timer.sequence = some n
    | _ => false

variable [Seconds D] [DecidableEq τ]

/-- `reset` has begun, and the timer with number `n` is in the rest of its batch and restarts. -/
def restartWaiting (s : State D τ) (n : ℕ) : Bool :=
  !s.queue.callingExpiredTimers && s.queue.batch.any fun a =>
    match s.queue.heap a with
    | some t => t.sequence = n ∧ TimerQueue.Restarts s.queue a t
    | none => false

/-- The event loop takes an action. -/
def inLoop (s : State D τ) (a : EventLoop.Action Functor τ) : ExceptT Fault Option (State D τ) :=
  within .loop (fun l => { s with loop := l }) (EventLoop.act s.loop a)

/-- The timer queue takes an action. -/
def inQueue (s : State D τ) (a : TimerQueue.Cut.Action D) : ExceptT Fault Option (State D τ) :=
  within .queue (fun q => { s with queue := q }) (TimerQueue.Cut.act s.queue a)

/-- The actions of the event loop that the other part does not forbid: the loop thread does one
thing at a time, and so does a thread in `addTimer`.  Functors of the timer queue are not pushed and
called here. -/
def LoopMay (s : State D τ) : EventLoop.Action Functor τ → Prop
  | .handleRead | .eventsDone => s.queue.phase.isQuiet = true
  | .startFunctor => s.loop.functors.head? = some .other
  | .selfQueue cb => cb = .other ∧ s.queue.phase.inUserCode = true
  | .selfQuit => s.queue.phase.inUserCode = true
  | .queue t cb => cb = .other ∧ s.threads t = .idle
  | .setQuit t => s.threads t = .idle
  | _ => True

instance (s : State D τ) : ∀ a, Decidable (s.LoopMay a)
  | .handleRead | .eventsDone => inferInstanceAs (Decidable (s.queue.phase.isQuiet = true))
  | .startFunctor => inferInstanceAs (Decidable (s.loop.functors.head? = some .other))
  | .selfQueue _ | .queue _ _ => inferInstanceAs (Decidable (_ ∧ _))
  | .selfQuit => inferInstanceAs (Decidable (s.queue.phase.inUserCode = true))
  | .setQuit t => inferInstanceAs (Decidable (s.threads t = .idle))
  | .callLoop | .clearQuit | .whileTest | .pollReturns _ | .swap | .functorReturns | .drainDone
  | .loopReturns | .selfWakeup | .wakeup _ => inferInstanceAs (Decidable True)

/-- The actions of `TimerQueue::handleRead`. -/
def TimersMay (s : State D τ) : TimerQueue.Cut.Action D → Prop
  | .whole (.handleRead _ _) => s.loop.pc = .handling ∧ s.loop.self = .idle
  | .whole .run | .whole .callbackReturns | .callbacksDone | .resetRound | .resetDone _ _ => True
  | _ => False

instance (s : State D τ) : ∀ a, Decidable (s.TimersMay a)
  | .whole (.handleRead _ _) => inferInstanceAs (Decidable (_ ∧ _))
  | .whole .run | .whole .callbackReturns | .callbacksDone | .resetRound | .resetDone _ _ =>
    inferInstanceAs (Decidable True)
  | .whole (.newTimer _ _ _) | .whole (.addTimerInLoop _ _) | .whole (.cancelInLoop _)
  | .whole (.reset _ _) => inferInstanceAs (Decidable False)

end State

/-! ## The machine -/

inductive Action (D τ : Type)
  /-- an action of the event loop alone -/
  | loop (a : EventLoop.Action Functor τ)
  /-- an action of `TimerQueue::handleRead` -/
  | timers (a : TimerQueue.Cut.Action D)
  /-- `doPendingFunctors` calls a functor of the timer queue -/
  | callFunctor (now : ℕ)
  /-- `addTimer` in the loop thread -/
  | selfAddTimer (timer : Addr) (when : ℕ) (interval : D) (now : ℕ)
  /-- `cancel` in the loop thread -/
  | selfCancel (timerId : TimerId)
  /-- `new Timer` in `addTimer` -/
  | newTimer (t : τ) (timer : Addr) (when : ℕ) (interval : D)
  /-- `runInLoop` in `addTimer` -/
  | queueTimer (t : τ)
  /-- the return of `addTimer`; `garbage` is read for the sequence number of a deleted timer -/
  | addTimerReturns (t : τ) (garbage : ℕ)
  /-- `cancel` -/
  | cancel (t : τ) (timerId : TimerId)

variable [Seconds D] [DecidableEq τ]

def act (s : State D τ) : Action D τ → ExceptT Fault Option (State D τ)
  | .loop a => if s.LoopMay a then s.inLoop a else .mk none
  | .timers a => if s.TimersMay a then s.inQueue a else .mk none
  | .callFunctor now =>
    match s.loop.functors with
    | .addTimerInLoop timer :: _ => do
      let s ← s.inLoop .startFunctor
      let s ← s.inQueue (.whole (.addTimerInLoop timer now))
      s.inLoop .functorReturns
    | .cancelInLoop timerId targets :: _ => do
      let s ← s.inLoop .startFunctor
      let s ← s.inQueue (.whole (.cancelInLoop timerId))
      (s.noteCanceled targets).inLoop .functorReturns
    | _ => .mk none
  | .selfAddTimer timer when interval now =>
    if s.InUserCode then do
      let number := s.queue.numCreated + 1
      let s ← s.inQueue (.whole (.newTimer timer when interval))
      let s ← s.inQueue (.whole (.addTimerInLoop timer now))
      return { s with returned := (⟨timer, number⟩, number) :: s.returned }
    else .mk none
  | .selfCancel timerId =>
    if s.InUserCode then do
      let s' ← s.inQueue (.whole (.cancelInLoop timerId))
      return s'.noteCanceled (s.timersOf timerId)
    else .mk none
  | .newTimer t timer when interval =>
    if s.threads t = .idle ∧ s.loop.callers t = .idle then do
      let number := s.queue.numCreated + 1
      let s ← s.inQueue (.whole (.newTimer timer when interval))
      return { s with threads := Function.update s.threads t (.created timer number) }
    else .mk none
  | .queueTimer t =>
    match s.threads t with
    | .created timer number => do
      let s ← s.inLoop (.queue t (.addTimerInLoop timer))
      return { s with threads := Function.update s.threads t (.queued timer number) }
    | _ => .mk none
  | .addTimerReturns t garbage =>
    match s.threads t with
    | .queued timer number =>
      let sequence := ((s.queue.heap timer).map Timer.sequence).getD garbage
      .mk <| guarded (s.loop.callers t = .idle)
        { s with
          threads := Function.update s.threads t .idle
          returned := (⟨timer, sequence⟩, number) :: s.returned }
    | _ => .mk none
  | .cancel t timerId =>
    if s.threads t = .idle then
      s.inLoop (.queue t (.cancelInLoop timerId (s.timersOf timerId)))
    else .mk none

def init : State D τ where
  loop := EventLoop.init
  queue := TimerQueue.init
  threads _ := .idle
  returned := []
  canceled := []

def machine (D τ : Type) [Seconds D] [DecidableEq τ] :
    Machine (State D τ) (Action D τ) Fault where
  init s := s = init
  act := act

/-! ## What an action does -/

variable {s t : State D τ}

omit [Seconds D] in
theorem inLoop_eq_ok {a : EventLoop.Action Functor τ} :
    (s.inLoop a).run = some (.ok t) ↔
      ∃ l, (EventLoop.machine Functor τ).Step s.loop a l ∧ { s with loop := l } = t := within_eq_ok

omit [DecidableEq τ] in
theorem inQueue_eq_ok {a : TimerQueue.Cut.Action D} :
    (s.inQueue a).run = some (.ok t) ↔
      ∃ q, (TimerQueue.Cut.machine D).Step s.queue a q ∧ { s with queue := q } = t := within_eq_ok

/-- The effect of each action, in steps of the two parts. -/
inductive Effect (s : State D τ) : Action D τ → State D τ → Prop
  | loop {a l} (hmay : s.LoopMay a) (hl : (EventLoop.machine Functor τ).Step s.loop a l) :
    Effect s (.loop a) { s with loop := l }
  | timers {a q} (hmay : s.TimersMay a) (hq : (TimerQueue.Cut.machine D).Step s.queue a q) :
    Effect s (.timers a) { s with queue := q }
  | callAdd {timer now rest l m q} (hf : s.loop.functors = .addTimerInLoop timer :: rest)
    (hl : (EventLoop.machine Functor τ).Step s.loop .startFunctor l)
    (hq : (TimerQueue.Cut.machine D).Step s.queue (.whole (.addTimerInLoop timer now)) q)
    (hm : (EventLoop.machine Functor τ).Step l .functorReturns m) :
    Effect s (.callFunctor now) { s with loop := m, queue := q }
  | callCancel {id targets now rest l m q}
    (hf : s.loop.functors = .cancelInLoop id targets :: rest)
    (hl : (EventLoop.machine Functor τ).Step s.loop .startFunctor l)
    (hq : (TimerQueue.Cut.machine D).Step s.queue (.whole (.cancelInLoop id)) q)
    (hm : (EventLoop.machine Functor τ).Step l .functorReturns m) :
    Effect s (.callFunctor now) { s with
      loop := m
      queue := q
      canceled := targets.map (fun n => (n, q.batchNo)) ++ s.canceled }
  | selfAddTimer {timer when interval now p q} (hcode : s.InUserCode)
    (hp : (TimerQueue.Cut.machine D).Step s.queue (.whole (.newTimer timer when interval)) p)
    (hq : (TimerQueue.Cut.machine D).Step p (.whole (.addTimerInLoop timer now)) q) :
    Effect s (.selfAddTimer timer when interval now) { s with
      queue := q
      returned := (⟨timer, s.queue.numCreated + 1⟩, s.queue.numCreated + 1) :: s.returned }
  | selfCancel {id q} (hcode : s.InUserCode)
    (hq : (TimerQueue.Cut.machine D).Step s.queue (.whole (.cancelInLoop id)) q) :
    Effect s (.selfCancel id) { s with
      queue := q
      canceled := (s.timersOf id).map (fun n => (n, q.batchNo)) ++ s.canceled }
  | newTimer {t timer when interval q} (hidle : s.threads t = .idle ∧ s.loop.callers t = .idle)
    (hq : (TimerQueue.Cut.machine D).Step s.queue (.whole (.newTimer timer when interval)) q) :
    Effect s (.newTimer t timer when interval) { s with
      queue := q
      threads := Function.update s.threads t (.created timer (s.queue.numCreated + 1)) }
  | queueTimer {t timer number l} (ht : s.threads t = .created timer number)
    (hl : (EventLoop.machine Functor τ).Step s.loop (.queue t (.addTimerInLoop timer)) l) :
    Effect s (.queueTimer t) { s with
      loop := l
      threads := Function.update s.threads t (.queued timer number) }
  | addTimerReturns {t timer number garbage} (ht : s.threads t = .queued timer number)
    (hidle : s.loop.callers t = .idle) :
    Effect s (.addTimerReturns t garbage) { s with
      threads := Function.update s.threads t .idle
      returned :=
        (⟨timer, ((s.queue.heap timer).map Timer.sequence).getD garbage⟩, number) :: s.returned }
  | cancel {t id l} (hidle : s.threads t = .idle)
    (hl : (EventLoop.machine Functor τ).Step s.loop
      (.queue t (.cancelInLoop id (s.timersOf id))) l) :
    Effect s (.cancel t id) { s with loop := l }

/-- **Inversion**: a step has its effect. -/
theorem effect_of_step {a : Action D τ} (h : (machine D τ).Step s a t) : Effect s a t := by
  change (act s a).run = some (.ok t) at h
  cases a with
  | loop a =>
    obtain ⟨hmay, h⟩ := ite_eq_ok.mp h
    obtain ⟨l, hl, rfl⟩ := inLoop_eq_ok.mp h
    exact .loop hmay hl
  | timers a =>
    obtain ⟨hmay, h⟩ := ite_eq_ok.mp h
    obtain ⟨q, hq, rfl⟩ := inQueue_eq_ok.mp h
    exact .timers hmay hq
  | callFunctor now =>
    simp only [act] at h
    split at h
    · next timer rest hf =>
      obtain ⟨s₁, h₁, h⟩ := seq_eq_ok.mp h
      obtain ⟨s₂, h₂, h⟩ := seq_eq_ok.mp h
      obtain ⟨l, hl, rfl⟩ := inLoop_eq_ok.mp h₁
      obtain ⟨q, hq, rfl⟩ := inQueue_eq_ok.mp h₂
      obtain ⟨m, hm, rfl⟩ := inLoop_eq_ok.mp h
      exact .callAdd hf hl hq hm
    · next id targets rest hf =>
      obtain ⟨s₁, h₁, h⟩ := seq_eq_ok.mp h
      obtain ⟨s₂, h₂, h⟩ := seq_eq_ok.mp h
      obtain ⟨l, hl, rfl⟩ := inLoop_eq_ok.mp h₁
      obtain ⟨q, hq, rfl⟩ := inQueue_eq_ok.mp h₂
      obtain ⟨m, hm, rfl⟩ := inLoop_eq_ok.mp h
      exact .callCancel hf hl hq hm
    · cases h
  | selfAddTimer timer when interval now =>
    obtain ⟨hcode, h⟩ := ite_eq_ok.mp h
    obtain ⟨s₁, h₁, h⟩ := seq_eq_ok.mp h
    obtain ⟨s₂, h₂, h⟩ := seq_eq_ok.mp h
    obtain ⟨p, hp, rfl⟩ := inQueue_eq_ok.mp h₁
    obtain ⟨q, hq, rfl⟩ := inQueue_eq_ok.mp h₂
    cases h
    exact .selfAddTimer hcode hp hq
  | selfCancel id =>
    obtain ⟨hcode, h⟩ := ite_eq_ok.mp h
    obtain ⟨s₁, h₁, h⟩ := seq_eq_ok.mp h
    obtain ⟨q, hq, rfl⟩ := inQueue_eq_ok.mp h₁
    cases h
    exact .selfCancel hcode hq
  | newTimer t timer when interval =>
    obtain ⟨hidle, h⟩ := ite_eq_ok.mp h
    obtain ⟨s₁, h₁, h⟩ := seq_eq_ok.mp h
    obtain ⟨q, hq, rfl⟩ := inQueue_eq_ok.mp h₁
    cases h
    exact .newTimer hidle hq
  | queueTimer t =>
    simp only [act] at h
    split at h
    · next timer number ht =>
      obtain ⟨s₁, h₁, h⟩ := seq_eq_ok.mp h
      obtain ⟨l, hl, rfl⟩ := inLoop_eq_ok.mp h₁
      cases h
      exact .queueTimer ht hl
    · cases h
  | addTimerReturns t garbage =>
    simp only [act] at h
    split at h
    · next timer number ht =>
      obtain ⟨hidle, h⟩ := guarded_eq.mp h
      cases h
      exact .addTimerReturns ht hidle
    · cases h
  | cancel t id =>
    obtain ⟨hidle, h⟩ := ite_eq_ok.mp h
    obtain ⟨l, hl, rfl⟩ := inLoop_eq_ok.mp h
    exact .cancel hidle hl

end MengSen.TimerLoop

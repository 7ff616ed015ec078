import MengSen.Lib.Machine
import MengSen.Lib.OrdSet
import MengSen.Net.Timer
import Mathlib.Logic.Function.Basic

/-!
# Net.TimerQueue — the two indexes, the expired batch and the timerfd

`net/TimerQueue.h` and `net/TimerQueue.cpp`.  Timers live in a heap of addresses; reading one that
was deleted, or deleting it again, is a fault.  In the machine below the loop thread executes
`addTimerInLoop` and `cancelInLoop` between two `handleRead`s and inside the callbacks of a batch;
`handleRead` itself is cut at the callbacks.  Clock readings, the addresses that the allocator
returns and the value of the uninitialised `nextExpire` are parameters of the actions.

The expiry of the timerfd is consumed by `handleRead`, which reads it.  Deleting a timer destroys its
callback; here the destructors of what a callback holds call nothing of the timer queue.  Those that
`reset` runs are user code in `Net.TimerQueueCut`.  The fields from `unadded` on are ghosts.
-/

namespace MengSen.TimerQueue

open Machine (check guarded)

inductive Fault
  | assertion
  | dangling
  | doubleDelete
  deriving DecidableEq

structure Timespec where
  tv_sec : ℕ
  tv_nsec : ℕ
  deriving DecidableEq

/-- A call of `timerfd_settime`: the deadline, the clock reading and the relative delay. -/
structure Arming where
  when : ℕ
  now : ℕ
  delay : Timespec
  deriving DecidableEq

/-- Where the loop thread is in `handleRead`. -/
inductive Phase
  /-- not in `handleRead` -/
  | quiet
  /-- in the loop over `expired`, before the callbacks of `rest` -/
  | running (now : ℕ) (expired rest : List Entry)
  /-- inside a callback -/
  | inCallback (now : ℕ) (expired rest : List Entry)

structure State (D : Type) where
  heap : Addr → Option (Timer D)
  numCreated : ℕ
  timers : OrdSet Entry
  activeTimers : OrdSet ActiveTimer
  callingExpiredTimers : Bool
  cancelingTimers : OrdSet ActiveTimer
  /-- the last arming, `none` before the first one and after the timerfd was read -/
  timerfd : Option Arming
  phase : Phase
  /-- the timers created whose `addTimerInLoop` was not executed yet -/
  unadded : List Addr
  /-- the time that the timer with a given sequence number was asked for -/
  asked : ℕ → ℕ
  /-- the ids given to `cancelInLoop` since the running batch began -/
  cancelCalls : List TimerId
  /-- the number of batches begun -/
  batchNo : ℕ
  /-- the callbacks run: the number of the batch and the sequence number of the timer -/
  ran : List (ℕ × ℕ)

namespace detail

def howMuchTimeFromNow (when now : ℕ) : Timespec :=
  let microseconds := Word.sub 64 when now
  let microseconds := if microseconds < 100 then 100 else microseconds
  { tv_sec := microseconds / Timestamp.kMicroSecondsPerSecond
    tv_nsec := microseconds % Timestamp.kMicroSecondsPerSecond * 1000 }

end detail

variable {D : Type} [Seconds D]

/-! ## Functions of the class -/

namespace State

omit [Seconds D]

/-- `*timer`. -/
def deref (s : State D) (timer : Addr) : Except Fault (Timer D) :=
  match s.heap timer with
  | some t => .ok t
  | none => .error .dangling

/-- `delete timer`. -/
def delete (s : State D) (timer : Addr) : Except Fault (State D) :=
  match s.heap timer with
  | some _ => .ok { s with heap := Function.update s.heap timer none }
  | none => .error .doubleDelete

/-- `detail::readTimerfd`: the read consumes the expiry, if there was one. -/
def readTimerfd (s : State D) (fired : Bool) : State D :=
  { s with timerfd := if fired then none else s.timerfd }

/-- `detail::resetTimerfd`, `now` being the clock reading in it. -/
def resetTimerfd (s : State D) (expiration now : ℕ) : State D :=
  { s with timerfd := some ⟨expiration, now, detail.howMuchTimeFromNow expiration now⟩ }

/-- `when` is before the least expiration, or there is none. -/
def isEarliest (s : State D) (when : ℕ) : Bool :=
  match s.timers.begin? with
  | none => true
  | some it => when < it.expiration

def insert (s : State D) (timer : Addr) : Except Fault (State D × Bool) := do
  check (s.timers.size = s.activeTimers.size) .assertion
  let t ← s.deref timer
  let result := s.timers.insert ⟨t.expiration, timer⟩
  check (result.2 = true) .assertion
  let result' := s.activeTimers.insert ⟨timer, t.sequence⟩
  check (result'.2 = true) .assertion
  check (result.1.size = result'.1.size) .assertion
  return ({ s with timers := result.1, activeTimers := result'.1 }, s.isEarliest t.expiration)

def addTimerInLoop (s : State D) (timer : Addr) (now : ℕ) : Except Fault (State D) := do
  let (s, earliestChanged) ← s.insert timer
  if earliestChanged then
    let t ← s.deref timer
    return s.resetTimerfd t.expiration now
  else
    return s

def cancelInLoop (s : State D) (timerId : TimerId) : Except Fault (State D) := do
  check (s.timers.size = s.activeTimers.size) .assertion
  let s ←
    if timerId ∈ s.activeTimers then do
      let t ← s.deref timerId.timer
      let result := s.timers.erase ⟨t.expiration, timerId.timer⟩
      check (result.2 = 1) .assertion
      let s ← s.delete timerId.timer
      pure { s with timers := result.1, activeTimers := (s.activeTimers.erase timerId).1 }
    else if s.callingExpiredTimers then
      pure { s with cancelingTimers := (s.cancelingTimers.insert timerId).1 }
    else
      pure s
  check (s.timers.size = s.activeTimers.size) .assertion
  return s

/-- The loop of `getExpired` over the expired entries. -/
def eraseActive : List Entry → State D → Except Fault (State D)
  | [], s => .ok s
  | it :: rest, s => do
    let t ← s.deref it.timer
    let result := s.activeTimers.erase ⟨it.timer, t.sequence⟩
    check (result.2 = 1) .assertion
    eraseActive rest { s with activeTimers := result.1 }

def getExpired (s : State D) (now : ℕ) : Except Fault (List Entry × State D) := do
  check (s.timers.size = s.activeTimers.size) .assertion
  let sentry : Entry := ⟨now, UINTPTR_MAX⟩
  check (∀ e ∈ s.timers.lowerBound? sentry, now < e.expiration) .assertion
  let expired := s.timers.below sentry
  let s ← eraseActive expired { s with timers := s.timers.eraseBelow sentry }
  check (s.timers.size = s.activeTimers.size) .assertion
  return (expired, s)

end State

/-- The loop of `reset` over the expired entries. -/
def State.resetLoop (now : ℕ) : List Entry → State D → Except Fault (State D)
  | [], s => .ok s
  | it :: rest, s => do
    let t ← s.deref it.timer
    if t.repeat_ = true ∧ ⟨it.timer, t.sequence⟩ ∉ s.cancelingTimers then
      let s := { s with heap := Function.update s.heap it.timer (some (t.restart now)) }
      let (s, _) ← s.insert it.timer
      resetLoop now rest s
    else
      let s ← s.delete it.timer
      resetLoop now rest s

/-- `reset`; `clock` is the clock reading in it, `garbage` the uninitialised `nextExpire`. -/
def State.reset (s : State D) (expired : List Entry) (now clock garbage : ℕ) :
    Except Fault (State D) := do
  let s ← s.resetLoop now expired
  let nextExpire ←
    match s.timers.begin? with
    | some it => do
      let t ← s.deref it.timer
      pure t.expiration
    | none => pure garbage
  return if Timestamp.valid nextExpire then s.resetTimerfd nextExpire clock else s

/-! ## The machine -/

inductive Action (D : Type)
  /-- `new Timer` in `addTimer`, in any thread -/
  | newTimer (timer : Addr) (when : ℕ) (interval : D)
  | addTimerInLoop (timer : Addr) (now : ℕ)
  | cancelInLoop (timerId : TimerId)
  /-- `handleRead` up to the first callback; `fired` says whether the timerfd had expired -/
  | handleRead (now : ℕ) (fired : Bool)
  /-- `it.second->run()` -/
  | run
  | callbackReturns
  /-- the end of `handleRead` -/
  | reset (clock garbage : ℕ)

/-- The loop thread executes functors or callbacks. -/
def Phase.inUserCode : Phase → Bool
  | .quiet | .inCallback .. => true
  | .running .. => false

def Phase.isQuiet : Phase → Bool
  | .quiet => true
  | _ => false

def act (s : State D) : Action D → Option (Except Fault (State D))
  | .newTimer timer when interval =>
    let t := Timer.make when interval s.numCreated
    guarded (s.heap timer = none ∧ timer < UINTPTR_MAX)
      { s with
        heap := Function.update s.heap timer (some t)
        numCreated := t.sequence
        unadded := timer :: s.unadded
        asked := Function.update s.asked t.sequence when }
  | .addTimerInLoop timer now =>
    if timer ∈ s.unadded ∧ s.phase.inUserCode = true then some do
      let s ← s.addTimerInLoop timer now
      return { s with unadded := s.unadded.erase timer }
    else none
  | .cancelInLoop timerId =>
    if s.phase.inUserCode = true then some do
      let s ← s.cancelInLoop timerId
      return { s with cancelCalls := timerId :: s.cancelCalls }
    else none
  | .handleRead now fired =>
    match s.phase with
    | .quiet => some do
      let (expired, s) ← (s.readTimerfd fired).getExpired now
      return { s with
        callingExpiredTimers := true
        cancelingTimers := .empty
        phase := .running now expired expired
        cancelCalls := []
        batchNo := s.batchNo + 1 }
    | _ => none
  | .run =>
    match s.phase with
    | .running now expired (it :: rest) => some do
      let t ← s.deref it.timer
      return { s with
        phase := .inCallback now expired rest
        ran := s.ran ++ [(s.batchNo, t.sequence)] }
    | _ => none
  | .callbackReturns =>
    match s.phase with
    | .inCallback now expired rest => some (.ok { s with phase := .running now expired rest })
    | _ => none
  | .reset clock garbage =>
    match s.phase with
    | .running now expired [] => some do
      let s ← { s with callingExpiredTimers := false }.reset expired now clock garbage
      return { s with phase := .quiet }
    | _ => none

/-- The 64-bit parameters are in their range. -/
def InRange : Action D → Prop
  | .newTimer _ when _ => when < 2 ^ 64
  | .addTimerInLoop _ now => now < 2 ^ 64
  | .handleRead now _ => now < 2 ^ 64
  | .reset clock garbage => clock < 2 ^ 64 ∧ garbage < 2 ^ 64
  | _ => True

instance : ∀ a : Action D, Decidable (InRange a)
  | .newTimer _ when _ => inferInstanceAs (Decidable (when < 2 ^ 64))
  | .addTimerInLoop _ now => inferInstanceAs (Decidable (now < 2 ^ 64))
  | .handleRead now _ => inferInstanceAs (Decidable (now < 2 ^ 64))
  | .reset clock garbage => inferInstanceAs (Decidable (clock < 2 ^ 64 ∧ garbage < 2 ^ 64))
  | .cancelInLoop _ | .run | .callbackReturns => inferInstanceAs (Decidable True)

/-- The constructor, on an empty heap. -/
def init : State D where
  heap _ := none
  numCreated := 0
  timers := .empty
  activeTimers := .empty
  callingExpiredTimers := false
  cancelingTimers := .empty
  timerfd := none
  phase := .quiet
  unadded := []
  asked _ := 0
  cancelCalls := []
  batchNo := 0
  ran := []

def machine (D : Type) [Seconds D] : Machine (State D) (Action D) Fault where
  init s := s = init
  act s a := if InRange a then act s a else none

end MengSen.TimerQueue

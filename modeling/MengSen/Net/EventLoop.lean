import MengSen.Lib.Machine
import Mathlib.Data.Nat.Notation
import Mathlib.Logic.Function.Basic

/-!
# Net.EventLoop — the loop thread, the functor queue and the wakeup counter

`net/EventLoop.h` and `net/EventLoop.cpp` as a machine: `loop` and `doPendingFunctors` statement by
statement, and `queueInLoop`, `quit`, `wakeup` as the calls that the loop thread and the threads `τ`
make.  The functors are values of `Φ`; what they do is up to the actions taken while one runs.  Their
destructors, at the end of `doPendingFunctors`, call nothing of this class.

The eventfd is its counter: `wakeup` adds one, `handleRead` reads it down to zero.  The poller
reports the wakeup channel only when the counter is positive.  The fields from `pushes` on are
ghosts.
-/

namespace MengSen.EventLoop

open Machine (check guarded guarded_eq check_bind_eq_ok)

/-- Where a thread is in `queueInLoop` or `quit`: it has pushed (its push has the number `ticket`)
or set `quit_`, and still has to call `wakeup`. -/
inductive Caller
  | idle
  | pushed (ticket : ℕ)
  | quitSet
  deriving DecidableEq

/-- The next statement of the loop thread.  User code runs in `outside`, `handling` and `functor`. -/
inductive Pc
  /-- outside `loop` -/
  | outside
  /-- before `quit_ = false` -/
  | entered
  /-- at the test of `while (!quit_)` -/
  | test
  /-- inside `poller_->poll` -/
  | polling
  /-- in the loop over `activeChannels_` -/
  | handling
  /-- in `doPendingFunctors`, before the swap -/
  | beforeSwap
  /-- in `doPendingFunctors`, between two functors -/
  | draining
  /-- inside a functor of `doPendingFunctors` -/
  | functor
  /-- after the `while` loop -/
  | leaving
  deriving DecidableEq

inductive Fault
  | assertion
  deriving DecidableEq

structure State (Φ τ : Type) where
  looping : Bool
  quit : Bool
  eventHandling : Bool
  callingPendingFunctors : Bool
  iteration : ℕ
  pendingFunctors : List Φ
  /-- the counter behind `wakeupFd_` -/
  wakeupFd : ℕ
  /-- the wakeup channel is in `activeChannels_` and its event is not handled yet -/
  wakeupActive : Bool
  /-- the functors of `doPendingFunctors` that are not called yet -/
  functors : List Φ
  pc : Pc
  self : Caller
  callers : τ → Caller
  /-- all functors pushed, in the order of the critical sections -/
  pushes : List Φ
  /-- the functors called by `doPendingFunctors` -/
  executed : List Φ
  /-- the number of pushes at the last swap -/
  swapped : ℕ
  /-- `quit` was called, and no `loop` has returned since -/
  quitRequested : Bool
  /-- the iterations completed since then -/
  itersSince : ℕ

variable {Φ τ : Type}

/-! ## Functions of the class -/

namespace State

variable (s : State Φ τ)

def wakeup : State Φ τ := { s with wakeupFd := s.wakeupFd + 1 }

def handleRead : State Φ τ := { s with wakeupFd := 0, wakeupActive := false }

/-- The critical section of `queueInLoop`. -/
def push (cb : Φ) : State Φ τ :=
  { s with pendingFunctors := s.pendingFunctors ++ [cb], pushes := s.pushes ++ [cb] }

/-- `quit_ = true`. -/
def setQuit : State Φ τ := { s with quit := true, quitRequested := true }

/-- The critical section of `doPendingFunctors`. -/
def swap : State Φ τ :=
  { s with functors := s.pendingFunctors, pendingFunctors := s.functors, swapped := s.pushes.length }

/-- The loop thread may be in a callback or functor of the user, and not in a call of this class. -/
def InUserCode : Prop :=
  (s.pc = .outside ∨ s.pc = .handling ∨ s.pc = .functor) ∧ s.self = .idle

instance : Decidable s.InUserCode := inferInstanceAs (Decidable (_ ∧ _))

end State

/-! ## The machine -/

inductive Action (Φ τ : Type)
  /-- `loop`, up to `looping_ = true` -/
  | callLoop
  /-- `quit_ = false` -/
  | clearQuit
  | whileTest
  | pollReturns (wakeupActive : Bool)
  | handleRead
  /-- the end of the loop over the channels, and `callingPendingFunctors_ = true` -/
  | eventsDone
  | swap
  | startFunctor
  | functorReturns
  /-- `callingPendingFunctors_ = false` -/
  | drainDone
  | loopReturns
  /-- `queueInLoop` in the loop thread, with the test whether to wake up -/
  | selfQueue (cb : Φ)
  | selfWakeup
  | selfQuit
  | queue (t : τ) (cb : Φ)
  | setQuit (t : τ)
  | wakeup (t : τ)

variable [DecidableEq τ]

def act (s : State Φ τ) : Action Φ τ → Option (Except Fault (State Φ τ))
  | .callLoop =>
    if s.pc = .outside ∧ s.self = .idle then some do
      check (s.looping = false) .assertion
      return { s with looping := true, pc := .entered }
    else none
  | .clearQuit => guarded (s.pc = .entered) { s with quit := false, pc := .test }
  | .whileTest => guarded (s.pc = .test) { s with pc := if s.quit then .leaving else .polling }
  | .pollReturns wakeupActive =>
    guarded (s.pc = .polling ∧ (wakeupActive = true → 0 < s.wakeupFd))
      { s with
        wakeupActive := wakeupActive
        iteration := s.iteration + 1
        eventHandling := true
        pc := .handling }
  | .handleRead =>
    guarded (s.pc = .handling ∧ s.self = .idle ∧ s.wakeupActive = true) s.handleRead
  | .eventsDone =>
    guarded (s.pc = .handling ∧ s.self = .idle ∧ s.wakeupActive = false)
      { s with eventHandling := false, callingPendingFunctors := true, pc := .beforeSwap }
  | .swap => guarded (s.pc = .beforeSwap) { s.swap with pc := .draining }
  | .startFunctor =>
    match s.functors with
    | [] => none
    | cb :: rest =>
      guarded (s.pc = .draining)
        { s with functors := rest, executed := s.executed ++ [cb], pc := .functor }
  | .functorReturns => guarded (s.pc = .functor ∧ s.self = .idle) { s with pc := .draining }
  | .drainDone =>
    guarded (s.pc = .draining ∧ s.functors = [])
      { s with
        callingPendingFunctors := false
        itersSince := if s.quitRequested then s.itersSince + 1 else 0
        pc := .test }
  | .loopReturns =>
    guarded (s.pc = .leaving)
      { s with looping := false, quitRequested := false, itersSince := 0, pc := .outside }
  | .selfQueue cb =>
    guarded s.InUserCode
      { s.push cb with
        self := if s.callingPendingFunctors then .pushed s.pushes.length else .idle }
  | .selfWakeup => guarded (s.self ≠ .idle) { s.wakeup with self := .idle }
  | .selfQuit => guarded s.InUserCode s.setQuit
  | .queue t cb =>
    guarded (s.callers t = .idle)
      { s.push cb with callers := Function.update s.callers t (.pushed s.pushes.length) }
  | .setQuit t =>
    guarded (s.callers t = .idle)
      { s.setQuit with callers := Function.update s.callers t .quitSet }
  | .wakeup t =>
    guarded (s.callers t ≠ .idle)
      { s.wakeup with callers := Function.update s.callers t .idle }

/-- The constructor, with all other threads outside the calls. -/
def init : State Φ τ where
  looping := false
  quit := false
  eventHandling := false
  callingPendingFunctors := false
  iteration := 0
  pendingFunctors := []
  wakeupFd := 0
  wakeupActive := false
  functors := []
  pc := .outside
  self := .idle
  callers _ := .idle
  pushes := []
  executed := []
  swapped := 0
  quitRequested := false
  itersSince := 0

def machine (Φ τ : Type) [DecidableEq τ] : Machine (State Φ τ) (Action Φ τ) Fault where
  init s := s = init
  act := act

/-! ## The two actions that are not just guarded -/

variable {s t : State Φ τ}

theorem step_callLoop (hs : (machine Φ τ).Step s .callLoop t) :
    s.pc = .outside ∧ s.self = .idle ∧ { s with looping := true, pc := .entered } = t := by
  obtain ⟨⟨hpc, hidle⟩, hs⟩ := Option.ite_none_right_eq_some.mp hs
  obtain ⟨-, ht⟩ := check_bind_eq_ok.mp (Option.some.inj hs)
  exact ⟨hpc, hidle, Except.ok.inj ht⟩

theorem step_startFunctor (hs : (machine Φ τ).Step s .startFunctor t) :
    ∃ cb rest, s.functors = cb :: rest ∧ s.pc = .draining ∧
      { s with functors := rest, executed := s.executed ++ [cb], pc := .functor } = t := by
  simp only [Machine.Step, machine, act] at hs
  split at hs
  · cases hs
  · next cb rest hf =>
    obtain ⟨hpc, ht⟩ := guarded_eq.mp hs
    exact ⟨cb, rest, hf, hpc, Except.ok.inj ht⟩

end MengSen.EventLoop

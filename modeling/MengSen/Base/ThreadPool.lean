import MengSen.Lib.Machine
import MengSen.Lib.CondVar
import Mathlib.Logic.Function.Basic

/-!
# Base.ThreadPool — workers, callers of `run` and `stop`

`base/ThreadPool.cpp` as a monitor, from the return of `start(n)` on: `n` workers in `runInThread`,
the threads that call `run`, and one thread that calls `stop`.  A step is a locked section, one of
the unlocked reads of `running_`, or a `join`.  A task is user code and may itself call `run`, and
so may `threadInitCallback_`.  A worker that runs while `start` still makes the next ones runs as if
they were there and had not moved.

A `Task` is a `std::function`, which may be empty.  The fields `accepted` and `removed` are ghosts.
-/

namespace MengSen.ThreadPool

open Machine (check guarded guarded_eq check_bind)

/-- A `std::function<void()>`: `none` is the empty one. -/
abbrev Task (Φ : Type) := Option Φ

/-- The threads that may call `run`. -/
inductive Tid (τ : Type)
  | worker (i : ℕ)
  | caller (t : τ)
  deriving DecidableEq

/-- The next statement of a worker.  User code runs in `init` and `task`. -/
inductive WorkerPc (Φ : Type)
  /-- in `threadInitCallback_`, if there is one -/
  | init
  /-- at the test of `while (running_)` -/
  | test
  /-- in `take`, without the mutex -/
  | take
  /-- in `this_take()` -/
  | task (f : Φ)
  | done

def WorkerPc.inUserCode {Φ : Type} : WorkerPc Φ → Bool
  | .init | .task _ => true
  | _ => false

def WorkerPc.isTest {Φ : Type} : WorkerPc Φ → Bool
  | .test => true
  | _ => false

def WorkerPc.inTake {Φ : Type} : WorkerPc Φ → Bool
  | .take => true
  | _ => false

def WorkerPc.isDone {Φ : Type} : WorkerPc Φ → Bool
  | .done => true
  | _ => false

/-- Where the thread is that calls `stop`. -/
inductive StopPc
  | idle
  /-- the next thread to join is `threads_[k]` -/
  | joining (k : ℕ)
  | returned
  deriving DecidableEq

inductive Fault
  | assertion
  deriving DecidableEq

structure State (Φ τ : Type) where
  notEmpty : CondVar ℕ
  notFull : CondVar (Tid τ)
  queue : List (Task Φ)
  running : Bool
  workers : ℕ → WorkerPc Φ
  /-- the calls of `run` that have not returned -/
  calls : Tid τ → Option (Task Φ)
  stopper : StopPc
  /-- the tasks that `run` has queued, in the order of the critical sections -/
  accepted : List (Task Φ)
  /-- the tasks that `take` has removed, with their workers, in that order -/
  removed : List (ℕ × Task Φ)

inductive Action (Φ τ : Type)
  /-- a thread in user code calls `run` -/
  | call (t : Tid τ) (task : Task Φ)
  /-- the thread gets the mutex in `run`; `w` is the worker that its notification wakes -/
  | lockRun (t : Tid τ) (w : Option ℕ)
  /-- the callback or task of the worker returns -/
  | userReturns (i : ℕ)
  /-- `while (running_)` -/
  | testRunning (i : ℕ)
  /-- the worker gets the mutex in `take`; `w` is the caller that its notification wakes -/
  | lockTake (i : ℕ) (w : Option (Tid τ))
  /-- the locked section of `stop` -/
  | stop
  /-- one round of the loop of `stop` -/
  | join
  /-- the threads wake up from a `wait` by themselves -/
  | wakeWorker (i : ℕ)
  | wakeCaller (t : Tid τ)

variable {Φ τ : Type}

/-! ## Functions of the class -/

/-- `threads_.size()` and `maxQueueSize_`. -/
structure Pool where
  threads : ℕ
  maxQueueSize : ℕ

namespace State

variable (s : State Φ τ)

def isFull (P : Pool) : Bool := 0 < P.maxQueueSize && P.maxQueueSize ≤ s.queue.length

def setWorker (i : ℕ) (pc : WorkerPc Φ) : State Φ τ :=
  { s with workers := Function.update s.workers i pc }

/-- The worker after `take`: an empty task is not called. -/
def taken (i : ℕ) (task : Task Φ) : State Φ τ :=
  { s.setWorker i (task.elim .test .task) with removed := s.removed ++ [(i, task)] }

/-- `take` of the worker that holds the mutex. -/
def take [DecidableEq τ] (P : Pool) (i : ℕ) (w : Option (Tid τ)) :
    Option (Except Fault (State Φ τ)) :=
  match s.queue with
  | [] =>
    if s.running then some (.ok { s with notEmpty := s.notEmpty.wait i })
    else some (.ok (s.setWorker i .test))
  | task :: rest =>
    if 0 < P.maxQueueSize then
      (s.notFull.notifyOne w).map fun notFull =>
        .ok { s.taken i task with queue := rest, notFull := notFull }
    else some (.ok { s.taken i task with queue := rest })

/-- `stop`, up to the release of the mutex. -/
def stop : State Φ τ :=
  { s with running := false, notEmpty := s.notEmpty.notifyAll, stopper := .joining 0 }

/-- The thread runs user code, and is not in a call of `run`. -/
def InUserCode (P : Pool) (t : Tid τ) : Prop :=
  (s.calls t).isNone ∧
    match t with
    | .worker i => i < P.threads ∧ (s.workers i).inUserCode
    | .caller _ => True

instance (P : Pool) : (t : Tid τ) → Decidable (s.InUserCode P t)
  | .worker _ => inferInstanceAs (Decidable (_ ∧ _ ∧ _))
  | .caller _ => inferInstanceAs (Decidable (_ ∧ True))

variable [DecidableEq τ]

def setCall (t : Tid τ) (call : Option (Task Φ)) : State Φ τ :=
  { s with calls := Function.update s.calls t call }

/-- `run` of the thread that holds the mutex. -/
def run (P : Pool) (t : Tid τ) (task : Task Φ) (w : Option ℕ) :
    Option (Except Fault (State Φ τ)) :=
  if s.isFull P then
    some (.ok { s with notFull := s.notFull.wait t })
  else
    (s.notEmpty.notifyOne w).map fun notEmpty => do
      check (s.isFull P = false) .assertion
      return { s.setCall t none with
        notEmpty := notEmpty
        queue := s.queue ++ [task]
        accepted := s.accepted ++ [task] }

end State

/-! ## The machine -/

variable [DecidableEq τ]

/-- Without threads, `run` calls the task itself and leaves the pool alone. -/
def act (P : Pool) (s : State Φ τ) : Action Φ τ → Option (Except Fault (State Φ τ))
  | .call t task =>
    guarded (s.InUserCode P t) (if P.threads = 0 then s else s.setCall t (some task))
  | .lockRun t w =>
    if t ∈ s.notFull.waiting then none else
    match s.calls t with
    | none => none
    | some task => { s with notFull := s.notFull.resume t }.run P t task w
  | .userReturns i => guarded (s.InUserCode P (.worker i)) (s.setWorker i .test)
  | .testRunning i =>
    guarded (i < P.threads ∧ (s.workers i).isTest)
      (s.setWorker i (if s.running then .take else .done))
  | .lockTake i w =>
    if i < P.threads ∧ (s.workers i).inTake ∧ i ∉ s.notEmpty.waiting then
      { s with notEmpty := s.notEmpty.resume i }.take P i w
    else none
  | .stop => guarded (s.stopper = .idle) s.stop
  | .join =>
    match s.stopper with
    | .joining k =>
      if k < P.threads then guarded (s.workers k).isDone { s with stopper := .joining (k + 1) }
      else some (.ok { s with stopper := .returned })
    | _ => none
  | .wakeWorker i =>
    guarded (i ∈ s.notEmpty.waiting) { s with notEmpty := s.notEmpty.wake i }
  | .wakeCaller t =>
    guarded (t ∈ s.notFull.waiting) { s with notFull := s.notFull.wake t }

/-- The pool when `start` returns, before any worker has run. -/
def init : State Φ τ where
  notEmpty := .empty
  notFull := .empty
  queue := []
  running := true
  workers _ := .init
  calls _ := none
  stopper := .idle
  accepted := []
  removed := []

/-- The pool with any number of callers, its workers and one `stop`. -/
def machine (Φ τ : Type) [DecidableEq τ] (P : Pool) :
    Machine (State Φ τ) (Action Φ τ) Fault where
  init s := s = init
  act := act P

/-! ## What a locked section does -/

variable {P : Pool} {s u : State Φ τ} {r : Except Fault (State Φ τ)}

/-- `run` waits while the queue is full, else it queues the task. -/
theorem run_cases {t : Tid τ} {task : Task Φ} {w : Option ℕ} (h : s.run P t task w = some r) :
    (s.isFull P = true ∧ r = .ok { s with notFull := s.notFull.wait t }) ∨
      (s.isFull P = false ∧ ∃ d, s.notEmpty.notifyOne w = some d ∧
        r = .ok { s.setCall t none with
          notEmpty := d
          queue := s.queue ++ [task]
          accepted := s.accepted ++ [task] }) := by
  unfold State.run at h
  by_cases hf : s.isFull P = true
  · rw [if_pos hf] at h
    exact .inl ⟨hf, (Option.some.inj h).symm⟩
  · rw [if_neg hf] at h
    rw [Bool.not_eq_true] at hf
    obtain ⟨d, hd, rfl⟩ := Option.map_eq_some_iff.mp h
    exact .inr ⟨hf, d, hd, check_bind _ hf _⟩

/-- `take` waits, finds the pool stopped, or removes the front; it notifies a caller of `run` only
when the queue is bounded. -/
theorem take_cases {i : ℕ} {w : Option (Tid τ)} (h : s.take P i w = some r) :
    (s.queue = [] ∧ s.running = true ∧ r = .ok { s with notEmpty := s.notEmpty.wait i }) ∨
      (s.queue = [] ∧ s.running = false ∧ r = .ok (s.setWorker i .test)) ∨
      ∃ task rest d, s.queue = task :: rest ∧
        r = .ok { s.taken i task with queue := rest, notFull := d } ∧
        (0 < P.maxQueueSize ∧ s.notFull.notifyOne w = some d ∨
          P.maxQueueSize = 0 ∧ d = s.notFull) := by
  unfold State.take at h
  split at h
  · next hq =>
    by_cases hr : s.running = true
    · rw [if_pos hr] at h
      exact .inl ⟨hq, hr, (Option.some.inj h).symm⟩
    · rw [if_neg hr] at h
      exact .inr (.inl ⟨hq, by simpa using hr, (Option.some.inj h).symm⟩)
  · next task rest hq =>
    refine .inr (.inr ?_)
    by_cases hm : 0 < P.maxQueueSize
    · rw [if_pos hm] at h
      obtain ⟨d, hd, rfl⟩ := Option.map_eq_some_iff.mp h
      exact ⟨task, rest, d, hq, rfl, .inl ⟨hm, hd⟩⟩
    · rw [if_neg hm] at h
      exact ⟨task, rest, s.notFull, hq, (Option.some.inj h).symm, .inr ⟨by omega, rfl⟩⟩

/-! ## What a step does -/

inductive Effect (P : Pool) (s : State Φ τ) : Action Φ τ → State Φ τ → Prop
  /-- without workers, the task runs in the call -/
  | callHere {t : Tid τ} {task : Task Φ} (hu : s.InUserCode P t) : Effect P s (.call t task) s
  | call {t : Tid τ} {task : Task Φ} (hu : s.InUserCode P t) :
    Effect P s (.call t task) (s.setCall t (some task))
  | lockRun {t : Tid τ} {task : Task Φ} {w : Option ℕ} {u : State Φ τ} (hb : t ∉ s.notFull.waiting)
      (hc : s.calls t = some task)
      (hrun : { s with notFull := s.notFull.resume t }.run P t task w = some (.ok u)) :
    Effect P s (.lockRun t w) u
  | userReturns {i : ℕ} (hi : i < P.threads) (huser : (s.workers i).inUserCode) :
    Effect P s (.userReturns i) (s.setWorker i .test)
  | testRunning {i : ℕ} (hi : i < P.threads) (htest : (s.workers i).isTest) :
    Effect P s (.testRunning i) (s.setWorker i (if s.running then .take else .done))
  | lockTake {i : ℕ} {w : Option (Tid τ)} {u : State Φ τ} (hi : i < P.threads)
      (hin : (s.workers i).inTake) (hb : i ∉ s.notEmpty.waiting)
      (htake : { s with notEmpty := s.notEmpty.resume i }.take P i w = some (.ok u)) :
    Effect P s (.lockTake i w) u
  | stop (hidle : s.stopper = .idle) : Effect P s .stop s.stop
  | join {k : ℕ} (hk : s.stopper = .joining k) (hlt : k < P.threads) (hdone : (s.workers k).isDone) :
    Effect P s .join { s with stopper := .joining (k + 1) }
  | joined {k : ℕ} (hk : s.stopper = .joining k) (hge : P.threads ≤ k) :
    Effect P s .join { s with stopper := .returned }
  | wakeWorker {i : ℕ} (hw : i ∈ s.notEmpty.waiting) :
    Effect P s (.wakeWorker i) { s with notEmpty := s.notEmpty.wake i }
  | wakeCaller {t : Tid τ} (hw : t ∈ s.notFull.waiting) :
    Effect P s (.wakeCaller t) { s with notFull := s.notFull.wake t }

/-- **Each step** has the effect of its statement, and its guards hold. -/
theorem effect {a : Action Φ τ} (hs : (machine Φ τ P).Step s a u) : Effect P s a u := by
  simp only [Machine.Step, machine] at hs
  cases a with
  | call t task =>
    obtain ⟨hu, heq⟩ := guarded_eq.mp hs
    obtain rfl := Except.ok.inj heq
    split
    · exact .callHere hu
    · exact .call hu
  | lockRun t w =>
    simp only [act] at hs
    split at hs
    · cases hs
    · next hb =>
      split at hs
      · cases hs
      · next task hc => exact .lockRun hb hc hs
  | userReturns i =>
    obtain ⟨⟨-, hi, huser⟩, heq⟩ := guarded_eq.mp hs
    obtain rfl := Except.ok.inj heq
    exact .userReturns hi huser
  | testRunning i =>
    obtain ⟨⟨hi, htest⟩, heq⟩ := guarded_eq.mp hs
    obtain rfl := Except.ok.inj heq
    exact .testRunning hi htest
  | lockTake i w =>
    simp only [act] at hs
    split at hs
    · next hg => exact .lockTake hg.1 hg.2.1 hg.2.2 hs
    · cases hs
  | stop =>
    obtain ⟨hidle, heq⟩ := guarded_eq.mp hs
    obtain rfl := Except.ok.inj heq
    exact .stop hidle
  | join =>
    simp only [act] at hs
    split at hs
    · next k hk =>
      split at hs
      · next hlt =>
        obtain ⟨hdone, heq⟩ := guarded_eq.mp hs
        obtain rfl := Except.ok.inj heq
        exact .join hk hlt hdone
      · next hge =>
        obtain rfl := Except.ok.inj (Option.some.inj hs)
        exact .joined hk (Nat.le_of_not_lt hge)
    · cases hs
  | wakeWorker i =>
    obtain ⟨hw, heq⟩ := guarded_eq.mp hs
    obtain rfl := Except.ok.inj heq
    exact .wakeWorker hw
  | wakeCaller t =>
    obtain ⟨hw, heq⟩ := guarded_eq.mp hs
    obtain rfl := Except.ok.inj heq
    exact .wakeCaller hw

end MengSen.ThreadPool

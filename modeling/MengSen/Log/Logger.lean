import MengSen.Lib.Machine
import MengSen.Log.BufferBase

/-!
# Log.Logger — the logger and its pop thread

`Logger` of `example/log/Log.cpp` once its constructor has returned: producers in `add`, the thread in
`pop`, and the owner in `~Logger` and in the destructors of the members, which run in the order
`_thread`, `_file_writer`, `_buffer_base`, `_state`.  `~Thread` detaches the thread, which goes on.  An
access to a member that was destroyed is a fault.

`Flushes` is what the steps of a run must meet for the logger to be flushed when it is destroyed.
`written` and `due` are ghosts.
-/

namespace MengSen.Log

/-- `BufferBase`: one machine for the statements of `push` and those of `try_pop`. -/
structure BufferBase (τ α : Type) where
  State : Type
  Action : Type
  Fault : Type
  machine : Machine State Action Fault
  /-- what a run must meet -/
  Ok : State → Action → Prop
  /-- the statement is one of `try_pop` -/
  isPop : Action → Bool
  /-- the result of `try_pop`, where the statement is its last one -/
  result : State → Action → Option Bool
  /-- the lines of the calls of `try_pop` that have returned `true` -/
  out : State → List (Option (LogLine τ α))
  /-- the `push` of the line has returned -/
  Returned : State → LogLine τ α → Prop
  /-- the line can still be popped -/
  Stored : State → LogLine τ α → Prop
  /-- another line was written over it -/
  Overwritten : State → LogLine τ α → Prop

namespace Logger

open Machine (check guarded)

/-- `State`. -/
inductive Status
  | init
  | ready
  | shutdown
  deriving DecidableEq

/-- `mengsen::Thread`, `joinable` being that of its `std::thread`. -/
structure Thread where
  started : Bool
  joined : Bool
  joinable : Bool

/-- `~Thread`. -/
def Thread.destroy (t : Thread) : Thread :=
  if t.started && !t.joined then { t with joinable := false } else t

inductive Member
  | state
  | bufferBase
  | fileWriter
  deriving DecidableEq

/-- How far the owner is. -/
inductive Owner
  | alive
  /-- `~Logger` has stored `SHUTDOWN` -/
  | shutdown
  /-- `_thread` is destroyed -/
  | noThread
  /-- `_file_writer` too -/
  | noFileWriter
  /-- `_buffer_base` and `_state` too -/
  | finished
  deriving DecidableEq

def Owner.holds : Owner → Member → Bool
  | .finished, _ | .noFileWriter, .fileWriter => false
  | _, _ => true

/-- The next statement of `pop`. -/
inductive Pop
  /-- the load that waits while `_state` is `INIT` -/
  | waiting
  /-- the load that goes on while it is `READY` -/
  | testing
  /-- in `try_pop`, in the last loop if `draining` -/
  | popping (draining : Bool)
  | writing (draining : Bool)
  | done
  deriving DecidableEq

/-- After a statement of `try_pop`. -/
def Pop.next (draining : Bool) : Option Bool → Pop
  | none => .popping draining
  | some true => .writing draining
  | some false => if draining then .done else .testing

variable {τ α : Type}

structure State (B : BufferBase τ α) where
  state : Status
  buffer : B.State
  thread : Thread
  pop : Pop
  owner : Owner
  /-- what `_file_writer` has written -/
  written : List (Option (LogLine τ α))
  /-- the lines whose `add` had returned when `~Logger` began -/
  due : LogLine τ α → Prop

inductive Action (B : BufferBase τ α)
  /-- a statement of a producer -/
  | add (a : B.Action)
  /-- the statements of the pop thread -/
  | load
  | tryPop (a : B.Action)
  | write
  /-- `~Logger` -/
  | shutdown
  | destroyThread
  | destroyFileWriter
  | destroyBufferBase

inductive Fault (B : BufferBase τ α)
  /-- access to a member that was destroyed -/
  | dead (m : Member)
  /-- `~thread` of a joinable thread -/
  | terminate
  | buffer (e : B.Fault)

variable {B : BufferBase τ α}

/-- What `logline` holds. -/
def State.logline (s : State B) : Option (LogLine τ α) := (B.out s.buffer).getLastD none

def act (s : State B) : Action B → Option (Except (Fault B) (State B))
  | .add a =>
    if B.isPop a then none
    else (B.machine.act s.buffer a).map fun r => do
      check (s.owner.holds .bufferBase = true) (.dead .bufferBase)
      let t ← r.mapError .buffer
      return { s with buffer := t }
  | .load =>
    match s.pop with
    | .waiting => some do
      check (s.owner.holds .state = true) (.dead .state)
      return { s with pop := if s.state = .init then .waiting else .testing }
    | .testing => some do
      check (s.owner.holds .state = true) (.dead .state)
      return { s with pop := .popping (s.state ≠ .ready) }
    | _ => none
  | .tryPop a =>
    match s.pop with
    | .popping draining =>
      if B.isPop a then (B.machine.act s.buffer a).map fun r => do
        check (s.owner.holds .bufferBase = true) (.dead .bufferBase)
        let t ← r.mapError .buffer
        return { s with buffer := t, pop := .next draining (B.result s.buffer a) }
      else none
    | _ => none
  | .write =>
    match s.pop with
    | .writing draining => some do
      check (s.owner.holds .fileWriter = true) (.dead .fileWriter)
      return { s with
        written := s.written ++ [s.logline]
        pop := if draining then .popping true else .testing }
    | _ => none
  | .shutdown => guarded (s.owner = .alive)
      { s with state := .shutdown, owner := .shutdown, due := B.Returned s.buffer }
  | .destroyThread =>
    match s.owner with
    | .shutdown => some do
      check (s.thread.destroy.joinable = false) .terminate
      return { s with owner := .noThread, thread := s.thread.destroy }
    | _ => none
  | .destroyFileWriter => guarded (s.owner = .noThread) { s with owner := .noFileWriter }
  | .destroyBufferBase => guarded (s.owner = .noFileWriter) { s with owner := .finished }

/-- The constructor has stored `READY` and started the thread. -/
def init (b : B.State) : State B where
  state := .ready
  buffer := b
  thread := ⟨true, false, true⟩
  pop := .waiting
  owner := .alive
  written := []
  due _ := False

/-- The logger with any number of producers. -/
def machine (B : BufferBase τ α) : Machine (State B) (Action B) (Fault B) where
  init s := ∃ b, B.machine.init b ∧ s = init b
  act := act

/-- `try_pop` returns a line only as long as `_file_writer` can write it, and ends the last loop only
when no line is left whose `add` had returned; `_file_writer` is not destroyed during its `write`, and
`_buffer_base` not before `pop` has returned.  The code keeps no thread from the other steps: this asks
of the schedule that the owner is slow enough, and that no producer is inside `push` at the slot where
the last loop ends while the lines behind it are complete. -/
def Flushes (s : State B) : Action B → Prop
  | .add a => B.Ok s.buffer a
  | .tryPop a => B.Ok s.buffer a ∧
    (B.result s.buffer a = some true → s.owner.holds .fileWriter = true) ∧
    (B.result s.buffer a = some false → s.pop = .popping true → ∀ l, s.due l → ¬ B.Stored s.buffer l)
  | .destroyFileWriter => ∀ draining, s.pop ≠ .writing draining
  | .destroyBufferBase => s.pop = .done
  | _ => True

def Action.isPop : Action B → Bool
  | .load | .tryPop _ | .write => true
  | _ => false

/-- Once the logger is destroyed, the lines whose `add` had returned are written; and the pop thread
does not access a member that was destroyed. -/
structure Flushed (s : State B) : Prop where
  written : s.owner = .finished → ∀ l, s.due l → some l ∈ s.written ∨ B.Overwritten s.buffer l
  alive : ∀ a : Action B, a.isPop = true → ∀ m, act s a ≠ some (.error (.dead m))

end Logger

end MengSen.Log

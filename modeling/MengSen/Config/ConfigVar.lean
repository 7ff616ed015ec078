import MengSen.Lib.Machine
import MengSen.Lib.Collect

/-!
# Config.ConfigVar — a configuration value and its listeners

`ConfigVar` of `config/config.cpp`, with the threads `τ` in `setValue`.  A `setValue` is two sections
of `_mutex`: a shared one that compares and calls the listeners, one after the other, and an
exclusive one that assigns.  Shared sections of several threads overlap; an exclusive section, or one
of the functions that change `_func`, runs while nobody holds the mutex.

The fields `notices` and `assignments` are ghosts, and so is the old value that `Call` remembers.
-/

/-- The keys of `_func`, which come from the counter `func_id`. -/
structure Listeners where
  keys : List ℕ
  funcId : ℕ
  nodup : keys.Nodup
  le_funcId : ∀ k ∈ keys, k ≤ funcId

namespace Listeners

def add (l : Listeners) : Listeners where
  keys := l.keys ++ [l.funcId + 1]
  funcId := l.funcId + 1
  nodup := by
    refine List.nodup_append'.mpr ⟨l.nodup, List.nodup_singleton _, fun k hk hnew => ?_⟩
    have hle := l.le_funcId k hk
    rw [List.mem_singleton.mp hnew] at hle
    omega
  le_funcId k hk := by
    rcases List.mem_append.mp hk with hk | hk
    · exact Nat.le_succ_of_le (l.le_funcId k hk)
    · exact Nat.le_of_eq (List.mem_singleton.mp hk)

def delete (l : Listeners) (k : ℕ) : Listeners where
  keys := l.keys.erase k
  funcId := l.funcId
  nodup := l.nodup.erase k
  le_funcId j hj := l.le_funcId j (List.mem_of_mem_erase hj)

def clear (l : Listeners) : Listeners := ⟨[], l.funcId, List.nodup_nil, nofun⟩

end Listeners

namespace MengSen.ConfigVar

open Machine (guarded)

/-- The next statement of a thread in `setValue`. -/
inductive Call (T : Type)
  | idle
  /-- before the shared section -/
  | entered (val : T)
  /-- in the loop over `_func`, with `_value == old` -/
  | notifying (old val : T) (rest : List ℕ)
  /-- between the sections -/
  | assigning (old val : T)

inductive Fault
  deriving DecidableEq

structure State (τ T : Type) where
  value : T
  func : Listeners
  /-- the threads that hold `_mutex` shared -/
  mutex : List τ
  calls : τ → Call T
  /-- the calls of listeners: the key, the old and the new value -/
  notices : List (ℕ × T × T)
  /-- the values before and after each assignment -/
  assignments : List (T × T)

inductive Action (τ T : Type)
  /-- the thread calls `setValue` -/
  | call (t : τ) (val : T)
  /-- it enters the shared section and compares -/
  | compare (t : τ)
  /-- it calls the next listener -/
  | notify (t : τ)
  /-- it leaves the shared section -/
  | release (t : τ)
  /-- the exclusive section of `setValue` -/
  | assign (t : τ)
  | addListener
  | deleteListener (k : ℕ)
  | clearListener

variable {τ T : Type} [DecidableEq τ] [DecidableEq T]

namespace State

variable (s : State τ T)

omit [DecidableEq τ] [DecidableEq T] in
/-- `getValue`, a shared section of its own. -/
def getValue : T := s.value

def setCall (t : τ) (c : Call T) : State τ T := { s with calls := Function.update s.calls t c }

end State

def act (s : State τ T) : Action τ T → Option (Except Fault (State τ T))
  | .call t val =>
    match s.calls t with
    | .idle => some (.ok (s.setCall t (.entered val)))
    | _ => none
  | .compare t =>
    match s.calls t with
    | .entered val =>
      if val = s.value then some (.ok (s.setCall t .idle))
      else some (.ok { s.setCall t (.notifying s.value val s.func.keys) with mutex := t :: s.mutex })
    | _ => none
  | .notify t =>
    match s.calls t with
    | .notifying old val (k :: rest) =>
      some (.ok { s.setCall t (.notifying old val rest) with
        notices := s.notices ++ [(k, s.value, val)] })
    | _ => none
  | .release t =>
    match s.calls t with
    | .notifying old val [] =>
      some (.ok { s.setCall t (.assigning old val) with mutex := s.mutex.erase t })
    | _ => none
  | .assign t =>
    match s.calls t with
    | .assigning _ val =>
      guarded (s.mutex = [])
        { s.setCall t .idle with
          value := val, assignments := s.assignments ++ [(s.value, val)] }
    | _ => none
  | .addListener => guarded (s.mutex = []) { s with func := s.func.add }
  | .deleteListener k => guarded (s.mutex = []) { s with func := s.func.delete k }
  | .clearListener => guarded (s.mutex = []) { s with func := s.func.clear }

/-- A variable with the value `v` and the listeners `l`, and no call under way. -/
def init (v : T) (l : Listeners) : State τ T where
  value := v
  func := l
  mutex := []
  calls _ := .idle
  notices := []
  assignments := []

/-- The variable with any number of threads. -/
def machine (τ T : Type) [DecidableEq τ] [DecidableEq T] (v : T) (l : Listeners) :
    Machine (State τ T) (Action τ T) Fault where
  init s := s = init v l
  act := act

end MengSen.ConfigVar

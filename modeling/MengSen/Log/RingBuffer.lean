import MengSen.Lib.Machine
import MengSen.Lib.Word
import MengSen.Log.BufferBase

/-!
# Log.RingBuffer — the buffer of the non-guaranteed logger

`RingBuffer` of `example/log/Log.cpp` with producers `τ` in `push` and one consumer in `try_pop`.  A
`push` is the `fetch_add` on the 64-bit `_write_index` and the section that holds the lock of its
item; a `try_pop` is one such section.  `% 0` is undefined.

`history` and `popped` are ghosts.
-/

namespace MengSen.Log

/-- `_ring` has this many items when `Logger` is built for `mb` megabytes: `uint32_t` arithmetic. -/
def ringSize (mb : ℕ) : ℕ := Word.wrap 32 (max 1 mb * 1024 * 4)

namespace RingBuffer

open Machine (check check_bind_eq_ok)

structure Item (τ α : Type) where
  written : Bool
  /-- `none` is the line of `Item()`, or one that was moved from -/
  logline : Option (LogLine τ α)

/-- The next statement of a producer. -/
inductive Call (τ α : Type)
  | idle
  /-- before `_write_index.fetch_add` -/
  | entered (l : LogLine τ α)
  /-- before the section that holds the lock of the item -/
  | writing (writeIndex : ℕ) (l : LogLine τ α)

inductive Fault
  | divisionByZero
  deriving DecidableEq

structure State (τ α : Type) where
  ring : ℕ → Item τ α
  writeIndex : ℕ
  readIndex : ℕ
  calls : τ → Call τ α
  history : History τ α
  /-- what `try_pop` has moved out -/
  popped : List (Option (LogLine τ α))

inductive Action (τ α : Type)
  /-- the producer calls `push` -/
  | call (p : τ) (x : α)
  | fetchAdd (p : τ)
  | write (p : τ)
  | tryPop

variable {τ α : Type}

namespace State

variable (s : State τ α)

/-- `push`, the locked section. -/
def write (i : ℕ) (l : LogLine τ α) : State τ α :=
  { s with ring := Function.update s.ring i ⟨true, some l⟩ }

/-- The item `try_pop` looks at. -/
def readItem (size : ℕ) : Item τ α := s.ring (s.readIndex % size)

def tryPop (size : ℕ) : State τ α :=
  if (s.readItem size).written then
    { s with
      ring := Function.update s.ring (s.readIndex % size) ⟨false, none⟩
      readIndex := Word.add 32 s.readIndex 1
      popped := s.popped ++ [(s.readItem size).logline] }
  else s

variable [DecidableEq τ]

def setCall (p : τ) (c : Call τ α) : State τ α := { s with calls := Function.update s.calls p c }

end State

variable [DecidableEq τ]

def act (size : ℕ) (s : State τ α) : Action τ α → Option (Except Fault (State τ α))
  | .call p x =>
    match s.calls p with
    | .idle =>
      some (.ok { s.setCall p (.entered (s.history.line p x)) with history := s.history.call p x })
    | _ => none
  | .fetchAdd p =>
    match s.calls p with
    | .entered l => some do
      check (size ≠ 0) .divisionByZero
      return { s.setCall p (.writing (s.writeIndex % size) l) with
        writeIndex := Word.add 64 s.writeIndex 1, history := s.history.claim l }
    | _ => none
  | .write p =>
    match s.calls p with
    | .writing i l => some (.ok ((s.write i l).setCall p .idle))
    | _ => none
  | .tryPop => some do
    check (size ≠ 0) .divisionByZero
    return s.tryPop size

/-- `RingBuffer(size)`. -/
def init : State τ α where
  ring _ := ⟨false, none⟩
  writeIndex := 0
  readIndex := 0
  calls _ := .idle
  history := .empty
  popped := []

/-- The buffer with any number of producers. -/
def machine (τ α : Type) [DecidableEq τ] (size : ℕ) : Machine (State τ α) (Action τ α) Fault where
  init s := s = init
  act := act size

/-- The lines that were pushed, with their write indexes taken, and not popped stay within `size`. -/
def Fits (size : ℕ) (s : State τ α) : Action τ α → Prop
  | .fetchAdd _ => s.history.claimed.length < s.popped.length + size
  | _ => True

/-! ## What a step does -/

inductive Effect (size : ℕ) (s : State τ α) : Action τ α → State τ α → Prop
  | call {p : τ} {x : α} (hp : s.calls p = .idle) :
    Effect size s (.call p x)
      { s.setCall p (.entered (s.history.line p x)) with history := s.history.call p x }
  | fetchAdd {p : τ} {l : LogLine τ α} (hp : s.calls p = .entered l) :
    Effect size s (.fetchAdd p)
      { s.setCall p (.writing (s.writeIndex % size) l) with
        writeIndex := Word.add 64 s.writeIndex 1
        history := s.history.claim l }
  | write {p : τ} {i : ℕ} {l : LogLine τ α} (hp : s.calls p = .writing i l) :
    Effect size s (.write p) ((s.write i l).setCall p .idle)
  | pop (hw : (s.readItem size).written = true) :
    Effect size s .tryPop
      { s with
        ring := Function.update s.ring (s.readIndex % size) ⟨false, none⟩
        readIndex := Word.add 32 s.readIndex 1
        popped := s.popped ++ [(s.readItem size).logline] }
  | miss (hw : (s.readItem size).written = false) : Effect size s .tryPop s

/-- **Each step** has the effect of its statement, and its guards hold. -/
theorem effect {size : ℕ} {s u : State τ α} {a : Action τ α} (hs : (machine τ α size).Step s a u) :
    Effect size s a u := by
  simp only [Machine.Step, machine] at hs
  cases a with
  | call p x =>
    simp only [act] at hs
    split at hs
    · next hp =>
      obtain rfl := Except.ok.inj (Option.some.inj hs)
      exact .call hp
    · cases hs
  | fetchAdd p =>
    simp only [act] at hs
    split at hs
    · next l hp =>
      obtain ⟨-, heq⟩ := check_bind_eq_ok.mp (Option.some.inj hs)
      obtain rfl := Except.ok.inj heq
      exact .fetchAdd hp
    · cases hs
  | write p =>
    simp only [act] at hs
    split at hs
    · next i l hp =>
      obtain rfl := Except.ok.inj (Option.some.inj hs)
      exact .write hp
    · cases hs
  | tryPop =>
    obtain ⟨-, heq⟩ := check_bind_eq_ok.mp (Option.some.inj hs)
    obtain rfl := Except.ok.inj heq
    by_cases hw : (s.readItem size).written = true
    · rw [State.tryPop, if_pos hw]
      exact .pop hw
    · rw [State.tryPop, if_neg hw]
      exact .miss (Bool.eq_false_iff.mpr hw)

end RingBuffer

end MengSen.Log

import MengSen.Lib.Machine
import MengSen.Lib.Word
import MengSen.Log.BufferBase

/-!
# Log.QueueBuffer — the buffers of the guaranteed logger

`Buffer` and `QueueBuffer` of `example/log/Log.cpp` with producers `τ` in `push` and one consumer in
`try_pop`, one atomic operation or locked section after the other.  A `Buffer` object is known by the
number of its allocation.  What is undefined is a fault: an access to a buffer that was destroyed or
never allocated, a null pointer, an item that was not constructed, `pop` on an empty queue.

`_current_read_buffer` is not initialised by the constructor: `garbage` is what it happens to hold, and
the ghosts `readAssigned` and `readUnset` tell whether it was assigned, and whether it was read before.
`history`, `popped` and `popCalls` are ghosts too.
-/

namespace MengSen.Log

/-! ## Buffer -/

structure Buffer (τ α : Type) where
  /-- `_buffer`: `none` is raw memory, or an item that was moved from -/
  items : ℕ → Option (LogLine τ α)
  /-- `_write_state[i]` -/
  written : ℕ → Bool
  /-- `_write_state[size]` -/
  count : ℕ

namespace Buffer

def size : ℕ := 32768

variable {τ α : Type}

/-- `Buffer()`. -/
def fresh : Buffer τ α := ⟨fun _ => none, fun _ => false, 0⟩

/-! The three statements of `push`. -/

def place (b : Buffer τ α) (i : ℕ) (l : LogLine τ α) : Buffer τ α :=
  { b with items := Function.update b.items i (some l) }

def store (b : Buffer τ α) (i : ℕ) : Buffer τ α :=
  { b with written := Function.update b.written i true }

def fetchAdd (b : Buffer τ α) : Buffer τ α := { b with count := Word.add 32 b.count 1 }

/-- `std::move(item._logline)`. -/
def moveOut (b : Buffer τ α) (i : ℕ) : Buffer τ α :=
  { b with items := Function.update b.items i none }

end Buffer

namespace QueueBuffer

open Machine (check guarded check_bind_eq_ok guarded_eq)

/-! ## QueueBuffer -/

/-- The next statement of a producer. -/
inductive Call (τ α : Type)
  | idle
  /-- before `_write_index.fetch_add` -/
  | entered (l : LogLine τ α)
  /-- in the loop that waits for another thread to switch -/
  | spinning (l : LogLine τ α)
  /-- before the load of `_current_write_buffer` -/
  | indexed (i : ℕ) (l : LogLine τ α)
  /-- before the placement `new` -/
  | placing (b i : ℕ) (l : LogLine τ α)
  /-- before `_write_state[i].store(1)` -/
  | storing (b i : ℕ) (l : LogLine τ α)
  /-- before `_write_state[size].fetch_add(1)` -/
  | counting (b i : ℕ) (l : LogLine τ α)
  /-- in `setup_next_write_buffer` -/
  | switching (l : LogLine τ α)
  /-- in it, before the locked section -/
  | publishing (b : ℕ) (l : LogLine τ α)

/-- The next statement of the consumer. -/
inductive Reader
  | idle
  /-- before the locked section of `get_next_read_buffer` -/
  | fetching
  /-- before `_write_state[_read_index].load()` -/
  | looking (b : ℕ)
  /-- before the move from the item -/
  | moving (b : ℕ)
  /-- before the locked section that pops the buffer -/
  | retiring
  deriving DecidableEq

inductive Fault
  | deadBuffer
  | nullPointer
  | rawItem
  | emptyQueue
  deriving DecidableEq

structure State (τ α : Type) where
  heap : ℕ → Buffer τ α
  live : ℕ → Bool
  allocated : ℕ
  buffers : List ℕ
  currentWrite : Option ℕ
  currentRead : Option ℕ
  writeIndex : ℕ
  readIndex : ℕ
  calls : τ → Call τ α
  reader : Reader
  readAssigned : Bool
  readUnset : Bool
  history : History τ α
  popped : List (LogLine τ α)
  /-- the calls of `try_pop` -/
  popCalls : ℕ

inductive Action (τ α : Type)
  /-- the producer calls `push` -/
  | call (p : τ) (x : α)
  | fetchAddIndex (p : τ)
  /-- it sees that another thread has switched, and calls `push` again -/
  | retry (p : τ)
  | loadBuffer (p : τ)
  | place (p : τ)
  | store (p : τ)
  | fetchAddCount (p : τ)
  /-- `new Buffer` and the store to `_current_write_buffer` -/
  | switch (p : τ)
  | publish (p : τ)
  /-- the consumer calls `try_pop`, which tests `_current_read_buffer` -/
  | tryPop
  | fetch
  | look
  | move
  | retire

variable {τ α : Type}

namespace State

variable (s : State τ α)

def setBuffer (b : ℕ) (B : Buffer τ α) : State τ α := { s with heap := Function.update s.heap b B }

/-- `setup_next_write_buffer` up to the lock. -/
def switch : State τ α :=
  { s with
    heap := Function.update s.heap s.allocated .fresh
    live := Function.update s.live s.allocated true
    allocated := s.allocated + 1
    currentWrite := some s.allocated }

/-- `setup_next_write_buffer`, the locked section. -/
def publish (b : ℕ) : State τ α := { s with buffers := s.buffers ++ [b], writeIndex := 0 }

/-- `Buffer::try_pop` of a written item, and `++_read_index`. -/
def move (b : ℕ) (l : LogLine τ α) : State τ α :=
  let t := { s.setBuffer b ((s.heap b).moveOut s.readIndex) with popped := s.popped ++ [l] }
  if Word.add 32 s.readIndex 1 = Buffer.size then
    { t with readIndex := 0, currentRead := none, reader := .retiring }
  else { t with readIndex := Word.add 32 s.readIndex 1, reader := .idle }

section Move

variable (b : ℕ) (l : LogLine τ α)

@[simp] theorem move_calls : (s.move b l).calls = s.calls := by
  unfold move
  split <;> rfl

@[simp] theorem move_history : (s.move b l).history = s.history := by
  unfold move
  split <;> rfl

@[simp] theorem move_writeIndex : (s.move b l).writeIndex = s.writeIndex := by
  unfold move
  split <;> rfl

@[simp] theorem move_allocated : (s.move b l).allocated = s.allocated := by
  unfold move
  split <;> rfl

@[simp] theorem move_currentWrite : (s.move b l).currentWrite = s.currentWrite := by
  unfold move
  split <;> rfl

@[simp] theorem move_buffers : (s.move b l).buffers = s.buffers := by
  unfold move
  split <;> rfl

@[simp] theorem move_live : (s.move b l).live = s.live := by
  unfold move
  split <;> rfl

@[simp] theorem move_readUnset : (s.move b l).readUnset = s.readUnset := by
  unfold move
  split <;> rfl

@[simp] theorem move_readAssigned : (s.move b l).readAssigned = s.readAssigned := by
  unfold move
  split <;> rfl

@[simp] theorem move_popCalls : (s.move b l).popCalls = s.popCalls := by
  unfold move
  split <;> rfl

@[simp] theorem move_popped : (s.move b l).popped = s.popped ++ [l] := by
  unfold move
  split <;> rfl

@[simp] theorem move_heap :
    (s.move b l).heap = Function.update s.heap b ((s.heap b).moveOut s.readIndex) := by
  unfold move
  split <;> rfl

/-! What depends on whether the slot was the last one. -/

theorem move_reader :
    (s.move b l).reader = if Word.add 32 s.readIndex 1 = Buffer.size then .retiring else .idle := by
  unfold move
  split <;> rfl

theorem move_readIndex : (s.move b l).readIndex =
    if Word.add 32 s.readIndex 1 = Buffer.size then 0 else Word.add 32 s.readIndex 1 := by
  unfold move
  split <;> rfl

theorem move_currentRead : (s.move b l).currentRead =
    if Word.add 32 s.readIndex 1 = Buffer.size then none else s.currentRead := by
  unfold move
  split <;> rfl

end Move

/-- `_buffers.pop()` of the buffer `b`. -/
def retire (b : ℕ) (rest : List ℕ) : State τ α :=
  { s with buffers := rest, live := Function.update s.live b false, reader := .idle }

variable [DecidableEq τ]

def setCall (p : τ) (c : Call τ α) : State τ α := { s with calls := Function.update s.calls p c }

end State

variable [DecidableEq τ]

def act (s : State τ α) : Action τ α → Option (Except Fault (State τ α))
  | .call p x =>
    match s.calls p with
    | .idle =>
      some (.ok { s.setCall p (.entered (s.history.line p x)) with history := s.history.call p x })
    | _ => none
  | .fetchAddIndex p =>
    match s.calls p with
    | .entered l =>
      if s.writeIndex < Buffer.size then
        some (.ok { s.setCall p (.indexed s.writeIndex l) with
          writeIndex := Word.add 32 s.writeIndex 1, history := s.history.claim l })
      else
        some (.ok { s.setCall p (.spinning l) with writeIndex := Word.add 32 s.writeIndex 1 })
    | _ => none
  | .retry p =>
    match s.calls p with
    | .spinning l => guarded (s.writeIndex < Buffer.size) (s.setCall p (.entered l))
    | _ => none
  | .loadBuffer p =>
    match s.calls p, s.currentWrite with
    | .indexed i l, some b => some (.ok (s.setCall p (.placing b i l)))
    | .indexed _ _, none => some (.error .nullPointer)
    | _, _ => none
  | .place p =>
    match s.calls p with
    | .placing b i l => some do
      check (s.live b = true) .deadBuffer
      return (s.setBuffer b ((s.heap b).place i l)).setCall p (.storing b i l)
    | _ => none
  | .store p =>
    match s.calls p with
    | .storing b i l => some do
      check (s.live b = true) .deadBuffer
      return (s.setBuffer b ((s.heap b).store i)).setCall p (.counting b i l)
    | _ => none
  | .fetchAddCount p =>
    match s.calls p with
    | .counting b _ l => some do
      check (s.live b = true) .deadBuffer
      return (s.setBuffer b (s.heap b).fetchAdd).setCall p
        (if (s.heap b).fetchAdd.count = Buffer.size then .switching l else .idle)
    | _ => none
  | .switch p =>
    match s.calls p with
    | .switching l => some (.ok (s.switch.setCall p (.publishing s.allocated l)))
    | _ => none
  | .publish p =>
    match s.calls p with
    | .publishing b _ => some (.ok ((s.publish b).setCall p .idle))
    | _ => none
  | .tryPop =>
    match s.reader with
    | .idle => some (.ok { s with
        readUnset := s.readUnset || !s.readAssigned
        popCalls := s.popCalls + 1
        reader := s.currentRead.elim .fetching .looking })
    | _ => none
  | .fetch =>
    match s.reader with
    | .fetching => some (.ok { s with
        currentRead := s.buffers.head?
        readAssigned := true
        reader := s.buffers.head?.elim .idle .looking })
    | _ => none
  | .look =>
    match s.reader with
    | .looking b => some do
      check (s.live b = true) .deadBuffer
      return { s with reader := if (s.heap b).written s.readIndex then .moving b else .idle }
    | _ => none
  | .move =>
    match s.reader with
    | .moving b => some do
      check (s.live b = true) .deadBuffer
      match (s.heap b).items s.readIndex with
      | none => .error .rawItem
      | some l => return s.move b l
    | _ => none
  | .retire =>
    match s.reader, s.buffers with
    | .retiring, b :: rest => some (.ok (s.retire b rest))
    | .retiring, [] => some (.error .emptyQueue)
    | _, _ => none

/-- The members as the constructor initialises them, before its `setup_next_write_buffer()`. -/
def raw (garbage : Option ℕ) : State τ α where
  heap _ := .fresh
  live _ := false
  allocated := 0
  buffers := []
  currentWrite := none
  currentRead := garbage
  writeIndex := 0
  readIndex := 0
  calls _ := .idle
  reader := .idle
  readAssigned := false
  readUnset := false
  history := .empty
  popped := []
  popCalls := 0

/-- `QueueBuffer()`. -/
def init (garbage : Option ℕ) : State τ α := (raw garbage).switch.publish 0

/-- The buffers with any number of producers. -/
def machine (τ α : Type) [DecidableEq τ] (garbage : Option ℕ) :
    Machine (State τ α) (Action τ α) Fault where
  init s := s = init garbage
  act := act

/-! ## What a step does -/

inductive Effect (s : State τ α) : Action τ α → State τ α → Prop
  | call {p : τ} {x : α} (hp : s.calls p = .idle) :
    Effect s (.call p x)
      { s.setCall p (.entered (s.history.line p x)) with history := s.history.call p x }
  | fetchAddIndex {p : τ} {l : LogLine τ α} (hp : s.calls p = .entered l)
      (hlt : s.writeIndex < Buffer.size) :
    Effect s (.fetchAddIndex p)
      { s.setCall p (.indexed s.writeIndex l) with
        writeIndex := Word.add 32 s.writeIndex 1
        history := s.history.claim l }
  | fetchAddIndex_full {p : τ} {l : LogLine τ α} (hp : s.calls p = .entered l)
      (hle : Buffer.size ≤ s.writeIndex) :
    Effect s (.fetchAddIndex p)
      { s.setCall p (.spinning l) with writeIndex := Word.add 32 s.writeIndex 1 }
  | retry {p : τ} {l : LogLine τ α} (hp : s.calls p = .spinning l) :
    Effect s (.retry p) (s.setCall p (.entered l))
  | loadBuffer {p : τ} {i b : ℕ} {l : LogLine τ α} (hp : s.calls p = .indexed i l)
      (hb : s.currentWrite = some b) :
    Effect s (.loadBuffer p) (s.setCall p (.placing b i l))
  | place {p : τ} {b i : ℕ} {l : LogLine τ α} (hp : s.calls p = .placing b i l) :
    Effect s (.place p) ((s.setBuffer b ((s.heap b).place i l)).setCall p (.storing b i l))
  | store {p : τ} {b i : ℕ} {l : LogLine τ α} (hp : s.calls p = .storing b i l) :
    Effect s (.store p) ((s.setBuffer b ((s.heap b).store i)).setCall p (.counting b i l))
  | fetchAddCount {p : τ} {b i : ℕ} {l : LogLine τ α} (hp : s.calls p = .counting b i l) :
    Effect s (.fetchAddCount p) ((s.setBuffer b (s.heap b).fetchAdd).setCall p
      (if (s.heap b).fetchAdd.count = Buffer.size then .switching l else .idle))
  | switch {p : τ} {l : LogLine τ α} (hp : s.calls p = .switching l) :
    Effect s (.switch p) (s.switch.setCall p (.publishing s.allocated l))
  | publish {p : τ} {b : ℕ} {l : LogLine τ α} (hp : s.calls p = .publishing b l) :
    Effect s (.publish p) ((s.publish b).setCall p .idle)
  | tryPop (hr : s.reader = .idle) :
    Effect s .tryPop
      { s with
        readUnset := s.readUnset || !s.readAssigned
        popCalls := s.popCalls + 1
        reader := s.currentRead.elim .fetching .looking }
  | fetch (hr : s.reader = .fetching) :
    Effect s .fetch
      { s with
        currentRead := s.buffers.head?
        readAssigned := true
        reader := s.buffers.head?.elim .idle .looking }
  | look {b : ℕ} (hr : s.reader = .looking b) :
    Effect s .look
      { s with reader := if (s.heap b).written s.readIndex then .moving b else .idle }
  | move {b : ℕ} {l : LogLine τ α} (hr : s.reader = .moving b)
      (hitem : (s.heap b).items s.readIndex = some l) :
    Effect s .move (s.move b l)
  | retire {b : ℕ} {rest : List ℕ} (hr : s.reader = .retiring) (hb : s.buffers = b :: rest) :
    Effect s .retire (s.retire b rest)

/-- **Each step** has the effect of its statement. -/
theorem effect {garbage : Option ℕ} {s u : State τ α} {a : Action τ α}
    (hs : (machine τ α garbage).Step s a u) : Effect s a u := by
  simp only [Machine.Step, machine] at hs
  cases a with
  | call p x =>
    simp only [act] at hs
    split at hs
    · next hp =>
      obtain rfl := Except.ok.inj (Option.some.inj hs)
      exact .call hp
    · cases hs
  | fetchAddIndex p =>
    simp only [act] at hs
    split at hs
    · next l hp =>
      split at hs
      · next hlt =>
        obtain rfl := Except.ok.inj (Option.some.inj hs)
        exact .fetchAddIndex hp hlt
      · next hge =>
        obtain rfl := Except.ok.inj (Option.some.inj hs)
        exact .fetchAddIndex_full hp (Nat.le_of_not_lt hge)
    · cases hs
  | retry p =>
    simp only [act] at hs
    split at hs
    · next l hp =>
      obtain ⟨-, heq⟩ := guarded_eq.mp hs
      obtain rfl := Except.ok.inj heq
      exact .retry hp
    · cases hs
  | loadBuffer p =>
    simp only [act] at hs
    split at hs
    · next i l b hp hb =>
      obtain rfl := Except.ok.inj (Option.some.inj hs)
      exact .loadBuffer hp hb
    · cases hs
    · cases hs
  | place p =>
    simp only [act] at hs
    split at hs
    · next b i l hp =>
      obtain ⟨-, heq⟩ := check_bind_eq_ok.mp (Option.some.inj hs)
      obtain rfl := Except.ok.inj heq
      exact .place hp
    · cases hs
  | store p =>
    simp only [act] at hs
    split at hs
    · next b i l hp =>
      obtain ⟨-, heq⟩ := check_bind_eq_ok.mp (Option.some.inj hs)
      obtain rfl := Except.ok.inj heq
      exact .store hp
    · cases hs
  | fetchAddCount p =>
    simp only [act] at hs
    split at hs
    · next b i l hp =>
      obtain ⟨-, heq⟩ := check_bind_eq_ok.mp (Option.some.inj hs)
      obtain rfl := Except.ok.inj heq
      exact .fetchAddCount hp
    · cases hs
  | switch p =>
    simp only [act] at hs
    split at hs
    · next l hp =>
      obtain rfl := Except.ok.inj (Option.some.inj hs)
      exact .switch hp
    · cases hs
  | publish p =>
    simp only [act] at hs
    split at hs
    · next b l hp =>
      obtain rfl := Except.ok.inj (Option.some.inj hs)
      exact .publish hp
    · cases hs
  | tryPop =>
    simp only [act] at hs
    split at hs
    · next hr =>
      obtain rfl := Except.ok.inj (Option.some.inj hs)
      exact .tryPop hr
    · cases hs
  | fetch =>
    simp only [act] at hs
    split at hs
    · next hr =>
      obtain rfl := Except.ok.inj (Option.some.inj hs)
      exact .fetch hr
    · cases hs
  | look =>
    simp only [act] at hs
    split at hs
    · next b hr =>
      obtain ⟨-, heq⟩ := check_bind_eq_ok.mp (Option.some.inj hs)
      obtain rfl := Except.ok.inj heq
      exact .look hr
    · cases hs
  | move =>
    simp only [act] at hs
    split at hs
    · next b hr =>
      obtain ⟨-, heq⟩ := check_bind_eq_ok.mp (Option.some.inj hs)
      split at heq
      · cases heq
      · next l hitem =>
        obtain rfl := Except.ok.inj heq
        exact .move hr hitem
    · cases hs
  | retire =>
    simp only [act] at hs
    split at hs
    · next b rest hr hb =>
      obtain rfl := Except.ok.inj (Option.some.inj hs)
      exact .retire hr hb
    · cases hs
    · cases hs

end QueueBuffer

end MengSen.Log

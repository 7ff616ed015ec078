import MengSen.Base.FixedBuffer
import MengSen.Lib.Machine

/-!
# Base.AsyncLogging — the asynchronous log: producers, back end and `stop`

`base/AsyncLogging.h` and `base/AsyncLogging.cpp` as a machine.  Any thread may call `append`, one
section under `mutex_`; the back end runs `threadFunc` statement by statement, also inside its
locked section, where `append` has to wait; the owner calls `start` and `stop`.  `cond_.wait_for`
may return at any time: notified, timed out or spuriously.

`N` is the buffer size, `kLargeBuffer` in the source.  The fields from `lines` on are ghosts.
-/

namespace MengSen.AsyncLogging

open Machine (check)

variable {N : ℕ}

/-- `std::unique_ptr<Buffer>`. -/
abbrev BufferPtr (N : ℕ) := Option (FixedBuffer N)

/-- One call of `LogFile::append`: the bytes of a buffer, or the notice that buffers were dropped. -/
inductive Output
  | data (bytes : List UInt8)
  | notice (dropped : ℕ)
  deriving DecidableEq

/-- The next statement of `threadFunc`; from `emplace` to `refill` it holds `mutex_`. -/
inductive Pc
  | unborn
  | begin_
  | setup
  | loopHead
  | checks
  | lock
  | waiting
  | emplace
  | takeNew
  | swap
  | refill
  | batch
  | write (i : ℕ)
  | recycle
  | done
  deriving DecidableEq

/-- Where the owner is: before `start`, in it, after it, in `stop` before and after
`running_ = false`, after `stop`. -/
inductive Owner
  | built
  | starting
  | started
  | stopping
  | flagged
  | stopped
  deriving DecidableEq

inductive Fault
  | assertion
  | nullDereference
  deriving DecidableEq

structure State (N : ℕ) where
  running : Bool
  latch : ℕ
  currentBuffer : BufferPtr N
  nextBuffer : BufferPtr N
  buffers : List (BufferPtr N)
  pc : Pc
  newBuffer1 : BufferPtr N
  newBuffer2 : BufferPtr N
  buffersToWrite : List (BufferPtr N)
  output : List Output
  owner : Owner
  /-- the appended lines in lock order -/
  lines : List (List UInt8)
  /-- the batches taken over so far, each the contents of its buffers -/
  batches : List (List (List UInt8))
  /-- the lines appended before `stop` was called -/
  linesAtStop : List (List UInt8)

/-! ## Contents -/

def ptrBytes : BufferPtr N → List UInt8
  | some b => b.content
  | none => []

def bytesOf (l : List (BufferPtr N)) : List UInt8 := l.flatMap ptrBytes

def Output.bytes : Output → List UInt8
  | .data bytes => bytes
  | .notice _ => []

/-- The bytes that the buffer loop passed to `LogFile::append`. -/
def State.written (s : State N) : List UInt8 := s.output.flatMap Output.bytes

/-- The buffers of `buffersToWrite` that the buffer loop has not reached. -/
def State.unwritten (s : State N) : List (BufferPtr N) :=
  match s.pc with
  | .refill | .batch => s.buffersToWrite
  | .write i => s.buffersToWrite.drop i
  | _ => []

/-- The buffers taken over but not yet through the size check. -/
def State.inflight (s : State N) : List (BufferPtr N) :=
  match s.pc with
  | .refill | .batch => s.buffersToWrite
  | _ => []

/-- The buffers of a batch that are written: all of up to 25, else the first two. -/
def kept (batch : List (List UInt8)) : List (List UInt8) :=
  if batch.length > 25 then batch.take 2 else batch

/-- The bytes taken over from the producers so far. -/
def State.taken (s : State N) : List UInt8 := s.batches.flatten.flatten ++ bytesOf s.inflight

/-! ## Producers -/

def append (s : State N) (logline : List UInt8) : Except Fault (State N) :=
  match s.currentBuffer with
  | none => .error .nullDereference
  | some current =>
    if logline.length < current.avail then
      .ok { s with
        currentBuffer := some (current.append logline)
        lines := s.lines ++ [logline] }
    else
      .ok { s with
        buffers := s.buffers ++ [some current]
        currentBuffer := some ((s.nextBuffer.getD .make).append logline)
        nextBuffer := none
        lines := s.lines ++ [logline] }

/-! ## The back end -/

def Pc.holdsMutex : Pc → Bool
  | .emplace | .takeNew | .swap | .refill => true
  | _ => false

/-- `newBuffer && newBuffer->length() == 0`. -/
def isEmptyBuffer : BufferPtr N → Bool
  | some b => b.length = 0
  | none => false

/-- `if (!newBuffer) ...`: reuse the last written buffer. -/
def reuse (newBuffer : BufferPtr N) (buffersToWrite : List (BufferPtr N)) :
    Except Fault (BufferPtr N × List (BufferPtr N)) :=
  match newBuffer with
  | some b => .ok (some b, buffersToWrite)
  | none =>
    match buffersToWrite.getLast? with
    | none => .error .assertion
    | some none => .error .nullDereference
    | some (some b) => .ok (some b.reset, buffersToWrite.dropLast)

/-- The end of an iteration: keep two buffers, refill the spare ones, clear and flush. -/
def recycle (s : State N) : Except Fault (State N) := do
  let buffersToWrite :=
    if s.buffersToWrite.length > 2 then s.buffersToWrite.take 2 else s.buffersToWrite
  let (newBuffer1, buffersToWrite) ← reuse s.newBuffer1 buffersToWrite
  let (newBuffer2, _) ← reuse s.newBuffer2 buffersToWrite
  return { s with
    newBuffer1 := newBuffer1
    newBuffer2 := newBuffer2
    buffersToWrite := []
    pc := .loopHead }

/-- The size check after the locked section. -/
def dropExcess (s : State N) : Except Fault (State N) := do
  check (s.buffersToWrite ≠ []) .assertion
  let s := { s with batches := s.batches ++ [s.buffersToWrite.map ptrBytes], pc := .write 0 }
  if s.buffersToWrite.length > 25 then
    return { s with
      output := s.output ++ [.notice (s.buffersToWrite.length - 2)]
      buffersToWrite := s.buffersToWrite.take 2 }
  else
    return s

/-- The next statement of `threadFunc`. -/
def threadFunc (s : State N) : Option (Except Fault (State N)) :=
  match s.pc with
  | .unborn => none
  | .begin_ => some do
    check (s.running = true) .assertion
    return { s with latch := s.latch - 1, pc := .setup }
  | .setup =>
    some (.ok { s with
      newBuffer1 := some .make
      newBuffer2 := some .make
      buffersToWrite := []
      pc := .loopHead })
  | .loopHead => some (.ok { s with pc := if s.running then .checks else .done })
  | .checks => some do
    check (isEmptyBuffer s.newBuffer1 = true) .assertion
    check (isEmptyBuffer s.newBuffer2 = true) .assertion
    check (s.buffersToWrite = []) .assertion
    return { s with pc := .lock }
  | .lock => some (.ok { s with pc := if s.buffers.isEmpty then .waiting else .emplace })
  | .waiting => some (.ok { s with pc := .emplace })
  | .emplace =>
    some (.ok { s with
      buffers := s.buffers ++ [s.currentBuffer]
      currentBuffer := none
      pc := .takeNew })
  | .takeNew =>
    some (.ok { s with currentBuffer := s.newBuffer1, newBuffer1 := none, pc := .swap })
  | .swap =>
    some (.ok { s with
      buffersToWrite := s.buffers
      buffers := s.buffersToWrite
      pc := .refill })
  | .refill =>
    match s.nextBuffer with
    | some _ => some (.ok { s with pc := .batch })
    | none =>
      some (.ok { s with nextBuffer := s.newBuffer2, newBuffer2 := none, pc := .batch })
  | .batch => some (dropExcess s)
  | .write i =>
    match s.buffersToWrite[i]? with
    | none => some (.ok { s with pc := .recycle })
    | some none => some (.error .nullDereference)
    | some (some b) =>
      some (.ok { s with output := s.output ++ [.data b.content], pc := .write (i + 1) })
  | .recycle => some (recycle s)
  | .done => none

/-! ## The machine -/

inductive Action
  | append (logline : List UInt8)
  | thread
  | start
  | startReturns
  | stop
  | clearRunning
  | stopReturns

def act (s : State N) : Action → Option (Except Fault (State N))
  | .append logline => if s.pc.holdsMutex then none else some (append s logline)
  | .thread => threadFunc s
  | .start =>
    if s.owner = .built then some (.ok { s with running := true, pc := .begin_, owner := .starting })
    else none
  | .startReturns =>
    if s.owner = .starting ∧ s.latch = 0 then some (.ok { s with owner := .started }) else none
  | .stop =>
    if s.owner = .started then some (.ok { s with owner := .stopping, linesAtStop := s.lines })
    else none
  | .clearRunning =>
    if s.owner = .stopping then
      some (.ok { s with running := false, owner := .flagged })
    else none
  | .stopReturns =>
    if s.owner = .flagged ∧ s.pc = .done then some (.ok { s with owner := .stopped }) else none

/-- The constructor. -/
def init : State N where
  running := false
  latch := 1
  currentBuffer := some .make
  nextBuffer := some .make
  buffers := []
  pc := .unborn
  newBuffer1 := none
  newBuffer2 := none
  buffersToWrite := []
  output := []
  owner := .built
  lines := []
  batches := []
  linesAtStop := []

def machine (N : ℕ) : Machine (State N) Action Fault where
  init s := s = init
  act := act

/-- Lines are shorter than a buffer. -/
def ShortLines (_ : State N) : Action → Prop
  | .append logline => logline.length < N
  | _ => True

instance : ∀ (s : State N) (a : Action), Decidable (ShortLines s a)
  | _, .append logline => inferInstanceAs (Decidable (logline.length < N))
  | _, .thread | _, .start | _, .startReturns | _, .stop | _, .clearRunning | _, .stopReturns =>
    inferInstanceAs (Decidable True)

/-! ## What a step does -/

inductive Effect (s : State N) : Action → State N → Prop
  | append {logline : List UInt8} {t : State N} (hm : s.pc.holdsMutex = false)
      (happend : AsyncLogging.append s logline = .ok t) : Effect s (.append logline) t
  | thread {t : State N} (hthread : threadFunc s = some (.ok t)) : Effect s .thread t
  | start (ho : s.owner = .built) :
    Effect s .start { s with running := true, pc := .begin_, owner := .starting }
  | startReturns (ho : s.owner = .starting) (hl : s.latch = 0) :
    Effect s .startReturns { s with owner := .started }
  | stop (ho : s.owner = .started) :
    Effect s .stop { s with owner := .stopping, linesAtStop := s.lines }
  | clearRunning (ho : s.owner = .stopping) :
    Effect s .clearRunning { s with running := false, owner := .flagged }
  | stopReturns (ho : s.owner = .flagged) (hpc : s.pc = .done) :
    Effect s .stopReturns { s with owner := .stopped }

/-- **Each step** has the effect of its statement, and its guards hold. -/
theorem effect {s t : State N} {a : Action} (hs : (machine N).Step s a t) : Effect s a t := by
  cases a with
  | append logline =>
    simp only [Machine.Step, machine, act, Option.ite_none_left_eq_some, Option.some.injEq,
      Bool.not_eq_true] at hs
    exact .append hs.1 hs.2
  | thread => exact .thread hs
  | start | stop | clearRunning =>
    simp only [Machine.Step, machine, act, Option.ite_none_right_eq_some, Option.some.injEq,
      Except.ok.injEq] at hs
    obtain ⟨ho, rfl⟩ := hs
    constructor
    exact ho
  | startReturns | stopReturns =>
    simp only [Machine.Step, machine, act, Option.ite_none_right_eq_some, Option.some.injEq,
      Except.ok.injEq] at hs
    obtain ⟨⟨ho, hnext⟩, rfl⟩ := hs
    constructor
    · exact ho
    · exact hnext

end MengSen.AsyncLogging

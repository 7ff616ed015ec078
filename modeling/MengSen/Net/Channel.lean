import MengSen.Lib.Machine
import Mathlib.Data.Int.Notation
import Mathlib.Data.Nat.Notation
import Mathlib.Logic.Function.Basic

/-!
# Net.Channel — channels, the poller and the dispatch of events

`net/Channel.h` and `net/Channel.cpp` with the parts of `net/EventLoop.cpp` and `net/Poller.cpp`
that handle channels, as a machine: the loop thread between `poll` and `doPendingFunctors`, and the
user code that it calls, which may create, update, remove and destroy channels at any place.  Other
threads create and destroy channels and hold references to objects.

`κ` are the addresses of channels, `ω` the objects held by `shared_ptr` to which a channel may be
tied.  An object may have a channel as a member; the channel is then destroyed with it.  The functor
queue and `quit_` are in `Net.EventLoop`; here the `while` test is a choice.
-/

namespace MengSen

/-! ## Events -/

def POLLIN : BitVec 32 := 0x001
def POLLPRI : BitVec 32 := 0x002
def POLLOUT : BitVec 32 := 0x004
def POLLERR : BitVec 32 := 0x008
def POLLHUP : BitVec 32 := 0x010
def POLLNVAL : BitVec 32 := 0x020
def POLLRDHUP : BitVec 32 := 0x2000

/-- The callbacks of a channel, in the order in which `handleEventWithGuard` tests for them. -/
inductive Callback
  | close
  | error
  | read
  | write
  deriving DecidableEq

def Callback.all : List Callback := [.close, .error, .read, .write]

/-- The functions that change `events_` and call `update`. -/
inductive Interest
  | enableReading
  | disableReading
  | enableWriting
  | disableWriting
  | disableAll
  deriving DecidableEq

structure Channel (ω : Type) where
  fd : ℤ
  events : BitVec 32
  revents : BitVec 32
  /-- `tie_`; an empty `shared_ptr` may be tied as well -/
  tie : Option ω
  tied : Bool
  eventHandling : Bool
  addedToLoop : Bool
  /-- the callbacks that are set -/
  callbacks : Callback → Bool
  /-- the object that the channel is a member of -/
  owner : Option ω

namespace Channel

variable {ω : Type}

def kNoneEvent : BitVec 32 := 0
def kReadEvent : BitVec 32 := POLLIN ||| POLLPRI
def kWriteEvent : BitVec 32 := POLLOUT

/-- The constructor, for a member of `owner` or for a channel of its own. -/
def new (fd : ℤ) (owner : Option ω) : Channel ω where
  fd := fd
  events := 0
  revents := 0
  tie := none
  tied := false
  eventHandling := false
  addedToLoop := false
  callbacks _ := false
  owner := owner

variable (ch : Channel ω)

def isNoneEvent : Bool := ch.events == kNoneEvent

def change : Interest → Channel ω
  | .enableReading => { ch with events := ch.events ||| kReadEvent }
  | .disableReading => { ch with events := ch.events &&& ~~~kReadEvent }
  | .enableWriting => { ch with events := ch.events ||| kWriteEvent }
  | .disableWriting => { ch with events := ch.events &&& ~~~kWriteEvent }
  | .disableAll => { ch with events := kNoneEvent }

/-- The tests of `handleEventWithGuard`. -/
def requests (revents : BitVec 32) : Callback → Bool
  | .close => revents &&& POLLHUP != 0 && !(revents &&& POLLIN != 0)
  | .error => revents &&& (POLLERR ||| POLLNVAL) != 0
  | .read => revents &&& (POLLIN ||| POLLPRI ||| POLLRDHUP) != 0
  | .write => revents &&& POLLOUT != 0

@[simp] theorem change_fd (i : Interest) : (ch.change i).fd = ch.fd := by cases i <;> rfl

@[simp] theorem change_eventHandling (i : Interest) :
    (ch.change i).eventHandling = ch.eventHandling := by cases i <;> rfl

@[simp] theorem change_owner (i : Interest) : (ch.change i).owner = ch.owner := by cases i <;> rfl

@[simp] theorem change_revents (i : Interest) : (ch.change i).revents = ch.revents := by
  cases i <;> rfl

end Channel

/-- What the loop relies on of the class that `newDefaultPoller` makes: it keeps `channels_` in
`updateChannel` and `removeChannel`, and `poll` returns registered channels, each once, with the
events that it sets in them. -/
structure Poller (ρ κ ω : Type) where
  channels : ρ → ℤ → Option κ
  updateChannel : ρ → κ → Channel ω → ρ
  removeChannel : ρ → κ → Channel ω → ρ
  returns : ρ → List (κ × BitVec 32) → Bool
  mem_update : ∀ {p c ch fd d}, channels (updateChannel p c ch) fd = some d →
    channels p fd = some d ∨ (fd = ch.fd ∧ d = c)
  mem_remove : ∀ {p c ch fd d}, channels (removeChannel p c ch) fd = some d →
    channels p fd = some d ∧ ¬ (fd = ch.fd ∧ d = c)
  mem_returns : ∀ {p active x}, returns p active = true → x ∈ active →
    ∃ fd, channels p fd = some x.1
  nodup_returns : ∀ {p active}, returns p active = true → (active.map Prod.fst).Nodup

namespace ChannelLoop

open Machine (check guarded guarded_eq check_bind_eq_ok bind_eq_ok)

/-- The next statement of the loop thread.  User code runs in `outside`, `callback`, `returning` (the
destructor of the object that the guard keeps) and `functors`. -/
inductive Pc (κ : Type)
  /-- outside `loop` -/
  | outside
  /-- inside `poller_->poll` -/
  | polling
  /-- in the loop over `activeChannels_`, between two channels -/
  | dispatch
  /-- in `handleEventWithGuard` of a channel, before the next test -/
  | handler (c : κ)
  /-- in a callback of the channel -/
  | callback (c : κ)
  /-- at the end of `handleEvent`, with `guard` still there -/
  | returning (c : κ)
  /-- in `doPendingFunctors` -/
  | functors
  deriving DecidableEq

/-- The assertions, by what they state. -/
inductive Assertion
  /-- `assert(!eventHandling_)` of `~Channel` -/
  | notHandling
  /-- `assert(!addedToLoop_)` of `~Channel` -/
  | notAdded
  /-- `assert(!loop_->hasChannel(this))` of `~Channel` -/
  | notInPoller
  /-- `assert(isNoneEvent())` of `remove` -/
  | noneEvent
  /-- the assertion of `removeChannel` -/
  | notActive
  /-- `assert(!looping_)` of `loop` -/
  | notLooping
  deriving DecidableEq

inductive Fault
  | assertion (a : Assertion)
  /-- access to a channel that is destroyed -/
  | dangling
  deriving DecidableEq

/-- What happened to a channel that `poll` returned: its tie has expired, or one of its tests was
met, and the callback was called if it was set. -/
inductive Event (κ : Type)
  | expired (c : κ)
  | due (c : κ) (k : Callback) (called : Bool)
  deriving DecidableEq

/-- An object held by `shared_ptr`, with its `use_count` and the channel that is its member. -/
structure Object (κ : Type) where
  useCount : ℕ
  channel : κ

structure State (ρ κ ω : Type) where
  /-- the channels that are not destroyed -/
  channels : κ → Option (Channel ω)
  /-- the objects made so far; those with `useCount` zero are destroyed -/
  objects : ω → Option (Object κ)
  poller : ρ
  activeChannels : List κ
  currentActiveChannel : Option κ
  eventHandling : Bool
  looping : Bool
  pc : Pc κ
  /-- the channels of the `for` loop that are still to be handled -/
  rest : List κ
  /-- the tests of `handleEventWithGuard` that are still to be made -/
  tests : List Callback
  guard : Option ω
  /-- what the last `poll` returned -/
  polled : List (κ × BitVec 32)
  /-- the events since then -/
  trace : List (Event κ)

inductive Action (κ ω : Type)
  /-- `loop`, up to the first test of `quit_` -/
  | callLoop
  | pollReturns (active : List (κ × BitVec 32))
  /-- the next channel of the `for` loop, up to the first test of `handleEventWithGuard` -/
  | nextChannel
  /-- the next test of `handleEventWithGuard` -/
  | nextTest
  | callbackReturns
  /-- `eventHandling_ = false` of the channel -/
  | handlerDone
  /-- the end of `handleEvent`, where `guard` is released -/
  | releaseGuard
  /-- the end of the `for` loop -/
  | eventsDone
  /-- `doPendingFunctors` is done and `quit_` is not set -/
  | again
  | loopReturns
  /-- any thread creates a channel -/
  | create (c : κ) (fd : ℤ)
  /-- and an object that has a channel as a member, -/
  | make (o : ω) (c : κ) (fd : ℤ)
  | update (c : κ) (i : Interest)
  | remove (c : κ)
  | setCallback (c : κ) (k : Callback) (set : Bool)
  | tie (c : κ) (obj : Option ω)
  /-- any thread copies a `shared_ptr` -/
  | acquire (o : ω)
  /-- or drops one; `inLoop` tells whether it is the loop thread -/
  | release (o : ω) (inLoop : Bool)
  | destroy (c : κ) (inLoop : Bool)

section Functions

variable {ρ κ ω : Type} [DecidableEq κ] [DecidableEq ω]

def deref (s : State ρ κ ω) (c : κ) : Except Fault (Channel ω) :=
  match s.channels c with
  | none => .error .dangling
  | some ch => .ok ch

namespace State

variable (s : State ρ κ ω)

def setChannel (c : κ) (ch : Option (Channel ω)) : State ρ κ ω :=
  { s with channels := Function.update s.channels c ch }

def setObject (o : ω) (obj : Object κ) : State ρ κ ω :=
  { s with objects := Function.update s.objects o (some obj) }

/-- The loop thread is in user code. -/
def inUserCode : Bool :=
  match s.pc with
  | .outside | .callback _ | .returning _ | .functors => true
  | .polling | .dispatch | .handler _ => false

/-- `use_count` of the object. -/
def useCount (o : ω) : ℕ := ((s.objects o).map Object.useCount).getD 0

/-- The references to the object other than `guard`. -/
def userRefs (o : ω) : ℕ := if s.guard = some o then s.useCount o - 1 else s.useCount o

/-- `weak_ptr::lock`: the object when it is not destroyed. -/
def lock (tie : Option ω) : Option (ω × Object κ) :=
  tie.bind fun o => ((s.objects o).filter fun obj => 0 < obj.useCount).map (o, ·)

end State

/-- `Poller::hasChannel`. -/
def hasChannel (P : Poller ρ κ ω) (s : State ρ κ ω) (c : κ) (ch : Channel ω) : Bool :=
  P.channels s.poller ch.fd == some c

/-- `~Channel`, in the loop thread or in another one. -/
def destroyChannel (P : Poller ρ κ ω) (s : State ρ κ ω) (c : κ) (inLoop : Bool) :
    Except Fault (State ρ κ ω) := do
  let ch ← deref s c
  check (ch.eventHandling = false) (.assertion .notHandling)
  check (ch.addedToLoop = false) (.assertion .notAdded)
  check (inLoop = true → hasChannel P s c ch = false) (.assertion .notInPoller)
  return s.setChannel c none

/-- A reference to an object is dropped; the last one destroys the object and its channel. -/
def dropRef (P : Poller ρ κ ω) (s : State ρ κ ω) (o : ω) (inLoop : Bool) :
    Except Fault (State ρ κ ω) :=
  match s.objects o with
  | none => .ok s
  | some obj =>
    let t := s.setObject o { obj with useCount := obj.useCount - 1 }
    if obj.useCount = 1 then destroyChannel P t obj.channel inLoop else .ok t

/-- `Channel::remove` and `EventLoop::removeChannel`. -/
def removeChannel (P : Poller ρ κ ω) (s : State ρ κ ω) (c : κ) : Except Fault (State ρ κ ω) := do
  let ch ← deref s c
  check (ch.isNoneEvent = true) (.assertion .noneEvent)
  let ch := { ch with addedToLoop := false }
  check (s.eventHandling = true → s.currentActiveChannel = some c ∨ c ∉ s.activeChannels)
    (.assertion .notActive)
  return { s.setChannel c (some ch) with poller := P.removeChannel s.poller c ch }

/-- `set_revents` for each channel that `poll` returns. -/
def setRevents (s : State ρ κ ω) : List (κ × BitVec 32) → Except Fault (State ρ κ ω)
  | [] => .ok s
  | (c, revents) :: active => do
    let ch ← deref s c
    setRevents (s.setChannel c (some { ch with revents := revents })) active

/-- `eventHandling_ = true`. -/
def State.startHandling (s : State ρ κ ω) (c : κ) (ch : Channel ω) : State ρ κ ω :=
  { s.setChannel c (some { ch with eventHandling := true }) with
    pc := .handler c, tests := Callback.all }

/-- `guard` holds the object. -/
def State.keep (s : State ρ κ ω) (o : ω) (obj : Object κ) : State ρ κ ω :=
  { s.setObject o { obj with useCount := obj.useCount + 1 } with guard := some o }

/-- `Channel::handleEvent` up to the first test. -/
def handleEvent (s : State ρ κ ω) (c : κ) : Except Fault (State ρ κ ω) := do
  let ch ← deref s c
  if ch.tied then
    match s.lock ch.tie with
    | none => return { s with trace := s.trace ++ [.expired c] }
    | some (o, obj) => return (s.startHandling c ch).keep o obj
  else
    return s.startHandling c ch

end Functions

variable {ρ κ ω : Type} [DecidableEq κ] [DecidableEq ω]

def act (P : Poller ρ κ ω) (s : State ρ κ ω) :
    Action κ ω → Option (Except Fault (State ρ κ ω))
  | .callLoop =>
    if s.inUserCode then some do
      check (s.looping = false) (.assertion .notLooping)
      return { s with looping := true, pc := .polling }
    else none
  | .pollReturns active =>
    if s.pc = .polling ∧ P.returns s.poller active then some do
      let t ← setRevents s active
      return { t with
        activeChannels := active.map Prod.fst
        rest := active.map Prod.fst
        eventHandling := true
        polled := active
        trace := []
        pc := .dispatch }
    else none
  | .nextChannel =>
    match s.pc, s.rest with
    | .dispatch, c :: rest =>
      some (handleEvent { s with currentActiveChannel := some c, rest := rest } c)
    | _, _ => none
  | .nextTest =>
    match s.pc, s.tests with
    | .handler c, k :: tests => some do
      let ch ← deref s c
      if Channel.requests ch.revents k then
        return { s with
          tests := tests
          trace := s.trace ++ [.due c k (ch.callbacks k)]
          pc := if ch.callbacks k then .callback c else .handler c }
      else
        return { s with tests := tests }
    | _, _ => none
  | .callbackReturns =>
    match s.pc with
    | .callback c => some (.ok { s with pc := .handler c })
    | _ => none
  | .handlerDone =>
    match s.pc, s.tests with
    | .handler c, [] => some do
      let ch ← deref s c
      return { s.setChannel c (some { ch with eventHandling := false }) with pc := .returning c }
    | _, _ => none
  | .releaseGuard =>
    match s.pc, s.guard with
    | .returning _, none => some (.ok { s with pc := .dispatch })
    | .returning _, some o => some (dropRef P { s with guard := none, pc := .dispatch } o true)
    | _, _ => none
  | .eventsDone =>
    guarded (s.pc = .dispatch ∧ s.rest = [])
      { s with currentActiveChannel := none, eventHandling := false, pc := .functors }
  | .again => guarded (s.pc = .functors) { s with pc := .polling }
  | .loopReturns => guarded (s.pc = .functors) { s with looping := false, pc := .outside }
  | .create c fd =>
    guarded (s.channels c).isNone (s.setChannel c (some (.new fd none)))
  | .make o c fd =>
    guarded ((s.channels c).isNone ∧ (s.objects o).isNone)
      ((s.setChannel c (some (.new fd (some o)))).setObject o ⟨1, c⟩)
  | .update c i =>
    if s.inUserCode ∧ (s.channels c).isSome then some do
      let ch ← deref s c
      let ch := { ch.change i with addedToLoop := true }
      return { s.setChannel c (some ch) with poller := P.updateChannel s.poller c ch }
    else none
  | .remove c => if s.inUserCode ∧ (s.channels c).isSome then some (removeChannel P s c) else none
  | .setCallback c k set =>
    if s.inUserCode ∧ (s.channels c).isSome then some do
      let ch ← deref s c
      return s.setChannel c (some { ch with callbacks := Function.update ch.callbacks k set })
    else none
  | .tie c obj =>
    if s.inUserCode ∧ (s.channels c).isSome ∧ (∀ o ∈ obj, 0 < s.useCount o) then some do
      let ch ← deref s c
      return s.setChannel c (some { ch with tie := obj, tied := true })
    else none
  | .acquire o =>
    match s.objects o with
    | none => none
    | some obj =>
      guarded (0 < obj.useCount) (s.setObject o { obj with useCount := obj.useCount + 1 })
  | .release o inLoop =>
    if (inLoop → s.inUserCode) ∧ 0 < s.userRefs o then some (dropRef P s o inLoop) else none
  | .destroy c inLoop =>
    match s.channels c with
    | none => none
    | some ch =>
      if (inLoop → s.inUserCode) ∧ ch.owner = none then some (destroyChannel P s c inLoop) else none

/-- No channel, no object and nothing registered. -/
def init (P : Poller ρ κ ω) (s : State ρ κ ω) : Prop :=
  (∀ fd, P.channels s.poller fd = none) ∧ (∀ c, s.channels c = none) ∧ (∀ o, s.objects o = none) ∧
    s.currentActiveChannel = none ∧ s.eventHandling = false ∧ s.looping = false ∧ s.pc = .outside ∧
    s.rest = [] ∧ s.guard = none

/-- The loop thread and its users. -/
def machine (P : Poller ρ κ ω) : Machine (State ρ κ ω) (Action κ ω) Fault where
  init := init P
  act := act P

end ChannelLoop

end MengSen

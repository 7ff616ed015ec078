import MengSen.Lib.Machine
import MengSen.Lib.CondVar
import Mathlib.Logic.Function.Basic

/-!
# Base.BoundedBlockingQueue — the bounded queue between producers and consumers

`base/BoundedBlockingQueue.h` as a monitor: the threads `τ` call `put` and `take`, and a step is a
locked section, from getting the mutex to the next `wait` or to the return.  The thread of a step and
the waiter that its `notify_one` wakes are chosen by the action.

`queue_` is a `boost::circular_buffer`, whose `push_back` overwrites the oldest element when it is
full.  The fields `puts`, `takes` and `overwritten` are ghosts.
-/

/-- A circular buffer of the capacity `cap`, oldest element first. -/
structure CircularBuffer (α : Type) (cap : ℕ) where
  items : List α
  size_le : items.length ≤ cap

namespace CircularBuffer

variable {α : Type} {cap : ℕ}

def new : CircularBuffer α cap := ⟨[], Nat.zero_le _⟩

variable (b : CircularBuffer α cap)

def size : ℕ := b.items.length

def empty : Bool := b.size == 0

def full : Bool := cap == b.size

/-- The elements that `push_back` overwrites. -/
def overwrites (x : α) : List α := if b.full then (b.items ++ [x]).take 1 else []

def pushBack (x : α) : CircularBuffer α cap where
  items := if b.full then (b.items ++ [x]).drop 1 else b.items ++ [x]
  size_le := by
    have h := b.size_le
    split
    · simp only [List.length_drop, List.length_append, List.length_singleton]
      omega
    · next hf =>
      simp only [full, size, beq_iff_eq] at hf
      simp only [List.length_append, List.length_singleton]
      omega

def popFront : CircularBuffer α cap where
  items := b.items.tail
  size_le := by
    have h := b.size_le
    rw [List.length_tail]
    omega

end CircularBuffer

namespace MengSen.BoundedBlockingQueue

open Machine (check guarded guarded_eq check_bind anyAction)

/-- A call that has not returned. -/
inductive Call (α : Type)
  | put (x : α)
  | take

inductive Fault
  | assertion
  /-- `front()` of an empty buffer -/
  | noFront
  deriving DecidableEq

structure State (τ α : Type) (cap : ℕ) where
  notEmpty : CondVar τ
  notFull : CondVar τ
  queue : CircularBuffer α cap
  calls : τ → Option (Call α)
  /-- the elements put, in the order of the critical sections -/
  puts : List α
  /-- the elements returned by `take`, in that order -/
  takes : List α
  /-- the elements that `push_back` has overwritten -/
  overwritten : List α

variable {τ α : Type} {cap : ℕ}

inductive Action (τ α : Type)
  /-- the thread calls `put` or `take` -/
  | call (t : τ) (c : Call α)
  /-- the thread gets the mutex; `w` is the waiter that its notification wakes -/
  | lock (t : τ) (w : Option τ)
  /-- the thread wakes up from a `wait` by itself -/
  | wake (t : τ)

/-- `queue_.front()`. -/
def front (b : CircularBuffer α cap) : Except Fault α :=
  match b.items with
  | [] => .error .noFront
  | x :: _ => .ok x

variable [DecidableEq τ]

namespace State

variable (s : State τ α cap)

def returns (t : τ) : State τ α cap := { s with calls := Function.update s.calls t none }

/-- `put` of the thread that holds the mutex. -/
def put (t : τ) (x : α) (w : Option τ) : Option (Except Fault (State τ α cap)) :=
  if s.queue.full then
    some (.ok { s with notFull := s.notFull.wait t })
  else
    (s.notEmpty.notifyOne w).map fun notEmpty => do
      check (s.queue.full = false) .assertion
      return { s.returns t with
        notEmpty := notEmpty
        queue := s.queue.pushBack x
        puts := s.puts ++ [x]
        overwritten := s.overwritten ++ s.queue.overwrites x }

/-- `take` of the thread that holds the mutex. -/
def take (t : τ) (w : Option τ) : Option (Except Fault (State τ α cap)) :=
  if s.queue.empty then
    some (.ok { s with notEmpty := s.notEmpty.wait t })
  else
    (s.notFull.notifyOne w).map fun notFull => do
      check (s.queue.empty = false) .assertion
      let x ← front s.queue
      return { s.returns t with
        notFull := notFull
        queue := s.queue.popFront
        takes := s.takes ++ [x] }

/-- The thread is blocked in a `wait`. -/
def Blocked (t : τ) : Prop := t ∈ s.notEmpty.waiting ∨ t ∈ s.notFull.waiting

instance (t : τ) : Decidable (s.Blocked t) := inferInstanceAs (Decidable (_ ∨ _))

end State

def act (s : State τ α cap) : Action τ α → Option (Except Fault (State τ α cap))
  | .call t c =>
    guarded (s.calls t).isNone { s with calls := Function.update s.calls t (some c) }
  | .lock t w =>
    if s.Blocked t then none else
    match s.calls t with
    | none => none
    | some (.put x) => { s with notFull := s.notFull.resume t }.put t x w
    | some .take => { s with notEmpty := s.notEmpty.resume t }.take t w
  | .wake t =>
    guarded (s.Blocked t)
      { s with notEmpty := s.notEmpty.wake t, notFull := s.notFull.wake t }

/-- The queue as it is built, before any call. -/
def init : State τ α cap where
  notEmpty := .empty
  notFull := .empty
  queue := .new
  calls _ := none
  puts := []
  takes := []
  overwritten := []

/-- The monitor: any number of callers, any order of locked sections, spurious wakeups. -/
def machine (τ α : Type) [DecidableEq τ] (cap : ℕ) : Machine (State τ α cap) (Action τ α) Fault where
  init s := s = init
  act := act

/-! ## What a locked section does -/

variable {s u : State τ α cap} {t : τ} {w : Option τ}

/-- `put` waits while the queue is full, else it appends. -/
theorem put_cases {x : α} {r : Except Fault (State τ α cap)} (h : s.put t x w = some r) :
    (s.queue.full = true ∧ r = .ok { s with notFull := s.notFull.wait t }) ∨
      (s.queue.full = false ∧ ∃ d, s.notEmpty.notifyOne w = some d ∧
        r = .ok { s.returns t with
          notEmpty := d
          queue := s.queue.pushBack x
          puts := s.puts ++ [x]
          overwritten := s.overwritten ++ s.queue.overwrites x }) := by
  unfold State.put at h
  by_cases hf : s.queue.full = true
  · rw [if_pos hf] at h
    exact .inl ⟨hf, (Option.some.inj h).symm⟩
  · rw [if_neg hf] at h
    rw [Bool.not_eq_true] at hf
    obtain ⟨d, hd, rfl⟩ := Option.map_eq_some_iff.mp h
    exact .inr ⟨hf, d, hd, check_bind _ hf _⟩

/-- `take` waits while the queue is empty, else it removes the front. -/
theorem take_cases {r : Except Fault (State τ α cap)} (h : s.take t w = some r) :
    (s.queue.items = [] ∧ r = .ok { s with notEmpty := s.notEmpty.wait t }) ∨
      ∃ x xs d, s.queue.items = x :: xs ∧ s.notFull.notifyOne w = some d ∧
        r = .ok { s.returns t with
          notFull := d
          queue := s.queue.popFront
          takes := s.takes ++ [x] } := by
  unfold State.take at h
  rcases hq : s.queue.items with _ | ⟨x, xs⟩
  · have he : s.queue.empty = true := by simp [CircularBuffer.empty, CircularBuffer.size, hq]
    rw [if_pos he] at h
    exact .inl ⟨rfl, (Option.some.inj h).symm⟩
  · have he : s.queue.empty = false := by simp [CircularBuffer.empty, CircularBuffer.size, hq]
    have hfront : front s.queue = .ok x := by rw [front, hq]
    rw [if_neg (Bool.not_eq_true _ ▸ he)] at h
    obtain ⟨d, hd, rfl⟩ := Option.map_eq_some_iff.mp h
    refine .inr ⟨x, xs, d, rfl, hd, ?_⟩
    rw [check_bind _ he, hfront]
    rfl

/-! ## The invariant -/

def Call.isPut : Call α → Bool
  | .put _ => true
  | .take => false

/-- The thread is in a call of `put`, or of `take`. -/
def InCall (s : State τ α cap) (put : Bool) (t : τ) : Prop :=
  (s.calls t).map Call.isPut = some put

/-- The invariant of the queue. -/
structure Inv (s : State τ α cap) : Prop where
  fifo : s.takes ++ s.queue.items = s.puts
  kept : s.overwritten = []
  notEmpty : s.notEmpty.Covers s.queue.size
  notFull : s.notFull.Covers (cap - s.queue.size)
  consumers : s.notEmpty.Holds (InCall s false)
  producers : s.notFull.Holds (InCall s true)

section Frames

omit [DecidableEq τ]

theorem init_inv : Inv (init : State τ α cap) where
  fifo := rfl
  kept := rfl
  notEmpty := CondVar.covers_empty
  notFull := CondVar.covers_empty
  consumers := CondVar.holds_empty
  producers := CondVar.holds_empty

/-- A thread in another call, or in none, is not among the threads of `c`. -/
theorem InCall.not_mem {c : CondVar τ} {p : Bool} (h : c.Holds (InCall s p))
    (ht : (s.calls t).map Call.isPut ≠ some p) : t ∉ c.threads := fun hmem => ht (h.all t hmem)

/-- A call or a return of `t` leaves the calls of the other threads. -/
theorem InCall.frame {c : CondVar τ} {p : Bool} (h : c.Holds (InCall s p)) (ht : t ∉ c.threads)
    (hcalls : ∀ v, v ≠ t → u.calls v = s.calls v) : c.Holds (InCall u p) := by
  refine h.imp fun v hv hs => ?_
  have hne : v ≠ t := fun heq => ht (heq ▸ hv)
  rw [InCall, hcalls v hne]
  exact hs

end Frames

/-- A locked section of `put`. -/
theorem Inv.put {x : α} (h : Inv s) (hc : s.calls t = some (.put x)) (hb : ¬ s.Blocked t)
    (hu : { s with notFull := s.notFull.resume t }.put t x w = some (.ok u)) : Inv u := by
  have hnotFull := h.notFull.resume t
  have hproducers := h.producers.resume t
  have hin : t ∉ (s.notFull.resume t).threads :=
    h.producers.not_mem_resume fun hw => hb (.inr hw)
  have hother : t ∉ s.notEmpty.threads := InCall.not_mem h.consumers (by simp [hc, Call.isPut])
  rcases put_cases hu with ⟨hf, heq⟩ | ⟨hf, d, hd, heq⟩
  · obtain rfl := Except.ok.inj heq
    have hsize : cap = s.queue.size := by simpa [CircularBuffer.full] using hf
    refine { h with notFull := ?_, producers := hproducers.wait hin ?_ }
    · show (CondVar.wait _ t).Covers (cap - s.queue.size)
      rw [← hsize, Nat.sub_self]
      exact CondVar.covers_zero
    · show (s.calls t).map Call.isPut = some true
      rw [hc]
      rfl
  · obtain rfl := Except.ok.inj heq
    have hcalls : ∀ v, v ≠ t → Function.update s.calls t none v = s.calls v :=
      fun v hv => Function.update_of_ne hv _ _
    have hnot : ¬ s.queue.full = true := by rw [hf]; exact Bool.false_ne_true
    have hitems : (s.queue.pushBack x).items = s.queue.items ++ [x] := if_neg hnot
    have hover : s.queue.overwrites x = [] := if_neg hnot
    have hsize : (s.queue.pushBack x).size = s.queue.size + 1 := by
      rw [CircularBuffer.size, hitems, List.length_append, List.length_singleton]
      rfl
    refine ⟨?_, ?_, ?_, ?_, ?_, ?_⟩
    · show s.takes ++ (s.queue.pushBack x).items = s.puts ++ [x]
      rw [hitems, ← List.append_assoc, h.fifo]
    · show s.overwritten ++ s.queue.overwrites x = []
      rw [hover, h.kept]
      rfl
    · show d.Covers (s.queue.pushBack x).size
      rw [hsize]
      exact h.notEmpty.notifyOne hd
    · show (s.notFull.resume t).Covers (cap - (s.queue.pushBack x).size)
      rw [hsize, ← Nat.sub_sub]
      exact hnotFull
    · exact CondVar.Holds.notifyOne (InCall.frame h.consumers hother hcalls) hd
    · exact InCall.frame hproducers hin hcalls

/-- A locked section of `take`. -/
theorem Inv.take (h : Inv s) (hc : s.calls t = some .take) (hb : ¬ s.Blocked t)
    (hu : { s with notEmpty := s.notEmpty.resume t }.take t w = some (.ok u)) : Inv u := by
  have hnotEmpty := h.notEmpty.resume t
  have hconsumers := h.consumers.resume t
  have hin : t ∉ (s.notEmpty.resume t).threads :=
    h.consumers.not_mem_resume fun hw => hb (.inl hw)
  have hother : t ∉ s.notFull.threads := InCall.not_mem h.producers (by simp [hc, Call.isPut])
  rcases take_cases hu with ⟨hnil, heq⟩ | ⟨x, xs, d, hq, hd, heq⟩
  · obtain rfl := Except.ok.inj heq
    have hsize : s.queue.size = 0 := congrArg List.length hnil
    refine { h with notEmpty := ?_, consumers := hconsumers.wait hin ?_ }
    · show (CondVar.wait _ t).Covers s.queue.size
      rw [hsize]
      exact CondVar.covers_zero
    · show (s.calls t).map Call.isPut = some false
      rw [hc]
      rfl
  · obtain rfl := Except.ok.inj heq
    replace hq : s.queue.items = x :: xs := hq
    have hcalls : ∀ v, v ≠ t → Function.update s.calls t none v = s.calls v :=
      fun v hv => Function.update_of_ne hv _ _
    have hitems : s.queue.popFront.items = xs := congrArg List.tail hq
    have hsize : s.queue.size = s.queue.popFront.size + 1 := by
      rw [CircularBuffer.size, CircularBuffer.size, hitems, hq, List.length_cons]
    have hle : s.queue.size ≤ cap := s.queue.size_le
    refine ⟨?_, h.kept, ?_, ?_, ?_, ?_⟩
    · show s.takes ++ [x] ++ s.queue.popFront.items = s.puts
      rw [hitems, List.append_assoc, List.singleton_append, ← hq, h.fifo]
    · show (s.notEmpty.resume t).Covers s.queue.popFront.size
      rw [hsize, Nat.add_sub_cancel] at hnotEmpty
      exact hnotEmpty
    · show d.Covers (cap - s.queue.popFront.size)
      have hfree : cap - s.queue.popFront.size = cap - s.queue.size + 1 := by omega
      rw [hfree]
      exact h.notFull.notifyOne hd
    · exact InCall.frame hconsumers hin hcalls
    · exact CondVar.Holds.notifyOne (InCall.frame h.producers hother hcalls) hd

/-- **Step lemma**: every locked section of any thread, every call and every spurious wakeup keeps
the invariant. -/
theorem Inv.step {a : Action τ α} (h : Inv s) (hs : (machine τ α cap).Step s a u) : Inv u := by
  simp only [Machine.Step, machine] at hs
  cases a with
  | call t c =>
    obtain ⟨hidle, heq⟩ := guarded_eq.mp hs
    obtain rfl := Except.ok.inj heq
    rw [Option.isNone_iff_eq_none] at hidle
    have hcalls : ∀ v, v ≠ t → Function.update s.calls t (some c) v = s.calls v :=
      fun v hv => Function.update_of_ne hv _ _
    have hnone : ∀ p, (s.calls t).map Call.isPut ≠ some p := by simp [hidle]
    exact { h with
      consumers := InCall.frame h.consumers (InCall.not_mem h.consumers (hnone _)) hcalls
      producers := InCall.frame h.producers (InCall.not_mem h.producers (hnone _)) hcalls }
  | lock t w =>
    simp only [act] at hs
    split at hs
    · cases hs
    · next hb =>
      split at hs
      · cases hs
      · next x hc => exact h.put hc hb hs
      · next hc => exact h.take hc hb hs
  | wake t =>
    obtain ⟨-, heq⟩ := guarded_eq.mp hs
    obtain rfl := Except.ok.inj heq
    exact { h with
      notEmpty := h.notEmpty.wake t
      notFull := h.notFull.wake t
      consumers := h.consumers.wake t
      producers := h.producers.wake t }

/-- **Run lemma**: the invariant holds of every state reached. -/
theorem reach_inv (h : (machine τ α cap).Reach anyAction s) : Inv s := by
  refine Machine.Reach.induct ?_ ?_ h
  · rintro s rfl
    exact init_inv
  · intro s a u _ hi _ hs
    exact hi.step hs

/-- The assertions of `put` and `take` hold, and `take` has a front. -/
theorem no_faults (s : State τ α cap) (a : Action τ α) : ¬ (machine τ α cap).Faults s a := by
  rintro ⟨e, he⟩
  simp only [machine] at he
  cases a with
  | call t c => exact nomatch (guarded_eq.mp he).2
  | wake t => exact nomatch (guarded_eq.mp he).2
  | lock t w =>
    simp only [act] at he
    split at he
    · cases he
    · split at he
      · cases he
      · rcases put_cases he with ⟨-, heq⟩ | ⟨-, d, -, heq⟩
        · cases heq
        · cases heq
      · rcases take_cases he with ⟨-, heq⟩ | ⟨x, xs, d, -, -, heq⟩
        · cases heq
        · cases heq

/-! ## Bounded FIFO -/

/-- **The queue is a bounded FIFO without lost wakeups**: the elements taken are a prefix of those
put, nothing is overwritten, and while a thread waits un-notified, no more elements, or free slots,
are there than notified threads that have not resumed.  The threads of `notEmpty_` are distinct
callers of `take`, those of `notFull_` of `put`. -/
theorem bounded_fifo (h : (machine τ α cap).Reach anyAction s) :
    s.takes <+: s.puts ∧ s.queue.size ≤ cap ∧ s.overwritten = [] ∧
      (∀ t ∈ s.notEmpty.waiting, s.queue.size ≤ s.notEmpty.notified.length) ∧
      (∀ t ∈ s.notFull.waiting, cap - s.queue.size ≤ s.notFull.notified.length) ∧
      s.notEmpty.Holds (InCall s false) ∧ s.notFull.Holds (InCall s true) := by
  have hi := reach_inv h
  refine ⟨⟨_, hi.fifo⟩, s.queue.size_le, hi.kept, ?_, ?_, hi.consumers, hi.producers⟩
  · intro t ht
    exact hi.notEmpty (List.ne_nil_of_mem ht)
  · intro t ht
    exact hi.notFull (List.ne_nil_of_mem ht)

/-- Two consumers wait for one slot, the first is notified, and a third thread takes its element
before it resumes. -/
def stolenElement : List (Action ℕ ℕ) :=
  [.call 0 .take, .lock 0 none, .call 1 .take, .lock 1 none, .call 2 (.put 5), .lock 2 (some 0),
    .call 3 .take, .lock 3 none, .call 4 (.put 6), .lock 4 (some 1)]

theorem bounded_fifo_stolenElement : ∃ s : State ℕ ℕ 1,
    (machine ℕ ℕ 1).Reach anyAction s ∧ s.takes = [5] ∧ s.queue.items = [6] ∧
      s.notEmpty.notified = [0, 1] ∧ s.takes <+: s.puts ∧ s.overwritten = [] := by
  obtain ⟨s, hs, htakes, hitems, hnotified⟩ : ∃ s : State ℕ ℕ 1,
      (machine ℕ ℕ 1).exec anyAction init stolenElement = some s ∧ s.takes = [5] ∧
        s.queue.items = [6] ∧ s.notEmpty.notified = [0, 1] := ⟨_, rfl, rfl, rfl, rfl⟩
  have hr : (machine ℕ ℕ 1).Reach anyAction s := .of_exec (.init rfl) hs
  obtain ⟨hfifo, -, hkept, -⟩ := bounded_fifo hr
  exact ⟨s, hr, htakes, hitems, hnotified, hfifo, hkept⟩

end MengSen.BoundedBlockingQueue

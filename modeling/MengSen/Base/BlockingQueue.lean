import MengSen.Base.BoundedBlockingQueue

/-!
# Base.BlockingQueue — the unbounded queue, and the bounded one

`base/BlockingQueue.h` as a monitor, like `Base.BoundedBlockingQueue`: a step is a locked section, from
getting the mutex to the next `wait` or to the return.

`bounded cap s` is the state of a bounded queue whose producers never wait.  Every run of the queue is one
of the bounded queue with any capacity above the number of calls of `put` that have returned
(`exists_bounded`), and so what holds of the bounded queue holds here.
-/

namespace MengSen.BlockingQueue

open Machine (check guarded guarded_eq check_bind anyAction)
open BoundedBlockingQueue (Call)

/-- A call, a locked section or a spurious wakeup. -/
abbrev Action (τ α : Type) := BoundedBlockingQueue.Action τ α

inductive Fault
  | assertion
  /-- `front()` of an empty deque -/
  | noFront
  deriving DecidableEq

structure State (τ α : Type) where
  notEmpty : CondVar τ
  deque : List α
  calls : τ → Option (Call α)
  /-- the elements put, in the order of the critical sections -/
  puts : List α
  /-- the elements returned by `take`, in that order -/
  takes : List α

variable {τ α : Type}

/-- `deque_.front()`. -/
def front (deque : List α) : Except Fault α :=
  match deque with
  | [] => .error .noFront
  | x :: _ => .ok x

section Model

variable [DecidableEq τ]

namespace State

variable (s : State τ α)

def returns (t : τ) : State τ α := { s with calls := Function.update s.calls t none }

/-- `put` of the thread that holds the mutex; `w` is the waiter that its notification wakes. -/
def put (t : τ) (x : α) (w : Option τ) : Option (Except Fault (State τ α)) :=
  (s.notEmpty.notifyOne w).map fun notEmpty =>
    .ok { s.returns t with notEmpty := notEmpty, deque := s.deque ++ [x], puts := s.puts ++ [x] }

/-- `take` of the thread that holds the mutex. -/
def take (t : τ) : Except Fault (State τ α) :=
  if s.deque.isEmpty then .ok { s with notEmpty := s.notEmpty.wait t }
  else do
    check (s.deque.isEmpty = false) .assertion
    let x ← front s.deque
    return { s.returns t with deque := s.deque.tail, takes := s.takes ++ [x] }

end State

def act (s : State τ α) : Action τ α → Option (Except Fault (State τ α))
  | .call t c =>
    guarded (s.calls t).isNone { s with calls := Function.update s.calls t (some c) }
  | .lock t w =>
    if t ∈ s.notEmpty.waiting then none else
    match s.calls t with
    | none => none
    | some (.put x) => s.put t x w
    | some .take => some ({ s with notEmpty := s.notEmpty.resume t }.take t)
  | .wake t => guarded (t ∈ s.notEmpty.waiting) { s with notEmpty := s.notEmpty.wake t }

/-- The queue as it is built, before any call. -/
def init : State τ α where
  notEmpty := .empty
  deque := []
  calls _ := none
  puts := []
  takes := []

/-- The monitor: any number of callers, any order of locked sections, spurious wakeups. -/
def machine (τ α : Type) [DecidableEq τ] : Machine (State τ α) (Action τ α) Fault where
  init s := s = init
  act := act

end Model

/-! ## The bounded queue -/

/-- The bounded queue in which nobody waits for a free slot. -/
def bounded (cap : ℕ) (s : State τ α) (h : s.deque.length ≤ cap) :
    BoundedBlockingQueue.State τ α cap where
  notEmpty := s.notEmpty
  notFull := .empty
  queue := ⟨s.deque, h⟩
  calls := s.calls
  puts := s.puts
  takes := s.takes
  overwritten := []

variable [DecidableEq τ] {s u : State τ α} {t : τ} {w : Option τ} {cap : ℕ}

/-- `take` waits while the deque is empty, else it removes the front. -/
theorem take_cases {r : Except Fault (State τ α)} (h : s.take t = r) :
    (s.deque = [] ∧ r = .ok { s with notEmpty := s.notEmpty.wait t }) ∨
      ∃ x xs, s.deque = x :: xs ∧
        r = .ok { s.returns t with deque := xs, takes := s.takes ++ [x] } := by
  unfold State.take at h
  rcases hq : s.deque with _ | ⟨x, xs⟩
  · rw [hq] at h
    exact .inl ⟨rfl, h.symm⟩
  · rw [hq] at h
    exact .inr ⟨x, xs, rfl, h.symm⟩

/-- A locked section of `put`. -/
theorem bounded_put {x : α} {d : CondVar τ} (h : s.deque.length ≤ cap) (hroom : s.deque.length < cap)
    (hu : (s.deque ++ [x]).length ≤ cap) (hd : s.notEmpty.notifyOne w = some d) :
    (bounded cap s h).put t x w = some (.ok (bounded cap { s.returns t with
      notEmpty := d, deque := s.deque ++ [x], puts := s.puts ++ [x] } hu)) := by
  have hfull : (bounded cap s h).queue.full = false := by
    simp only [CircularBuffer.full, CircularBuffer.size, bounded, beq_eq_false_iff_ne]
    omega
  have hnot : ¬ (bounded cap s h).queue.full = true := by rw [hfull]; exact Bool.false_ne_true
  have hpush : (bounded cap s h).queue.pushBack x = ⟨s.deque ++ [x], hu⟩ := by
    simp only [CircularBuffer.pushBack, if_neg hnot]
    rfl
  have hover : (bounded cap s h).queue.overwrites x = [] := if_neg hnot
  have hnotify : (bounded cap s h).notEmpty.notifyOne w = some d := hd
  rw [BoundedBlockingQueue.State.put, if_neg hnot, hnotify, Option.map_some, check_bind _ hfull, hpush,
    hover]
  rfl

/-- A locked section of `take`. -/
theorem bounded_take {r : State τ α} (h : s.deque.length ≤ cap) (hr : s.take t = .ok r) :
    ∃ hu : r.deque.length ≤ cap, (bounded cap s h).take t none = some (.ok (bounded cap r hu)) := by
  rcases take_cases hr with ⟨hnil, heq⟩ | ⟨x, xs, hcons, heq⟩
  · obtain rfl := Except.ok.inj heq
    refine ⟨h, ?_⟩
    have hempty : (bounded cap s h).queue.empty = true := by
      simp [CircularBuffer.empty, CircularBuffer.size, bounded, hnil]
    rw [BoundedBlockingQueue.State.take, if_pos hempty]
    rfl
  · obtain rfl := Except.ok.inj heq
    have hle : xs.length ≤ cap := by
      rw [hcons, List.length_cons] at h
      omega
    refine ⟨hle, ?_⟩
    have hempty : (bounded cap s h).queue.empty = false := by
      simp [CircularBuffer.empty, CircularBuffer.size, bounded, hcons]
    have hnot : ¬ (bounded cap s h).queue.empty = true := by rw [hempty]; exact Bool.false_ne_true
    have hfront : BoundedBlockingQueue.front (bounded cap s h).queue = .ok x := by
      simp only [BoundedBlockingQueue.front, bounded, hcons]
    have hpop : (bounded cap s h).queue.popFront = ⟨xs, hle⟩ := by
      simp only [CircularBuffer.popFront, bounded, hcons, List.tail_cons]
    have hnotify : (bounded cap s h).notFull.notifyOne none = some .empty := rfl
    rw [BoundedBlockingQueue.State.take, if_neg hnot, hnotify, Option.map_some, check_bind _ hempty,
      hfront, hpop]
    rfl

/-- **A step of the queue** is one of a bounded queue that has a free slot. -/
theorem bounded_step {a : Action τ α} (hs : (machine τ α).Step s a u) (h : s.deque.length ≤ cap)
    (hroom : s.deque.length < cap) :
    ∃ b, ∃ hu : u.deque.length ≤ cap,
      (BoundedBlockingQueue.machine τ α cap).Step (bounded cap s h) b (bounded cap u hu) := by
  simp only [Machine.Step, machine] at hs
  cases a with
  | call t c =>
    obtain ⟨hidle, heq⟩ := guarded_eq.mp hs
    obtain rfl := Except.ok.inj heq
    exact ⟨.call t c, h, if_pos hidle⟩
  | lock t w =>
    simp only [act] at hs
    split at hs
    · cases hs
    · next hb =>
      have hblocked : ¬ (bounded cap s h).Blocked t := by
        rintro (hw | hw)
        · exact hb hw
        · cases hw
      split at hs
      · cases hs
      · next x hc =>
        obtain ⟨d, hd, heq⟩ := Option.map_eq_some_iff.mp hs
        obtain rfl := Except.ok.inj heq
        have hu : (s.deque ++ [x]).length ≤ cap := by
          rw [List.length_append, List.length_singleton]
          omega
        have hcalls : (bounded cap s h).calls t = some (.put x) := hc
        refine ⟨.lock t w, hu, ?_⟩
        show BoundedBlockingQueue.act (bounded cap s h) (.lock t w) = _
        simp only [BoundedBlockingQueue.act, if_neg hblocked, hcalls]
        exact bounded_put h hroom hu hd
      · next hc =>
        have hcalls : (bounded cap s h).calls t = some .take := hc
        obtain ⟨hu, htake⟩ := bounded_take (s := { s with notEmpty := s.notEmpty.resume t }) h
          (Option.some.inj hs)
        refine ⟨.lock t none, hu, ?_⟩
        show BoundedBlockingQueue.act (bounded cap s h) (.lock t none) = _
        simp only [BoundedBlockingQueue.act, if_neg hblocked, hcalls]
        exact htake
  | wake t =>
    obtain ⟨hw, heq⟩ := guarded_eq.mp hs
    obtain rfl := Except.ok.inj heq
    exact ⟨.wake t, h, if_pos (.inl hw)⟩

/-- A step puts at most one element. -/
theorem puts_le {a : Action τ α} (hs : (machine τ α).Step s a u) : s.puts.length ≤ u.puts.length := by
  simp only [Machine.Step, machine] at hs
  cases a with
  | call t c =>
    obtain ⟨-, heq⟩ := guarded_eq.mp hs
    obtain rfl := Except.ok.inj heq
    exact Nat.le_refl _
  | lock t w =>
    simp only [act] at hs
    split at hs
    · cases hs
    · split at hs
      · cases hs
      · obtain ⟨d, -, heq⟩ := Option.map_eq_some_iff.mp hs
        obtain rfl := Except.ok.inj heq
        show s.puts.length ≤ (s.puts ++ _).length
        rw [List.length_append]
        exact Nat.le_add_right _ _
      · rcases take_cases (Option.some.inj hs) with ⟨-, heq⟩ | ⟨x, xs, -, heq⟩
        · obtain rfl := Except.ok.inj heq
          exact Nat.le_refl _
        · obtain rfl := Except.ok.inj heq
          exact Nat.le_refl _
  | wake t =>
    obtain ⟨-, heq⟩ := guarded_eq.mp hs
    obtain rfl := Except.ok.inj heq
    exact Nat.le_refl _

/-- **Every run is one of the bounded queue**, with any capacity that is above the number of elements
put. -/
theorem exists_bounded (hr : (machine τ α).Reach anyAction s) (hcap : s.puts.length < cap) :
    ∃ h, (BoundedBlockingQueue.machine τ α cap).Reach anyAction (bounded cap s h) := by
  induction hr with
  | init hinit =>
    obtain rfl := hinit
    exact ⟨Nat.zero_le cap, .init rfl⟩
  | @step s u a hr _ hs ih =>
    obtain ⟨h, hreach⟩ := ih (Nat.lt_of_le_of_lt (puts_le hs) hcap)
    have hfifo : s.takes ++ s.deque = s.puts := (BoundedBlockingQueue.reach_inv hreach).fifo
    have hlen := congrArg List.length hfifo
    rw [List.length_append] at hlen
    have hle := puts_le hs
    obtain ⟨b, hu, hstep⟩ := bounded_step hs h (by omega)
    exact ⟨hu, .step hreach trivial hstep⟩

/-- The assertion of `take` holds, and there is a front. -/
theorem no_faults (s : State τ α) (a : Action τ α) : ¬ (machine τ α).Faults s a := by
  rintro ⟨e, he⟩
  simp only [machine] at he
  cases a with
  | call t c => cases (guarded_eq.mp he).2
  | wake t => cases (guarded_eq.mp he).2
  | lock t w =>
    simp only [act] at he
    split at he
    · cases he
    · split at he
      · cases he
      · obtain ⟨d, -, heq⟩ := Option.map_eq_some_iff.mp he
        cases heq
      · rcases take_cases (Option.some.inj he) with ⟨-, heq⟩ | ⟨x, xs, -, heq⟩
        · cases heq
        · cases heq

/-! ## Unbounded FIFO -/

/-- **The unbounded queue is a bounded one that never gets full**: each of its states is one of the
bounded queue, for every capacity above the number of elements put, in which no producer waits.  So the
elements taken are a prefix of those put; while a consumer waits un-notified, no more elements are there
than notified consumers that have not resumed; and those who wait are distinct callers of `take`. -/
theorem unbounded_fifo (hr : (machine τ α).Reach anyAction s) :
    (∀ cap, s.puts.length < cap → ∃ b : BoundedBlockingQueue.State τ α cap,
      (BoundedBlockingQueue.machine τ α cap).Reach anyAction b ∧ b.queue.items = s.deque ∧
        b.calls = s.calls ∧ b.notEmpty = s.notEmpty ∧ b.notFull = .empty ∧ b.puts = s.puts ∧
          b.takes = s.takes) ∧
    s.takes <+: s.puts ∧ (∀ a, ¬ (machine τ α).Faults s a) ∧
      (∀ t ∈ s.notEmpty.waiting, s.deque.length ≤ s.notEmpty.notified.length) ∧
      s.notEmpty.threads.Nodup ∧ ∀ t ∈ s.notEmpty.threads, s.calls t = some .take := by
  obtain ⟨h, hreach⟩ := exists_bounded hr (Nat.lt_succ_self s.puts.length)
  have hinv := BoundedBlockingQueue.reach_inv hreach
  refine ⟨fun cap hcap => ?_, ⟨s.deque, hinv.fifo⟩, no_faults s, fun t ht => ?_, hinv.consumers.nodup,
    fun t ht => ?_⟩
  · obtain ⟨h', hreach'⟩ := exists_bounded hr hcap
    exact ⟨_, hreach', rfl, rfl, rfl, rfl, rfl, rfl⟩
  · exact hinv.notEmpty (List.ne_nil_of_mem ht)
  · have hin : (s.calls t).map Call.isPut = some false := hinv.consumers.all t ht
    obtain ⟨c, hc, hput⟩ := Option.map_eq_some_iff.mp hin
    cases c with
    | put x => cases hput
    | take => exact hc

/-- Two producers come before the first of two consumers has resumed, and a third thread takes its
element. -/
def twoPuts : List (Action ℕ ℕ) :=
  [.call 0 .take, .lock 0 none, .call 1 .take, .lock 1 none, .call 2 (.put 5), .lock 2 (some 0),
    .call 4 (.put 6), .lock 4 (some 1), .call 3 .take, .lock 3 none]

theorem unbounded_fifo_twoPuts : ∃ s : State ℕ ℕ, (machine ℕ ℕ).Reach anyAction s ∧ s.takes = [5] ∧
    s.deque = [6] ∧ s.notEmpty.notified = [0, 1] ∧
      ∃ b : BoundedBlockingQueue.State ℕ ℕ 3,
        (BoundedBlockingQueue.machine ℕ ℕ 3).Reach anyAction b ∧ b.queue.items = [6] := by
  obtain ⟨s, hs, htakes, hdeque, hnotified, hputs⟩ : ∃ s : State ℕ ℕ,
      (machine ℕ ℕ).exec anyAction init twoPuts = some s ∧ s.takes = [5] ∧ s.deque = [6] ∧
        s.notEmpty.notified = [0, 1] ∧ s.puts = [5, 6] := ⟨_, rfl, rfl, rfl, rfl, rfl⟩
  have hr : (machine ℕ ℕ).Reach anyAction s := .of_exec (.init rfl) hs
  obtain ⟨hbounded, -⟩ := unbounded_fifo hr
  obtain ⟨b, hb, hitems, -⟩ := hbounded 3 (by rw [hputs]; decide)
  exact ⟨s, hr, htakes, hdeque, hnotified, b, hb, hitems.trans hdeque⟩

end MengSen.BlockingQueue

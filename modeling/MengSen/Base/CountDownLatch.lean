import MengSen.Lib.Machine
import MengSen.Lib.CondVar
import Mathlib.Data.Int.Notation
import Mathlib.Logic.Function.Basic

/-!
# Base.CountDownLatch — threads that wait for a count

`base/CountDownLatch.h` and `base/CountDownLatch.cpp` as a monitor: any of the threads `τ` may call
`wait` and `countDown`, and a step is a locked section.  `count_` is an `int`; counting it down
below its least value is undefined, here a fault.  The fields from `downs` on are ghosts.
-/

namespace MengSen.CountDownLatch

open Machine (check guarded guarded_eq check_bind_eq_ok anyAction)

inductive Fault
  | overflow
  deriving DecidableEq

def INT_MIN : ℤ := -2147483648

structure State (τ : Type) where
  condition : CondVar τ
  count : ℤ
  /-- the threads in a call of `wait` -/
  inWait : τ → Bool
  /-- the calls of `countDown` -/
  downs : ℕ
  /-- the threads whose `wait` has returned -/
  returned : List τ

inductive Action (τ : Type)
  /-- the thread calls `wait` -/
  | callWait (t : τ)
  /-- the thread gets the mutex in `wait`, for the first time or again -/
  | lock (t : τ)
  /-- the thread wakes up from `condition_.wait` by itself -/
  | wake (t : τ)
  | countDown

variable {τ : Type}

/-- The constructor. -/
def new (count : ℤ) : State τ where
  condition := .empty
  count := count
  inWait _ := false
  downs := 0
  returned := []

section Act

variable [DecidableEq τ]

/-- The test of the `while` loop of `wait`, by the thread that holds the mutex. -/
def State.wait (s : State τ) (t : τ) : State τ :=
  if 0 < s.count then
    { s with condition := s.condition.wait t }
  else
    { s with inWait := Function.update s.inWait t false, returned := s.returned ++ [t] }

def State.countDown (s : State τ) : Except Fault (State τ) := do
  check (INT_MIN < s.count) .overflow
  let count := s.count - 1
  return { s with
    count := count
    condition := if count = 0 then s.condition.notifyAll else s.condition
    downs := s.downs + 1 }

def act (s : State τ) : Action τ → Option (Except Fault (State τ))
  | .callWait t =>
    guarded (s.inWait t = false) { s with inWait := Function.update s.inWait t true }
  | .lock t =>
    guarded (s.inWait t = true ∧ t ∉ s.condition.waiting)
      ({ s with condition := s.condition.resume t }.wait t)
  | .wake t => guarded (t ∈ s.condition.waiting) { s with condition := s.condition.wake t }
  | .countDown => some s.countDown

end Act

/-- A latch that is made with `count`. -/
def machine (τ : Type) [DecidableEq τ] (count : ℤ) : Machine (State τ) (Action τ) Fault where
  init s := s = new count
  act := act

/-! ## The invariant -/

variable {s t : State τ} {n : ℤ}

structure Inv (n : ℤ) (s : State τ) : Prop where
  count : s.count = n - s.downs
  returned : s.returned ≠ [] → s.count ≤ 0
  waiting : s.condition.waiting ≠ [] → 0 < s.count
  callers : s.condition.Holds fun t => s.inWait t = true

theorem new_inv : Inv n (new n : State τ) where
  count := (Int.sub_zero n).symm
  returned := absurd rfl
  waiting := absurd rfl
  callers := CondVar.holds_empty

theorem countDown_eq_ok (h : s.countDown = .ok t) :
    INT_MIN < s.count ∧ { s with
      count := s.count - 1
      condition := if s.count - 1 = 0 then s.condition.notifyAll else s.condition
      downs := s.downs + 1 } = t := by
  obtain ⟨hc, ht⟩ := check_bind_eq_ok.mp h
  exact ⟨hc, Except.ok.inj ht⟩

/-- `countDown` notifies all when it reaches zero, and nobody waits below. -/
theorem Inv.countDown (h : Inv n s) (ht : s.countDown = .ok t) : Inv n t := by
  obtain ⟨-, rfl⟩ := countDown_eq_ok ht
  refine ⟨?_, fun hr => ?_, fun hw => ?_, ?_⟩
  · show s.count - 1 = n - ((s.downs + 1 : ℕ) : ℤ)
    have := h.count
    omega
  · have := h.returned hr
    show s.count - 1 ≤ 0
    omega
  · show 0 < s.count - 1
    by_cases hz : s.count - 1 = 0
    · simp only [if_pos hz, CondVar.notifyAll] at hw
      exact absurd rfl hw
    · simp only [if_neg hz] at hw
      have := h.waiting hw
      omega
  · show CondVar.Holds (if s.count - 1 = 0 then s.condition.notifyAll else s.condition) _
    split
    · exact h.callers.notifyAll
    · exact h.callers

variable [DecidableEq τ]

/-- A call or a return of `v` leaves the other threads where they are. -/
theorem holds_update {c : CondVar τ} {v : τ} {b : Bool} (h : c.Holds fun t => s.inWait t = true)
    (hv : v ∉ c.threads) : c.Holds fun t => Function.update s.inWait v b t = true := by
  refine h.imp fun u hu hs => ?_
  have hne : u ≠ v := fun heq => hv (heq ▸ hu)
  rwa [Function.update_of_ne hne]

/-- A locked section of `wait`. -/
theorem Inv.wait {v : τ} (h : Inv n s) (hin : s.inWait v = true) (hv : v ∉ s.condition.threads) :
    Inv n (s.wait v) := by
  unfold State.wait
  by_cases hc : 0 < s.count
  · rw [if_pos hc]
    exact { h with waiting := fun _ => hc, callers := h.callers.wait hv hin }
  · rw [if_neg hc]
    exact { h with returned := fun _ => Int.not_lt.mp hc, callers := holds_update h.callers hv }

/-- **Step lemma**: every locked section of any thread keeps the invariant. -/
theorem Inv.step {a : Action τ} (h : Inv n s) (hs : (machine τ n).Step s a t) : Inv n t := by
  simp only [Machine.Step, machine] at hs
  cases a with
  | callWait v =>
    obtain ⟨hv, ht⟩ := guarded_eq.mp hs
    obtain rfl := Except.ok.inj ht
    have hout : v ∉ s.condition.threads := fun hmem => by
      rw [h.callers.all v hmem] at hv
      cases hv
    exact { h with callers := holds_update h.callers hout }
  | lock v =>
    obtain ⟨⟨hin, hw⟩, ht⟩ := guarded_eq.mp hs
    obtain rfl := Except.ok.inj ht
    have hr : Inv n { s with condition := s.condition.resume v } :=
      { h with callers := h.callers.resume v }
    exact hr.wait hin (h.callers.not_mem_resume hw)
  | wake v =>
    obtain ⟨-, ht⟩ := guarded_eq.mp hs
    obtain rfl := Except.ok.inj ht
    refine { h with waiting := fun hw => h.waiting fun hnil => hw ?_, callers := h.callers.wake v }
    show s.condition.waiting.erase v = []
    rw [hnil, List.erase_nil]
  | countDown => exact h.countDown (Option.some.inj hs)

/-- **Run lemma**: the invariant holds of every state reached. -/
theorem reach_inv (h : (machine τ n).Reach anyAction s) : Inv n s := by
  refine Machine.Reach.induct ?_ ?_ h
  · rintro s rfl
    exact new_inv
  · intro s a t _ hi _ hs
    exact hi.step hs

/-- **The latch opens at the count and not before**: a `wait` returns only after at least `n` calls of
`countDown`, a thread that is blocked without a notification has fewer than `n` before it, so that
none is left behind when the count is reached, and `count_` overflows only after 2^31 calls more than
the count. -/
theorem latch_opens (h : (machine τ n).Reach anyAction s) :
    (s.returned ≠ [] → n ≤ s.downs) ∧ (s.condition.waiting ≠ [] → s.downs < n) ∧
      (s.condition.Holds fun t => s.inWait t = true) ∧
        ((machine τ n).Faults s .countDown → n + 2147483648 ≤ s.downs) := by
  have hi := reach_inv h
  have hcount := hi.count
  refine ⟨fun hr => ?_, fun hw => ?_, hi.callers, fun ⟨e, he⟩ => ?_⟩
  · have := hi.returned hr
    omega
  · have := hi.waiting hw
    omega
  · by_contra hlt
    have hmin : INT_MIN < s.count := by
      rw [hcount, INT_MIN]
      omega
    simp only [machine, act, State.countDown, Machine.check_bind _ hmin] at he
    cases he

/-- Two threads wait for two calls; one wakes up early by itself and waits again. -/
def twoWaiters : List (Action ℕ) :=
  [.callWait 0, .lock 0, .callWait 1, .lock 1, .countDown, .wake 0, .lock 0, .countDown, .lock 1,
    .lock 0]

theorem latch_opens_twoWaiters : ∃ s : State ℕ, (machine ℕ 2).Reach anyAction s ∧
    s.returned = [1, 0] ∧ s.condition.waiting = [] ∧ (2 : ℤ) ≤ s.downs := by
  obtain ⟨s, hs, hret, hw⟩ : ∃ s : State ℕ, (machine ℕ 2).exec anyAction (new 2) twoWaiters = some s ∧
      s.returned = [1, 0] ∧ s.condition.waiting = [] := ⟨_, rfl, rfl, rfl⟩
  have hr : (machine ℕ 2).Reach anyAction s := .of_exec (.init rfl) hs
  exact ⟨s, hr, hret, hw, (latch_opens hr).1 (by simp [hret])⟩

end MengSen.CountDownLatch

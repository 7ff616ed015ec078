import MengSen.Base.Timestamp
import Mathlib.Data.Prod.Lex

/-!
# Net.Timer — timers, their ids and the keys of the two indexes

`net/Timer.h`, `net/TimerId.h` and the key types of `net/TimerQueue.h`.  A `Timer*` is an address.
The callback of a timer is left out: what a callback does is up to the actions taken while it runs.
-/

namespace MengSen

/-- A `Timer*`. -/
abbrev Addr := ℕ

/-- The largest pointer value; no object has this address. -/
def UINTPTR_MAX : Addr := 2 ^ 64 - 1

structure Timer (D : Type) where
  expiration : ℕ
  interval : D
  repeat_ : Bool
  sequence : ℕ

namespace Timer

variable {D : Type} [Seconds D]

/-- The constructor, `numCreated` being the value of `s_numCreated_` before.  The parameter `when`
is a `uint16_t`. -/
def make (when : ℕ) (interval : D) (numCreated : ℕ) : Timer D where
  expiration := Word.wrap 16 when
  interval := interval
  repeat_ := Seconds.isPos interval
  sequence := numCreated + 1

def restart (t : Timer D) (now : ℕ) : Timer D :=
  if t.repeat_ then { t with expiration := Timestamp.addTime now t.interval }
  else { t with expiration := Timestamp.invalid }

@[simp] theorem restart_sequence (t : Timer D) (now : ℕ) :
    (t.restart now).sequence = t.sequence := by
  unfold restart
  split <;> rfl

@[simp] theorem restart_repeat_ (t : Timer D) (now : ℕ) : (t.restart now).repeat_ = t.repeat_ := by
  unfold restart
  split <;> rfl

end Timer

/-- `TimerQueue::Entry`, ordered by expiration and then by address. -/
@[ext] structure Entry where
  expiration : ℕ
  timer : Addr
  deriving DecidableEq

instance : LinearOrder Entry :=
  LinearOrder.lift' (fun e => toLex (e.expiration, e.timer)) fun e f h => by
    cases e
    cases f
    simpa using h

theorem Entry.lt_iff {e f : Entry} :
    e < f ↔ e.expiration < f.expiration ∨ e.expiration = f.expiration ∧ e.timer < f.timer :=
  Prod.Lex.toLex_lt_toLex

theorem Entry.expiration_le {e f : Entry} (h : e ≤ f) : e.expiration ≤ f.expiration := by
  rcases lt_or_eq_of_le h with h | rfl
  · rcases Entry.lt_iff.mp h with h | ⟨h, -⟩
    · exact h.le
    · exact h.le
  · exact le_rfl

/-- `TimerQueue::ActiveTimer`, ordered by address and then by sequence number. -/
@[ext] structure ActiveTimer where
  timer : Addr
  sequence : ℕ
  deriving DecidableEq

instance : LinearOrder ActiveTimer :=
  LinearOrder.lift' (fun p => toLex (p.timer, p.sequence)) fun p q h => by
    cases p
    cases q
    simpa using h

/-- A `TimerId` is the same pair. -/
abbrev TimerId := ActiveTimer

end MengSen

import Mathlib.Data.List.Basic
import Mathlib.Data.Nat.Notation

/-!
# Lib.CondVar — condition variables of a monitor

The threads blocked in `wait` on a condition variable, and those that a notification has woken and
that do not hold the mutex again yet.  Which waiter `notify_one` wakes is an argument; a waiter that
wakes up by itself just leaves.

`Covers c n`: either nobody waits, or `n` units of what the waiters wait for are matched by
notifications under way.  It is the invariant behind "no lost wakeup": a unit comes with a
notification, a woken thread takes at most one unit, and whoever waits has found none.  `Holds c P`
tells whose threads they are.
-/

universe u

/-- The threads that an operation `wait` of a condition variable has blocked. -/
structure CondVar (τ : Type u) where
  waiting : List τ
  notified : List τ

namespace CondVar

variable {τ : Type u} {c d : CondVar τ} {m n : ℕ}

/-! ## Operations -/

/-- Nobody waits. -/
def empty : CondVar τ := ⟨[], []⟩

/-- The thread `t` releases the mutex and blocks. -/
def wait (c : CondVar τ) (t : τ) : CondVar τ := { c with waiting := c.waiting ++ [t] }

/-- Every waiter is woken. -/
def notifyAll (c : CondVar τ) : CondVar τ := ⟨[], c.notified ++ c.waiting⟩

/-- One waiter is woken, `w`, if there is any. -/
def notifyOne [DecidableEq τ] (c : CondVar τ) : Option τ → Option (CondVar τ)
  | none => if c.waiting = [] then some c else none
  | some w => if w ∈ c.waiting then some ⟨c.waiting.erase w, c.notified ++ [w]⟩ else none

/-- The thread `t` holds the mutex again. -/
def resume [DecidableEq τ] (c : CondVar τ) (t : τ) : CondVar τ :=
  { c with notified := c.notified.erase t }

/-- The thread `t` wakes up without a notification. -/
def wake [DecidableEq τ] (c : CondVar τ) (t : τ) : CondVar τ :=
  { c with waiting := c.waiting.erase t }

/-- The threads blocked in `wait` and those woken by a notification. -/
def threads (c : CondVar τ) : List τ := c.waiting ++ c.notified

/-- Either nobody waits, or `n` notifications are under way. -/
def Covers (c : CondVar τ) (n : ℕ) : Prop := c.waiting ≠ [] → n ≤ c.notified.length

/-- The threads of `c` are distinct, and all are at the point `P`. -/
structure Holds (c : CondVar τ) (P : τ → Prop) : Prop where
  nodup : c.threads.Nodup
  all : ∀ t ∈ c.threads, P t

/-- `notify_one` wakes nobody when nobody waits, else the waiter `w`. -/
theorem notifyOne_eq_some [DecidableEq τ] {w : Option τ} (hd : c.notifyOne w = some d) :
    (w = none ∧ c.waiting = [] ∧ d = c) ∨
      ∃ t, w = some t ∧ t ∈ c.waiting ∧ d = ⟨c.waiting.erase t, c.notified ++ [t]⟩ := by
  rcases w with _ | w
  · obtain ⟨hnil, heq⟩ := Option.ite_none_right_eq_some.mp hd
    exact .inl ⟨rfl, hnil, (Option.some.inj heq).symm⟩
  · obtain ⟨hmem, heq⟩ := Option.ite_none_right_eq_some.mp hd
    exact .inr ⟨w, rfl, hmem, (Option.some.inj heq).symm⟩

theorem notifyOne_waiting_nil [DecidableEq τ] {w : Option τ} (hc : c.waiting = [])
    (hd : c.notifyOne w = some d) : d.waiting = [] := by
  rcases notifyOne_eq_some hd with ⟨-, hnil, rfl⟩ | ⟨t, -, hmem, rfl⟩
  · exact hnil
  · exact absurd hc (List.ne_nil_of_mem hmem)

/-! ## Notifications under way -/

theorem covers_zero : c.Covers 0 := fun _ => Nat.zero_le _

theorem covers_empty : (empty : CondVar τ).Covers n := fun h => absurd rfl h

theorem covers_notifyAll : c.notifyAll.Covers n := fun h => absurd rfl h

section

variable [DecidableEq τ]

/-- A new unit comes with a notification. -/
theorem Covers.notifyOne {w : Option τ} (h : c.Covers n) (hd : c.notifyOne w = some d) :
    d.Covers (n + 1) := by
  intro hw
  rcases notifyOne_eq_some hd with ⟨-, hnil, rfl⟩ | ⟨t, -, hmem, rfl⟩
  · exact absurd hnil hw
  · have hn := h (List.ne_nil_of_mem hmem)
    show n + 1 ≤ (c.notified ++ [t]).length
    rw [List.length_append, List.length_singleton]
    omega

/-- A woken thread takes at most one unit. -/
theorem Covers.resume (h : c.Covers n) (t : τ) : (c.resume t).Covers (n - 1) := by
  intro hw
  have hn : n ≤ c.notified.length := h hw
  have hlen : c.notified.length - 1 ≤ (c.notified.erase t).length := List.le_length_erase
  show n - 1 ≤ (c.notified.erase t).length
  omega

theorem Covers.wake (h : c.Covers n) (t : τ) : (c.wake t).Covers n := by
  intro hw
  refine h fun hnil => hw ?_
  show c.waiting.erase t = []
  rw [hnil, List.erase_nil]

end

/-! ## The threads -/

theorem mem_threads {t : τ} : t ∈ c.threads ↔ t ∈ c.waiting ∨ t ∈ c.notified := List.mem_append

theorem threads_wait_perm (t : τ) : (c.wait t).threads.Perm (t :: c.threads) := by
  show (c.waiting ++ [t] ++ c.notified).Perm (t :: (c.waiting ++ c.notified))
  rw [List.append_assoc]
  exact List.perm_middle

theorem threads_notifyAll_perm : c.notifyAll.threads.Perm c.threads := by
  show (c.notified ++ c.waiting).Perm (c.waiting ++ c.notified)
  exact List.perm_append_comm

variable {P Q : τ → Prop}

theorem holds_empty : (empty : CondVar τ).Holds P := ⟨List.nodup_nil, nofun⟩

theorem Holds.imp (h : c.Holds P) (hPQ : ∀ t ∈ c.threads, P t → Q t) : c.Holds Q :=
  ⟨h.nodup, fun t ht => hPQ t ht (h.all t ht)⟩

theorem Holds.sublist (h : c.Holds P) (hd : d.threads.Sublist c.threads) : d.Holds P :=
  ⟨h.nodup.sublist hd, fun t ht => h.all t (hd.subset ht)⟩

theorem Holds.perm (h : c.Holds P) (hd : d.threads.Perm c.threads) : d.Holds P :=
  ⟨hd.nodup_iff.mpr h.nodup, fun t ht => h.all t (hd.mem_iff.mp ht)⟩

theorem Holds.wait {t : τ} (h : c.Holds P) (ht : t ∉ c.threads) (hP : P t) :
    (c.wait t).Holds P := by
  have hc : (t :: c.threads).Nodup := List.nodup_cons.mpr ⟨ht, h.nodup⟩
  refine ⟨(threads_wait_perm t).nodup_iff.mpr hc, fun u hu => ?_⟩
  rcases List.mem_cons.mp ((threads_wait_perm t).mem_iff.mp hu) with rfl | hu
  · exact hP
  · exact h.all u hu

theorem Holds.notifyAll (h : c.Holds P) : c.notifyAll.Holds P := h.perm threads_notifyAll_perm

section

variable [DecidableEq τ]

theorem Holds.notifyOne {w : Option τ} (h : c.Holds P) (hd : c.notifyOne w = some d) :
    d.Holds P := by
  rcases notifyOne_eq_some hd with ⟨-, -, rfl⟩ | ⟨t, -, hmem, rfl⟩
  · exact h
  · refine h.perm ?_
    show (c.waiting.erase t ++ (c.notified ++ [t])).Perm (c.waiting ++ c.notified)
    rw [← List.append_assoc]
    exact List.perm_append_comm.trans ((List.perm_cons_erase hmem).symm.append_right c.notified)

theorem Holds.resume (h : c.Holds P) (t : τ) : (c.resume t).Holds P :=
  h.sublist (List.erase_sublist.append_left _)

theorem Holds.wake (h : c.Holds P) (t : τ) : (c.wake t).Holds P :=
  h.sublist (List.erase_sublist.append_right _)

/-- A thread that runs is not among the threads any more. -/
theorem Holds.not_mem_resume {t : τ} (h : c.Holds P) (ht : t ∉ c.waiting) :
    t ∉ (c.resume t).threads := by
  intro hmem
  rcases mem_threads.mp hmem with hw | hn
  · exact ht hw
  · have hnodup : c.notified.Nodup := h.nodup.sublist (List.sublist_append_right _ _)
    exact hnodup.not_mem_erase hn

end

end CondVar

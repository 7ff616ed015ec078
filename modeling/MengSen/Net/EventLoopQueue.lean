import MengSen.Net.EventLoop
import Mathlib.Data.List.Basic

/-!
# Net.EventLoopQueue — the order of the functors

`Inv`: the functors executed, the rest of the batch and the pending functors are the pushes in the
order of their critical sections; what the loop thread is in, its flags tell.  `Inv.step` covers
every action of every thread, `reach_inv` every run.
-/

namespace MengSen.EventLoop

open Machine (guarded_eq check_bind anyAction)

variable {Φ τ : Type} {s t : State Φ τ}

/-! ## The queue -/

/-- A batch is taken out and not done yet. -/
def Pc.inBatch : Pc → Bool
  | .draining | .functor => true
  | _ => false

/-- The invariant of the functor queue. -/
structure Inv (s : State Φ τ) : Prop where
  queue : s.executed ++ s.functors ++ s.pendingFunctors = s.pushes
  batch : s.pc.inBatch = true → s.executed.length + s.functors.length = s.swapped
  drained : s.pc.inBatch = false → s.functors = []
  looping : s.looping = true ↔ s.pc ≠ .outside
  calling : s.callingPendingFunctors = true ↔ s.pc = .beforeSwap ∨ s.pc.inBatch = true
  self : s.self ≠ .idle → s.pc = .functor

theorem init_inv : Inv (init : State Φ τ) := by
  constructor <;> simp [init, Pc.inBatch]

/-- The queue equation survives a push at its end. -/
theorem Inv.push (h : Inv s) (cb : Φ) :
    (s.push cb).executed ++ (s.push cb).functors ++ (s.push cb).pendingFunctors =
      (s.push cb).pushes := by
  simp only [State.push]
  rw [← h.queue, List.append_assoc, List.append_assoc, List.append_assoc]

/-- The functors pushed and not called yet. -/
def State.waiting (s : State Φ τ) : List Φ := s.functors ++ s.pendingFunctors

/-- What an action does to them. -/
def Action.waiting : Action Φ τ → List Φ → List Φ
  | .startFunctor, l => l.tail
  | .selfQueue cb, l | .queue _ cb, l => l ++ [cb]
  | _, l => l

variable [DecidableEq τ]

/-- **Step lemma of the queue**: every action of any thread keeps the invariant. -/
theorem Inv.step {a : Action Φ τ} (h : Inv s) (hs : (machine Φ τ).Step s a t) : Inv t := by
  have hpush := h.push
  obtain ⟨hqueue, hbatch, hdrained, hlooping, hcalling, hself⟩ := h
  cases a
  case callLoop =>
    obtain ⟨hpc, hidle, rfl⟩ := step_callLoop hs
    constructor <;> simp_all [Pc.inBatch]
  case startFunctor =>
    obtain ⟨cb, rest, hf, hpc, rfl⟩ := step_startFunctor hs
    have hlen := hbatch (by rw [hpc]; rfl)
    rw [hf] at hqueue hlen
    refine ⟨?_, ?_, ?_, ?_, ?_, ?_⟩
    · show s.executed ++ [cb] ++ rest ++ s.pendingFunctors = s.pushes
      rw [← hqueue, List.append_assoc s.executed [cb] rest]
      rfl
    · intro _
      show (s.executed ++ [cb]).length + rest.length = s.swapped
      rw [← hlen, List.length_append, List.length_singleton, List.length_cons]
      omega
    · intro hb
      cases hb
    · exact hlooping.trans (by simp [hpc])
    · exact hcalling.trans (by simp [hpc, Pc.inBatch])
    · exact fun _ => rfl
  all_goals simp only [Machine.Step, machine, act, guarded_eq, Except.ok.injEq] at hs
  case swap =>
    obtain ⟨hpc, rfl⟩ := hs
    have hnil : s.functors = [] := hdrained (by rw [hpc]; rfl)
    have hidle : s.self = .idle := by
      by_contra hne
      have := hself hne
      rw [hpc] at this
      cases this
    have hall : s.executed ++ s.pendingFunctors = s.pushes := by
      rw [← hqueue, hnil, List.append_nil]
    refine ⟨?_, ?_, ?_, ?_, ?_, ?_⟩
    · show s.executed ++ s.pendingFunctors ++ s.functors = s.pushes
      rw [hnil, List.append_nil]
      exact hall
    · intro _
      show s.executed.length + s.pendingFunctors.length = s.pushes.length
      rw [← hall, List.length_append]
    · intro hb
      cases hb
    · exact hlooping.trans (by simp [hpc])
    · exact hcalling.trans (by simp [hpc, Pc.inBatch])
    · exact fun hne => absurd hidle hne
  case whileTest =>
    obtain ⟨hpc, rfl⟩ := hs
    cases s.quit <;> constructor <;> simp_all [Pc.inBatch]
  case selfQueue cb =>
    obtain ⟨⟨hpc, hidle⟩, rfl⟩ := hs
    refine ⟨hpush cb, hbatch, hdrained, hlooping, hcalling, ?_⟩
    -- outside a functor no batch is out, so no wakeup is owed
    intro hne
    by_cases hcall : s.callingPendingFunctors = true
    · rcases hpc with hpc | hpc | hpc <;> simp_all [State.push, Pc.inBatch]
    · exact absurd (if_neg hcall) hne
  case queue t cb =>
    obtain ⟨-, rfl⟩ := hs
    exact ⟨hpush cb, hbatch, hdrained, hlooping, hcalling, hself⟩
  all_goals
    obtain ⟨hpc, rfl⟩ := hs
    constructor <;> simp_all [Pc.inBatch, State.handleRead, State.wakeup, State.setQuit]

theorem Inv.waiting_step {a : Action Φ τ} (h : Inv s) (hs : (machine Φ τ).Step s a t) :
    t.waiting = a.waiting s.waiting := by
  cases a
  case callLoop =>
    obtain ⟨-, -, rfl⟩ := step_callLoop hs
    rfl
  case startFunctor =>
    obtain ⟨cb, rest, hf, -, rfl⟩ := step_startFunctor hs
    show rest ++ s.pendingFunctors = (s.functors ++ s.pendingFunctors).tail
    rw [hf]
    rfl
  all_goals simp only [Machine.Step, machine, act, guarded_eq, Except.ok.injEq] at hs
  case swap =>
    obtain ⟨hpc, rfl⟩ := hs
    have hnil : s.functors = [] := h.drained (by rw [hpc]; rfl)
    show s.pendingFunctors ++ s.functors = s.functors ++ s.pendingFunctors
    rw [hnil, List.append_nil, List.nil_append]
  case selfQueue cb | queue t cb =>
    obtain ⟨-, rfl⟩ := hs
    exact (List.append_assoc ..).symm
  all_goals
    obtain ⟨-, rfl⟩ := hs
    rfl

/-- A functor that is called leaves the front. -/
theorem Inv.waiting_call {u : State Φ τ} {cb : Φ} {rest : List Φ} (h : Inv s)
    (hf : s.functors = cb :: rest) (hs : (machine Φ τ).Step s .startFunctor t)
    (ht : (machine Φ τ).Step t .functorReturns u) : s.waiting = cb :: u.waiting := by
  have hstart : t.waiting = s.waiting.tail := h.waiting_step hs
  have hreturn : u.waiting = t.waiting := (h.step hs).waiting_step ht
  rw [hreturn, hstart, State.waiting, hf]
  rfl

theorem reach_inv {ok : State Φ τ → Action Φ τ → Prop} (h : (machine Φ τ).Reach ok s) : Inv s := by
  refine Machine.Reach.induct (I := Inv) ?_ ?_ h
  · rintro s rfl
    exact init_inv
  · exact fun s a t _ hi _ hs => hi.step hs

/-- The functor at the front of the batch can be called, and may return at once. -/
theorem Inv.call_enabled (h : Inv s) (hpc : s.pc = .draining) {cb : Φ} {rest : List Φ}
    (hf : s.functors = cb :: rest) :
    ∃ t u, (machine Φ τ).Step s .startFunctor t ∧ (machine Φ τ).Step t .functorReturns u := by
  have hidle : s.self = .idle := by
    by_contra hne
    have hfunctor := h.self hne
    rw [hpc] at hfunctor
    cases hfunctor
  have hcall : (machine Φ τ).Step s .startFunctor
      { s with functors := rest, executed := s.executed ++ [cb], pc := .functor } := by
    simp only [Machine.Step, machine, act, hf]
    exact guarded_eq.mpr ⟨hpc, rfl⟩
  exact ⟨_, _, hcall, guarded_eq.mpr ⟨⟨rfl, hidle⟩, rfl⟩⟩

/-- No assert fails. -/
theorem Inv.act_ne_error (h : Inv s) (a : Action Φ τ) (e : Fault) :
    act s a ≠ some (.error e) := by
  intro he
  cases a
  case callLoop =>
    obtain ⟨⟨hpc, -⟩, he⟩ := Option.ite_none_right_eq_some.mp he
    -- outside `loop` nobody has set `looping_`
    have hlooping : s.looping = false := by
      by_contra hne
      exact h.looping.mp (by simpa using hne) hpc
    rw [check_bind _ hlooping] at he
    cases he
  case startFunctor =>
    simp only [act] at he
    split at he
    · cases he
    · simp [guarded_eq] at he
  all_goals simp [act, guarded_eq] at he

/-- **Queued functors run once and in order**: at every point of every run the functors executed,
the rest of the batch and the pending functors are the pushes in the order of the critical sections;
while a batch is drained, executed and rest are the pushes before its swap, so a functor pushed
during the batch is not of it. -/
theorem functors_in_order (h : (machine Φ τ).Reach anyAction s) :
    s.executed ++ s.functors ++ s.pendingFunctors = s.pushes ∧
      (s.pc.inBatch = true →
        s.executed ++ s.functors = s.pushes.take s.swapped ∧
          s.pendingFunctors = s.pushes.drop s.swapped) := by
  have hi := reach_inv h
  refine ⟨hi.queue, fun hb => ?_⟩
  have hlen : (s.executed ++ s.functors).length = s.swapped := by
    rw [List.length_append]
    exact hi.batch hb
  rw [← hi.queue, ← hlen]
  exact ⟨List.take_left.symm, List.drop_left.symm⟩

/-- A thread pushes 1 before the loop starts; functor 1 pushes 2, another thread pushes 3. -/
def nestedPushes : List (Action ℕ Bool) :=
  [.queue true 1, .callLoop, .clearQuit, .whileTest, .wakeup true, .pollReturns true, .handleRead,
    .eventsDone, .swap, .startFunctor, .selfQueue 2, .queue false 3]

theorem functors_in_order_nestedPushes : ∃ s : State ℕ Bool,
    (machine ℕ Bool).Reach anyAction s ∧ s.executed = [1] ∧ s.pendingFunctors = [2, 3] ∧
      s.executed ++ s.functors ++ s.pendingFunctors = s.pushes := by
  obtain ⟨s, hs, hexec, hpend⟩ : ∃ s : State ℕ Bool,
      (machine ℕ Bool).exec anyAction init nestedPushes = some s ∧ s.executed = [1] ∧
        s.pendingFunctors = [2, 3] := ⟨_, rfl, rfl, rfl⟩
  have hr : (machine ℕ Bool).Reach anyAction s := .of_exec (.init rfl) hs
  exact ⟨s, hr, hexec, hpend, (functors_in_order hr).1⟩

end MengSen.EventLoop

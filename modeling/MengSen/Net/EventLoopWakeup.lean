import MengSen.Net.EventLoopQueue

/-!
# Net.EventLoopWakeup — no wakeup is lost

`queueInLoop` of the loop thread leaves the wakeup out unless functors are being run, and
`handleRead` resets the counter at another point of the iteration than the swap.  `Woken`: a pending
functor is behind a wakeup that has happened or that its pusher still owes, or the swap of the
running iteration comes before the next poll.
-/

namespace MengSen.EventLoop

open Machine (guarded_eq)

variable {Φ τ : Type} [DecidableEq τ] {s t : State Φ τ}

/-- The loop thread swaps the queue before it polls again. -/
def Pc.swapsFirst : Pc → Bool
  | .handling | .beforeSwap => true
  | _ => false

/-- The push with the number `k` is in `pendingFunctors_`. -/
def Pending (s : State Φ τ) (k : ℕ) : Prop :=
  s.executed.length + s.functors.length ≤ k ∧ k < s.pushes.length

/-- Someone has woken the loop thread, or owes it for the push `k`. -/
def WakeupFor (s : State Φ τ) (k : ℕ) : Prop :=
  0 < s.wakeupFd ∨ s.self = .pushed k ∨ ∃ t, s.callers t = .pushed k

/-- The invariant of the wakeups. -/
structure Woken (s : State Φ τ) : Prop where
  pending : ∀ k, Pending s k → s.pc.swapsFirst = true ∨ WakeupFor s k
  quit : s.pc = .polling → s.quit = true → 0 < s.wakeupFd ∨ ∃ t, s.callers t = .quitSet

/-- The loop thread calls `queueInLoop` inside `loop` only. -/
def PushesInLoop (s : State Φ τ) : Action Φ τ → Prop
  | .selfQueue _ => s.pc ≠ .outside
  | _ => True

section Frames

omit [DecidableEq τ]

/-- Steps of the loop thread that neither push nor touch the eventfd, and poll only when `quit_` is
not set. -/
theorem Woken.move (h : Woken s) (hpush : t.pushes = s.pushes)
    (hout : t.executed.length + t.functors.length = s.executed.length + s.functors.length)
    (hfd : t.wakeupFd = s.wakeupFd) (hself : t.self = s.self) (hcallers : t.callers = s.callers)
    (hswap : s.pc.swapsFirst = true → t.pc.swapsFirst = true)
    (hpoll : t.pc = .polling → t.quit = false) : Woken t := by
  refine ⟨fun k hk => ?_, fun hp hq => ?_⟩
  · have hk' : Pending s k := by
      rw [Pending, hpush, hout] at hk
      exact hk
    rcases h.pending k hk' with hw | hw
    · exact .inl (hswap hw)
    · refine .inr ?_
      rw [WakeupFor, hfd, hself, hcallers]
      exact hw
  · rw [hpoll hp] at hq
    cases hq

/-- A wakeup, done or owed, stays while nobody reads the counter or comes out of its call. -/
theorem WakeupFor.keep {k : ℕ} (h : WakeupFor s k) (hfd : t.wakeupFd = s.wakeupFd)
    (hself : s.self = .pushed k → t.self = .pushed k)
    (hcallers : ∀ u, s.callers u = .pushed k → t.callers u = .pushed k) : WakeupFor t k := by
  rcases h with h | h | ⟨u, hu⟩
  · exact .inl (hfd ▸ h)
  · exact .inr (.inl (hself h))
  · exact .inr (.inr ⟨u, hcallers u hu⟩)

/-- The pushes pending after one more push. -/
theorem Pending.of_push {cb : Φ} {k : ℕ} (h : Pending (s.push cb) k) :
    k = s.pushes.length ∨ Pending s k := by
  obtain ⟨hge, hlt⟩ := h
  simp only [State.push, List.length_append, List.length_singleton] at hge hlt
  by_cases hk : k = s.pushes.length
  · exact .inl hk
  · exact .inr ⟨hge, by omega⟩

end Frames

/-- A thread that was outside a call owed nothing. -/
theorem update_callers {u t : τ} {c c' : Caller} (hidle : s.callers t = .idle) (hc : c ≠ .idle)
    (hu : s.callers u = c) : Function.update s.callers t c' u = c := by
  have hne : u ≠ t := by
    rintro rfl
    exact hc (hu.symm.trans hidle)
  rw [Function.update_of_ne hne]
  exact hu

instance : ∀ (s : State Φ τ) (a : Action Φ τ), Decidable (PushesInLoop s a)
  | s, .selfQueue _ => inferInstanceAs (Decidable (s.pc ≠ .outside))
  | _, .callLoop | _, .clearQuit | _, .whileTest | _, .pollReturns _ | _, .handleRead
  | _, .eventsDone | _, .swap | _, .startFunctor | _, .functorReturns | _, .drainDone
  | _, .loopReturns | _, .selfWakeup | _, .selfQuit | _, .queue _ _ | _, .setQuit _
  | _, .wakeup _ => inferInstanceAs (Decidable True)

/-- **Step lemma**: no step leaves a pushed functor or a `quit` without its wakeup. -/
theorem Woken.step {a : Action Φ τ} (h : Woken s) (hi : Inv s) (ha : PushesInLoop s a)
    (hs : (machine Φ τ).Step s a t) : Woken t := by
  cases a
  case callLoop =>
    obtain ⟨hpc, -, rfl⟩ := step_callLoop hs
    exact h.move rfl rfl rfl rfl rfl (by simp [hpc, Pc.swapsFirst]) (by simp)
  case startFunctor =>
    obtain ⟨cb, rest, hf, hpc, rfl⟩ := step_startFunctor hs
    refine h.move rfl ?_ rfl rfl rfl (by simp [hpc, Pc.swapsFirst]) (by simp)
    show (s.executed ++ [cb]).length + rest.length = s.executed.length + s.functors.length
    rw [hf, List.length_append, List.length_singleton, List.length_cons]
    omega
  all_goals simp only [Machine.Step, machine, act, guarded_eq, Except.ok.injEq] at hs
  case whileTest =>
    obtain ⟨hpc, rfl⟩ := hs
    refine h.move rfl rfl rfl rfl rfl (by simp [hpc, Pc.swapsFirst]) fun hp => ?_
    by_contra hq
    simp [hq] at hp
  case pollReturns =>
    obtain ⟨-, rfl⟩ := hs
    exact ⟨fun k _ => .inl rfl, fun hp => by cases hp⟩
  case handleRead =>
    obtain ⟨⟨hpc, -⟩, rfl⟩ := hs
    have hswap : s.pc.swapsFirst = true := by rw [hpc]; rfl
    exact ⟨fun k _ => .inl hswap, fun hp => absurd (hpc.symm.trans hp) (by simp)⟩
  case swap =>
    obtain ⟨hpc, rfl⟩ := hs
    refine ⟨fun k hk => ?_, fun hp => by cases hp⟩
    -- the swap leaves nothing pending
    have hlen := congrArg List.length hi.queue
    have hnil := hi.drained (by rw [hpc]; rfl)
    obtain ⟨hge, hlt⟩ := hk
    simp only [State.swap, hnil, List.append_nil, List.length_append] at hge hlt hlen
    omega
  case selfQueue cb =>
    obtain ⟨⟨hpc, hidle⟩, rfl⟩ := hs
    refine ⟨fun k hk => ?_, fun hp => ?_⟩
    · rcases hpc with hpc | hpc | hpc
      · exact absurd hpc ha
      · exact .inl (by simp only [State.push, hpc]; rfl)
      · -- inside a functor `callingPendingFunctors_` is set, so the loop thread owes the wakeup
        have hcall : s.callingPendingFunctors = true := hi.calling.mpr (.inr (by rw [hpc]; rfl))
        have hk' : Pending (s.push cb) k := hk
        rcases hk'.of_push with rfl | hk
        · exact .inr (.inr (.inl (if_pos hcall)))
        · rcases h.pending k hk with hw | hw
          · exact .inl hw
          · refine .inr (hw.keep rfl (fun hself => ?_) fun u hu => hu)
            rw [hidle] at hself
            cases hself
    · have hp' : s.pc = .polling := hp
      rw [hp'] at hpc
      rcases hpc with hpc | hpc | hpc <;> cases hpc
  case selfWakeup =>
    obtain ⟨-, rfl⟩ := hs
    exact ⟨fun k _ => .inr (.inl (Nat.succ_pos _)), fun _ _ => .inl (Nat.succ_pos _)⟩
  case wakeup t =>
    obtain ⟨-, rfl⟩ := hs
    exact ⟨fun k _ => .inr (.inl (Nat.succ_pos _)), fun _ _ => .inl (Nat.succ_pos _)⟩
  case queue t cb =>
    obtain ⟨hidle, rfl⟩ := hs
    refine ⟨fun k hk => ?_, fun hp hq => ?_⟩
    · have hk' : Pending (s.push cb) k := hk
      rcases hk'.of_push with rfl | hk
      · exact .inr (.inr (.inr ⟨t, Function.update_self ..⟩))
      · rcases h.pending k hk with hw | hw
        · exact .inl hw
        · exact .inr (hw.keep rfl id fun u hu => update_callers hidle (by simp) hu)
    · rcases h.quit hp hq with hw | ⟨u, hu⟩
      · exact .inl hw
      · exact .inr ⟨u, update_callers hidle (by simp) hu⟩
  case setQuit t =>
    obtain ⟨hidle, rfl⟩ := hs
    refine ⟨fun k hk => ?_, fun _ _ => .inr ⟨t, Function.update_self ..⟩⟩
    rcases h.pending k hk with hw | hw
    · exact .inl hw
    · exact .inr (hw.keep rfl id fun u hu => update_callers hidle (by simp) hu)
  case selfQuit =>
    obtain ⟨⟨hpc, -⟩, rfl⟩ := hs
    refine h.move rfl rfl rfl rfl rfl id fun hp => ?_
    have hp' : s.pc = .polling := hp
    rw [hp'] at hpc
    rcases hpc with hpc | hpc | hpc <;> cases hpc
  all_goals
    obtain ⟨hpc, rfl⟩ := hs
    exact h.move rfl rfl rfl rfl rfl (by simp [hpc, Pc.swapsFirst]) (by simp)

omit [DecidableEq τ] in
theorem init_woken : Woken (init : State Φ τ) :=
  ⟨fun _ hk => absurd hk.2 (Nat.not_lt_zero _), fun hp => by cases hp⟩

theorem reach_woken (h : (machine Φ τ).Reach PushesInLoop s) : Woken s := by
  refine Machine.Reach.induct (I := Woken) ?_ ?_ h
  · rintro s rfl
    exact init_woken
  · exact fun s a t hr hw ha hs => hw.step (reach_inv hr) ha hs

/-- **No lost wakeup**: while the loop thread polls with the counter at zero, every pending functor
is one that some thread has pushed without having called `wakeup` yet, and if `quit_` is set then
some thread has set it without having called `wakeup` yet. -/
theorem no_lost_wakeup (h : (machine Φ τ).Reach PushesInLoop s) (hpoll : s.pc = .polling)
    (hzero : s.wakeupFd = 0) :
    (∀ i cb, s.pendingFunctors[i]? = some cb →
      ∃ t k, s.callers t = .pushed k ∧ k = s.executed.length + i ∧ s.pushes[k]? = some cb) ∧
    (s.quit = true → ∃ t, s.callers t = .quitSet) := by
  have hi := reach_inv h
  have hw := reach_woken h
  have hnil : s.functors = [] := hi.drained (by rw [hpoll]; rfl)
  have hqueue : s.executed ++ s.pendingFunctors = s.pushes := by
    rw [← hi.queue, hnil, List.append_nil]
  refine ⟨fun i cb hcb => ?_, fun hq => ?_⟩
  · have hget : s.pushes[s.executed.length + i]? = some cb := by
      rw [← hqueue, List.getElem?_append_right (Nat.le_add_right _ _), Nat.add_sub_cancel_left]
      exact hcb
    have hlt : s.executed.length + i < s.pushes.length := (List.getElem?_eq_some_iff.mp hget).1
    have hpend : Pending s (s.executed.length + i) := by
      refine ⟨?_, hlt⟩
      rw [hnil, List.length_nil]
      omega
    rcases hw.pending _ hpend with hswap | hfd | hself | ⟨t, ht⟩
    · rw [hpoll] at hswap
      cases hswap
    · omega
    · -- the loop thread is inside `poll`, not inside `queueInLoop`
      have := hi.self (by rw [hself]; simp)
      rw [hpoll] at this
      cases this
    · exact ⟨t, _, ht, rfl, hget⟩
  · rcases hw.quit hpoll hq with hfd | ht
    · omega
    · exact ht

/-- While the loop thread polls, one thread has pushed 7 and another has set `quit_`. -/
def pushWhilePolling : List (Action ℕ Bool) :=
  [.callLoop, .clearQuit, .whileTest, .queue true 7, .setQuit false]

theorem no_lost_wakeup_pushWhilePolling : ∃ s : State ℕ Bool,
    (machine ℕ Bool).Reach PushesInLoop s ∧ s.pc = .polling ∧ s.pendingFunctors = [7] ∧
      (∃ t k, s.callers t = .pushed k ∧ k = s.executed.length + 0 ∧ s.pushes[k]? = some 7) ∧
      ∃ t, s.callers t = .quitSet := by
  obtain ⟨s, hs, hpc, hfd, hpend, hq⟩ : ∃ s : State ℕ Bool,
      (machine ℕ Bool).exec PushesInLoop init pushWhilePolling = some s ∧ s.pc = .polling ∧
        s.wakeupFd = 0 ∧ s.pendingFunctors = [7] ∧ s.quit = true := ⟨_, rfl, rfl, rfl, rfl, rfl⟩
  have hr : (machine ℕ Bool).Reach PushesInLoop s := .of_exec (.init rfl) hs
  obtain ⟨hpushed, hset⟩ := no_lost_wakeup hr hpc hfd
  exact ⟨s, hr, hpc, hpend, hpushed 0 7 (by rw [hpend]; rfl), hset hq⟩

end MengSen.EventLoop

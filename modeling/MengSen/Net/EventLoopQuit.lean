import MengSen.Net.EventLoopQueue

/-!
# Net.EventLoopQuit — when a `quit` is seen

`loop` starts with `quit_ = false`.  A `quit` that comes before this statement is forgotten
(`quit_before_loop_lost`).  Otherwise the request stays set until the loop test sees it, after at
most the iteration that was running (`quit_not_lost`).
-/

namespace MengSen.EventLoop

open Machine (guarded_eq anyAction)

variable {Φ τ : Type} [DecidableEq τ] {s t : State Φ τ}

/-- A requested quit is still set, and at most the iteration in which it was requested has been
completed. -/
structure Quitting (s : State Φ τ) : Prop where
  quit : s.quitRequested = true → s.quit = true
  iters : s.itersSince = 0 ∨
    s.itersSince = 1 ∧ s.quitRequested = true ∧ (s.pc = .test ∨ s.pc = .leaving)

/-- `loop` does not execute `quit_ = false` while a quit is requested. -/
def NoClearedQuit (s : State Φ τ) : Action Φ τ → Prop
  | .clearQuit => s.quitRequested = false
  | _ => True

instance : ∀ (s : State Φ τ) (a : Action Φ τ), Decidable (NoClearedQuit s a)
  | s, .clearQuit => inferInstanceAs (Decidable (s.quitRequested = false))
  | _, .callLoop | _, .selfQueue _ | _, .whileTest | _, .pollReturns _ | _, .handleRead
  | _, .eventsDone | _, .swap | _, .startFunctor | _, .functorReturns | _, .drainDone
  | _, .loopReturns | _, .selfWakeup | _, .selfQuit | _, .queue _ _ | _, .setQuit _
  | _, .wakeup _ => inferInstanceAs (Decidable True)

/-- **Step lemma of `quit`**. -/
theorem Quitting.step {a : Action Φ τ} (h : Quitting s) (ha : NoClearedQuit s a)
    (hs : (machine Φ τ).Step s a t) : Quitting t := by
  obtain ⟨hquit, hiters⟩ := h
  cases a
  case callLoop =>
    obtain ⟨hpc, -, rfl⟩ := step_callLoop hs
    exact ⟨hquit, by simp_all⟩
  case startFunctor =>
    obtain ⟨cb, rest, hf, hpc, rfl⟩ := step_startFunctor hs
    exact ⟨hquit, by simp_all⟩
  all_goals simp only [Machine.Step, machine, act, guarded_eq, Except.ok.injEq] at hs
  case clearQuit =>
    obtain ⟨hpc, rfl⟩ := hs
    have hnone : s.quitRequested = false := ha
    exact ⟨fun hq => absurd (hnone.symm.trans hq) (by simp), by simp_all⟩
  case whileTest =>
    obtain ⟨hpc, rfl⟩ := hs
    refine ⟨hquit, ?_⟩
    -- after a completed iteration the test sees the flag
    rcases hiters with h0 | ⟨h1, hreq, -⟩
    · exact .inl h0
    · exact .inr ⟨h1, hreq, .inr (if_pos (hquit hreq))⟩
  case drainDone =>
    obtain ⟨⟨hpc, -⟩, rfl⟩ := hs
    refine ⟨hquit, ?_⟩
    have h0 : s.itersSince = 0 := by
      rcases hiters with h0 | ⟨-, -, h | h⟩
      · exact h0
      · exact absurd (hpc.symm.trans h) (by simp)
      · exact absurd (hpc.symm.trans h) (by simp)
    cases hreq : s.quitRequested
    · exact .inl rfl
    · exact .inr ⟨by simp [h0], rfl, .inl rfl⟩
  case loopReturns =>
    obtain ⟨-, rfl⟩ := hs
    exact ⟨fun hq => (by cases hq), .inl rfl⟩
  case selfQuit =>
    obtain ⟨-, rfl⟩ := hs
    exact ⟨fun _ => rfl, hiters.imp_right fun hone => ⟨hone.1, rfl, hone.2.2⟩⟩
  case setQuit t =>
    obtain ⟨-, rfl⟩ := hs
    exact ⟨fun _ => rfl, hiters.imp_right fun hone => ⟨hone.1, rfl, hone.2.2⟩⟩
  all_goals
    obtain ⟨hpc, rfl⟩ := hs
    exact ⟨hquit, by simp_all [State.handleRead, State.swap, State.wakeup, State.push]⟩

theorem reach_quitting (h : (machine Φ τ).Reach NoClearedQuit s) : Quitting s := by
  refine Machine.Reach.induct (I := Quitting) ?_ ?_ h
  · rintro s rfl
    exact ⟨fun hq => (by cases hq), .inl rfl⟩
  · exact fun s a t _ hq ha hs => hq.step ha hs

/-! ## The way to the loop test -/

/-- The loop thread can come to the loop test with the flag as it is. -/
def ReachesTest (s : State Φ τ) : Prop :=
  ∃ t, (machine Φ τ).Path NoClearedQuit s t ∧ t.pc = .test ∧ t.quit = s.quit

theorem ReachesTest.of_step {u : State Φ τ} {a : Action Φ τ} (hs : (machine Φ τ).Step s a u)
    (ha : NoClearedQuit s a) (hq : u.quit = s.quit) (h : ReachesTest u) : ReachesTest s := by
  obtain ⟨t, hp, hpc, ht⟩ := h
  exact ⟨t, (Machine.Path.single ha hs).trans hp, hpc, ht.trans hq⟩

/-- The rest of a batch, functor by functor. -/
theorem reachesTest_draining (s : State Φ τ) (hpc : s.pc = .draining) (hidle : s.self = .idle) :
    ReachesTest s := by
  obtain ⟨l, hl⟩ : ∃ l, s.functors = l := ⟨_, rfl⟩
  induction l generalizing s with
  | nil =>
    refine .of_step (a := .drainDone) (guarded_eq.mpr ⟨⟨hpc, hl⟩, rfl⟩) trivial rfl ?_
    exact ⟨_, .refl, rfl, rfl⟩
  | cons cb rest ih =>
    have hcall : (machine Φ τ).Step s .startFunctor
        { s with functors := rest, executed := s.executed ++ [cb], pc := .functor } := by
      simp only [Machine.Step, machine, act, hl]
      exact guarded_eq.mpr ⟨hpc, rfl⟩
    refine .of_step hcall trivial rfl ?_
    refine .of_step (a := .functorReturns) (guarded_eq.mpr ⟨⟨rfl, hidle⟩, rfl⟩) trivial rfl ?_
    exact ih _ rfl hidle rfl

/-- From everywhere inside the `while` loop the loop thread can come to the test. -/
theorem reachesTest (h : Inv s) (hout : s.pc ≠ .outside) (hent : s.pc ≠ .entered)
    (hleave : s.pc ≠ .leaving) : ReachesTest s := by
  have hswap : ∀ u : State Φ τ, u.pc = .beforeSwap → u.self = .idle → ReachesTest u := by
    intro u hpc hidle
    refine .of_step (a := .swap) (guarded_eq.mpr ⟨hpc, rfl⟩) trivial rfl ?_
    exact reachesTest_draining _ rfl hidle
  have hdone : ∀ u : State Φ τ, u.pc = .handling → u.self = .idle → u.wakeupActive = false →
      ReachesTest u := by
    intro u hpc hidle hact
    refine .of_step (a := .eventsDone) (guarded_eq.mpr ⟨⟨hpc, hidle, hact⟩, rfl⟩) trivial rfl ?_
    exact hswap _ rfl hidle
  have hret : ∀ u : State Φ τ, u.pc = .functor → u.self = .idle → ReachesTest u := by
    intro u hpc hidle
    refine .of_step (a := .functorReturns) (guarded_eq.mpr ⟨⟨hpc, hidle⟩, rfl⟩) trivial rfl ?_
    exact reachesTest_draining _ rfl hidle
  by_cases hidle : s.self = .idle
  · cases hpc : s.pc with
    | outside => exact absurd hpc hout
    | entered => exact absurd hpc hent
    | leaving => exact absurd hpc hleave
    | test => exact ⟨s, .refl, hpc, rfl⟩
    | polling =>
      refine .of_step (a := .pollReturns false) (guarded_eq.mpr ⟨⟨hpc, by simp⟩, rfl⟩) trivial rfl ?_
      exact hdone _ rfl hidle rfl
    | handling =>
      cases hact : s.wakeupActive with
      | false => exact hdone s hpc hidle hact
      | true =>
        refine .of_step (a := .handleRead) (guarded_eq.mpr ⟨⟨hpc, hidle, hact⟩, rfl⟩) trivial rfl ?_
        exact hdone _ hpc hidle rfl
    | beforeSwap => exact hswap s hpc hidle
    | draining => exact reachesTest_draining s hpc hidle
    | functor => exact hret s hpc hidle
  · -- the functor owes a wakeup first
    refine .of_step (a := .selfWakeup) (guarded_eq.mpr ⟨hidle, rfl⟩) trivial rfl ?_
    exact hret _ (h.self hidle) rfl

/-- **A quit request is not lost when no `loop` clears it**: since the request at most one iteration
was completed, the next test leaves the loop, and a running loop can come to that test. -/
theorem quit_not_lost (h : (machine Φ τ).Reach NoClearedQuit s) (hreq : s.quitRequested = true) :
    s.itersSince ≤ 1 ∧ (∀ t, (machine Φ τ).Step s .whileTest t → t.pc = .leaving) ∧
      (s.pc ≠ .outside → s.pc ≠ .entered →
        ∃ t, (machine Φ τ).Path NoClearedQuit s t ∧ t.pc = .leaving) := by
  obtain ⟨hquit, hiters⟩ := reach_quitting h
  refine ⟨by omega, fun t ht => ?_, fun hout hent => ?_⟩
  · obtain ⟨-, rfl⟩ : s.pc = .test ∧ _ = t := by
      simpa only [Machine.Step, machine, act, guarded_eq, Except.ok.injEq] using ht
    exact if_pos (hquit hreq)
  · by_cases hleave : s.pc = .leaving
    · exact ⟨s, .refl, hleave⟩
    obtain ⟨t, hp, hpc, hq⟩ := reachesTest (reach_inv h) hout hent hleave
    refine ⟨_, .step (a := .whileTest) hp trivial (guarded_eq.mpr ⟨hpc, rfl⟩), ?_⟩
    exact if_pos (hq.trans (hquit hreq))

/-- `quit` by another thread while the loop thread polls; the iteration is completed. -/
def quitWhilePolling : List (Action ℕ Bool) :=
  [.callLoop, .clearQuit, .whileTest, .setQuit true, .wakeup true, .pollReturns true, .handleRead,
    .eventsDone, .swap, .drainDone]

theorem quit_not_lost_quitWhilePolling : ∃ s t : State ℕ Bool,
    (machine ℕ Bool).Reach NoClearedQuit s ∧ s.itersSince = 1 ∧
      (machine ℕ Bool).Path NoClearedQuit s t ∧ t.pc = .leaving := by
  obtain ⟨s, hs, hpc, hreq, hiters⟩ : ∃ s : State ℕ Bool,
      (machine ℕ Bool).exec NoClearedQuit init quitWhilePolling = some s ∧ s.pc = .test ∧
        s.quitRequested = true ∧ s.itersSince = 1 := ⟨_, rfl, rfl, rfl, rfl⟩
  have hr : (machine ℕ Bool).Reach NoClearedQuit s := .of_exec (.init rfl) hs
  obtain ⟨-, -, hleaves⟩ := quit_not_lost hr hreq
  obtain ⟨t, hp, ht⟩ := hleaves (by rw [hpc]; simp) (by rw [hpc]; simp)
  exact ⟨s, t, hr, hiters, hp, ht⟩

/-- One iteration of the loop without events and functors. -/
def emptyIteration : List (Action ℕ Bool) :=
  [.whileTest, .pollReturns false, .eventsDone, .swap, .drainDone]

/-- `quit` before `loop` is forgotten: two iterations later the loop polls again. -/
theorem quit_before_loop_lost : ∃ s : State ℕ Bool, (machine ℕ Bool).Reach anyAction s ∧
    s.quitRequested = true ∧ s.pc = .polling ∧ ¬ s.itersSince ≤ 1 := by
  obtain ⟨s, hs, hreq, hpc, hiters⟩ : ∃ s : State ℕ Bool,
      (machine ℕ Bool).exec anyAction init
          ([.selfQuit, .callLoop, .clearQuit] ++ emptyIteration ++ emptyIteration ++ [.whileTest]) =
        some s ∧ s.quitRequested = true ∧ s.pc = .polling ∧ s.itersSince = 2 :=
    ⟨_, rfl, rfl, rfl, rfl⟩
  exact ⟨s, .of_exec (.init rfl) hs, hreq, hpc, by omega⟩

end MengSen.EventLoop

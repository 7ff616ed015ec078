import MengSen.Base.AsyncLoggingInv

/-!
# Base.AsyncLoggingStop — what `stop` leaves behind

`stop` clears `running_`, wakes the back end and joins it; `threadFunc` reads `running_` outside the
mutex, at its loop head only.  Whether the last lines are written depends on where the back end is
at that moment: `Drains` says it has a swap still to do or nothing left to swap.  From then on
`Drains` does not change (`drains_step`), and when the back end is done it is the question whether
the lines were taken over (`stop_drains_iff`).
-/

namespace MengSen.AsyncLogging

variable {N : ℕ} {s t : State N}

/-- `threadFunc` has passed the test of `running_` and not yet done the swap of that iteration. -/
def Pc.beforeSwap : Pc → Bool
  | .checks | .lock | .waiting | .emplace | .takeNew | .swap => true
  | _ => false

/-- The back end still has a swap to do, or the lines appended before `stop` was called have all
left `currentBuffer_` and `buffers_`. -/
def Drains (s : State N) : Prop :=
  s.pc.beforeSwap = true ∨
    s.linesAtStop.flatten.length + (bytesOf s.buffers ++ ptrBytes s.currentBuffer).length ≤
      s.lines.flatten.length

/-- What has left `currentBuffer_` and `buffers_` was taken over. -/
theorem Inv.drains_iff (h : Inv s) :
    Drains s ↔ s.pc.beforeSwap = true ∨ s.linesAtStop.flatten.length ≤ s.taken.length := by
  have hlen := congrArg List.length h.all_eq
  simp only [List.length_append] at hlen
  unfold Drains
  rw [List.length_append]
  refine or_congr Iff.rfl ?_
  omega

/-! ## The back end after `running_ = false` -/

/-- A statement of `threadFunc` other than the swap takes nothing over, and only the loop test
starts a new iteration. -/
theorem threadFunc_taken (hs : threadFunc s = some (.ok t)) (hswap : s.pc ≠ .swap) :
    t.taken = s.taken ∧ (s.running = false → t.pc.beforeSwap = s.pc.beforeSwap) := by
  cases hpc : s.pc <;>
    simp only [threadFunc, hpc, reduceCtorEq, Option.some.injEq, Except.ok.injEq,
      Machine.check_bind_eq_ok, Machine.pure_eq_ok] at hs
  case begin_ =>
    obtain ⟨-, rfl⟩ := hs
    simp [State.taken, State.inflight, hpc, Pc.beforeSwap]
  case loopHead =>
    subst hs
    cases hrun : s.running <;> simp [State.taken, State.inflight, hpc, Pc.beforeSwap]
  case checks =>
    obtain ⟨-, -, -, rfl⟩ := hs
    simp [State.taken, State.inflight, hpc, Pc.beforeSwap]
  case lock =>
    subst hs
    cases s.buffers.isEmpty <;> simp [State.taken, State.inflight, hpc, Pc.beforeSwap]
  case swap => exact absurd hpc hswap
  case refill => split at hs <;> cases hs <;> simp [State.taken, State.inflight, hpc, Pc.beforeSwap]
  case batch =>
    obtain ⟨o, l, rfl⟩ := dropExcess_cases hs
    simp [State.taken, State.inflight, hpc, Pc.beforeSwap, flatten_map_ptrBytes]
  case write i =>
    split at hs <;> cases hs <;> simp [State.taken, State.inflight, hpc, Pc.beforeSwap]
  case recycle =>
    obtain ⟨p, q, rfl⟩ := recycle_cases hs
    simp [State.taken, State.inflight, hpc, Pc.beforeSwap]
  all_goals
    subst hs
    simp [State.taken, State.inflight, hpc, Pc.beforeSwap]

/-- The swap takes all lines over. -/
theorem Inv.swap_taken (h : Inv s) (hpc : s.pc = .swap)
    (hs : AsyncLogging.threadFunc s = some (.ok t)) : t.taken = t.lines.flatten := by
  have hall := h.all_eq
  have hloc := h.locals
  simp only [Locals, hpc] at hloc
  simp only [State.taken, State.inflight, hpc] at hall
  simp only [AsyncLogging.threadFunc, hpc, Option.some.injEq, Except.ok.injEq] at hs
  obtain ⟨-, -, -, hcur, -⟩ := hloc
  subst hs
  show s.batches.flatten.flatten ++ bytesOf s.buffers = s.lines.flatten
  rw [← hall, hcur.bytes]
  simp only [bytesOf_nil, List.append_nil]

/-- The state after `stop` was called. -/
structure Stopping (s : State N) : Prop where
  atStop : s.linesAtStop <+: s.lines
  running : s.running = false
  owner : s.owner = .flagged ∨ s.owner = .stopped

theorem length_flatten_le {l m : List (List UInt8)} (h : l <+: m) :
    l.flatten.length ≤ m.flatten.length := by
  obtain ⟨r, rfl⟩ := h
  rw [List.flatten_append, List.length_append]
  omega

/-- Once `running_` is cleared nothing changes whether the log drains. -/
theorem Stopping.step {a : Action} (h : Stopping s) (hi : Inv s) (ht : Inv t)
    (hs : (machine N).Step s a t) :
    Stopping t ∧ t.linesAtStop = s.linesAtStop ∧ (Drains t ↔ Drains s) := by
  obtain ⟨hat, hrun, howner⟩ := h
  cases effect hs with
  | append hm happend =>
    obtain ⟨b, c, n, rfl⟩ := append_cases happend
    refine ⟨⟨hat.trans (List.prefix_append _ _), hrun, howner⟩, rfl, ?_⟩
    rw [ht.drains_iff, hi.drains_iff]
    rfl
  | thread hthread =>
    have hf := threadFunc_frame hthread
    have hstop : Stopping t := by
      refine ⟨?_, ?_, ?_⟩
      · rw [hf.linesAtStop, hf.lines]
        exact hat
      · rw [hf.running]
        exact hrun
      · rw [hf.owner]
        exact howner
    refine ⟨hstop, hf.linesAtStop, ?_⟩
    rw [ht.drains_iff, hi.drains_iff]
    by_cases hpc : s.pc = .swap
    · have hbefore : s.pc.beforeSwap = true := by rw [hpc]; rfl
      have hle := length_flatten_le hstop.atStop
      rw [← hi.swap_taken hpc hthread] at hle
      exact ⟨fun _ => .inl hbefore, fun _ => .inr hle⟩
    · obtain ⟨htaken, hbefore⟩ := threadFunc_taken hthread hpc
      rw [htaken, hbefore hrun, hf.linesAtStop]
  -- the owner is in `stop`, behind the other actions
  | start ho | startReturns ho _ | stop ho | clearRunning ho =>
    rcases howner with ho' | ho'
    · cases ho.symm.trans ho'
    · cases ho.symm.trans ho'
  | stopReturns ho hpc => exact ⟨⟨hat, hrun, .inr rfl⟩, rfl, Iff.rfl⟩

/-! ## Runs through `stop` -/

/-- The lines appended before the call of `stop` are the first lines of the log. -/
theorem reach_atStop (h : (machine N).Reach ShortLines s) : s.linesAtStop <+: s.lines := by
  refine Machine.Reach.induct (I := fun s => s.linesAtStop <+: s.lines) ?_ ?_ h
  · rintro s rfl
    exact List.prefix_rfl
  · intro s a t _ hat _ hs
    cases effect hs with
    | append hm happend =>
      obtain ⟨b, c, n, rfl⟩ := append_cases happend
      exact hat.trans (List.prefix_append _ _)
    | thread hthread =>
      have hf := threadFunc_frame hthread
      rw [hf.linesAtStop, hf.lines]
      exact hat
    | stop ho => exact List.prefix_rfl
    | start _ | startReturns _ _ | clearRunning _ | stopReturns _ _ => exact hat

/-- When the back end is done, what it wrote is what it kept of the batches it took over. -/
theorem Inv.written_of_done (h : Inv s) (hpc : s.pc = .done)
    (hsmall : ∀ b ∈ s.batches, b.length ≤ 25) : s.written = s.taken := by
  have hkept := h.kept_eq
  rw [map_kept_of_small hsmall] at hkept
  simp only [State.unwritten, State.inflight, hpc, bytesOf_nil, List.append_nil] at hkept
  simp only [State.taken, State.inflight, hpc, bytesOf_nil, List.append_nil]
  exact hkept

theorem prefix_iff_length_le {l₁ l₂ l : List UInt8} (h₁ : l₁ <+: l) (h₂ : l₂ <+: l) :
    l₁ <+: l₂ ↔ l₁.length ≤ l₂.length :=
  ⟨List.IsPrefix.length_le, List.prefix_of_prefix_length_le h₁ h₂⟩

/-- **When `stop` drains the log**: let `running_` be cleared in the step from `s₀` to `s₁` of a run,
and `stop` have returned in `s`.  If no batch had more than 25 buffers, all lines appended before
the call of `stop` were written exactly when `Drains` held in `s₀`. -/
theorem stop_drains_iff {s₀ s₁ : State N} (h : (machine N).Reach ShortLines s₀)
    (hs : (machine N).Step s₀ .clearRunning s₁) (hp : (machine N).Path ShortLines s₁ s)
    (hend : s.owner = .stopped) (hsmall : ∀ b ∈ s.batches, b.length ≤ 25) :
    s₀.linesAtStop.flatten <+: s.written ↔ Drains s₀ := by
  have h₁ : (machine N).Reach ShortLines s₁ := .step (a := .clearRunning) h trivial hs
  have hflag : s₁ = { s₀ with running := false, owner := .flagged } := by
    cases effect hs with
    | clearRunning ho => rfl
  have hstart : Stopping s₁ ∧ s₁.linesAtStop = s₀.linesAtStop ∧ (Drains s₁ ↔ Drains s₀) := by
    have hat := reach_atStop h
    rw [hflag]
    exact ⟨⟨hat, rfl, .inl rfl⟩, rfl, Iff.rfl⟩
  obtain ⟨hstop, hlines, hdrains⟩ : Stopping s ∧ s.linesAtStop = s₀.linesAtStop ∧
      (Drains s ↔ Drains s₀) := by
    refine Machine.Path.induct
      (I := fun u => Stopping u ∧ u.linesAtStop = s₀.linesAtStop ∧ (Drains u ↔ Drains s₀))
      h₁ hstart ?_ hp
    rintro u a v hu ⟨hstop, hlines, hdrains⟩ ha hv
    obtain ⟨hstop', hlines', hdrains'⟩ :=
      hstop.step (reach_inv hu).1 (reach_inv (.step hu ha hv)).1 hv
    exact ⟨hstop', hlines'.trans hlines, hdrains'.trans hdrains⟩
  obtain ⟨hi, hlife⟩ := reach_inv (h₁.path hp)
  have hdone : s.pc = .done := hlife.joined hend
  have htaken : s.taken <+: s.lines.flatten := by
    rw [← hi.all_eq, List.append_assoc]
    exact List.prefix_append _ _
  have hat : s.linesAtStop.flatten <+: s.lines.flatten := by
    obtain ⟨r, hr⟩ := hstop.atStop
    rw [← hr, List.flatten_append]
    exact List.prefix_append _ _
  rw [← hdrains, ← hlines, hi.written_of_done hdone hsmall, prefix_iff_length_le hat htaken,
    hi.drains_iff]
  simp [hdone, Pc.beforeSwap]

/-- A line is appended while the back end waits; `stop` is called. -/
def stopWhileWaiting : List Action :=
  [.start, .thread, .startReturns, .thread, .thread, .thread, .thread, .append [65], .stop]

/-- The back end wakes up, writes the batch and leaves its loop; `stop` returns. -/
def wakeAndLeave : List Action := List.replicate 10 .thread ++ [.stopReturns]

theorem stop_drains_iff_waiting : ∃ s₀ s : State kLargeBuffer,
    (machine kLargeBuffer).Reach ShortLines s ∧ s.owner = .stopped ∧
      s₀.linesAtStop = [[65]] ∧ s₀.linesAtStop.flatten <+: s.written := by
  obtain ⟨s₀, s₁, s, h₀, hs, hp, hlines, hpc, hend, hbatches⟩ : ∃ s₀ s₁ s : State kLargeBuffer,
      (machine kLargeBuffer).exec ShortLines init stopWhileWaiting = some s₀ ∧
        (machine kLargeBuffer).Step s₀ .clearRunning s₁ ∧
        (machine kLargeBuffer).exec ShortLines s₁ wakeAndLeave = some s ∧
        s₀.linesAtStop = [[65]] ∧ s₀.pc = .waiting ∧ s.owner = .stopped ∧
        s.batches.map List.length = [1] :=
    ⟨_, _, _, rfl, rfl, rfl, rfl, rfl, rfl, rfl⟩
  have hr₀ : (machine kLargeBuffer).Reach ShortLines s₀ := .of_exec (.init rfl) h₀
  have hr₁ : (machine kLargeBuffer).Reach ShortLines s₁ := .step (a := .clearRunning) hr₀ trivial hs
  have hsmall : ∀ b ∈ s.batches, b.length ≤ 25 := by
    intro b hb
    have hmem := List.mem_map_of_mem (f := List.length) hb
    rw [hbatches, List.mem_singleton] at hmem
    omega
  have hdrains : Drains s₀ := .inl (by rw [hpc]; rfl)
  exact ⟨s₀, s, .of_exec hr₁ hp, hend, hlines,
    (stop_drains_iff hr₀ hs (.of_exec .refl hp) hend hsmall).mpr hdrains⟩

/-- A line is appended after `start` returned; `stop` clears `running_` before the back end comes to
its loop. -/
def stopBeforeLoop : List Action :=
  [.start, .thread, .startReturns, .append [65], .stop, .clearRunning, .thread, .thread,
    .stopReturns]

/-- The line is lost: `stop` has returned, no buffer was dropped, and nothing was written. -/
theorem stop_loses_line : ∃ s : State kLargeBuffer, (machine kLargeBuffer).Reach ShortLines s ∧
    s.owner = .stopped ∧ (∀ b ∈ s.batches, b.length ≤ 25) ∧
    ¬ s.linesAtStop.flatten <+: s.written := by
  obtain ⟨s, hs, hend, hbatches, hlines, hwritten⟩ : ∃ s : State kLargeBuffer,
      (machine kLargeBuffer).exec ShortLines init stopBeforeLoop = some s ∧ s.owner = .stopped ∧
        s.batches = [] ∧ s.linesAtStop = [[65]] ∧ s.written = [] := ⟨_, rfl, rfl, rfl, rfl, rfl⟩
  refine ⟨s, .of_exec (.init rfl) hs, hend, by simp [hbatches], ?_⟩
  rw [hlines, hwritten]
  decide

end MengSen.AsyncLogging

import MengSen.Net.TimerLoop
import MengSen.Net.TimerQueueCancel

/-!
# Net.TimerLoopSafe — no request fails and none gets stuck

In every interleaving of the threads with the loop thread no assert fails and no deleted timer is
read or deleted by the loop thread (`no_fault`), and the functor at the front can be called
(`callFunctor_enabled`).  For the second, `Placed`: the timers that are not added yet are those of
the threads in `addTimer` and those of the functors that wait, each once.
-/

namespace MengSen.TimerLoop

open Machine (Safe anyAction)

variable {D τ : Type} [Seconds D] [DecidableEq τ] {s t : State D τ}
  {ok : State D τ → Action D τ → Prop}

/-! ## The two parts of a run -/

theorem Effect.path_loop {a : Action D τ} (he : Effect s a t) :
    (EventLoop.machine Functor τ).Path anyAction s.loop t.loop := by
  cases he with
  | loop _ hl | queueTimer _ hl | cancel _ hl => exact .single trivial hl
  | callAdd _ hl _ hm | callCancel _ hl _ hm => exact (Machine.Path.single trivial hl).step trivial hm
  | _ => exact .refl

theorem Effect.path_queue {a : Action D τ} (he : Effect s a t) :
    (TimerQueue.Cut.machine D).Path anyAction s.queue t.queue := by
  cases he with
  | timers _ hq | callAdd _ _ hq _ | callCancel _ _ hq _ | selfCancel _ hq | newTimer _ hq =>
    exact .single trivial hq
  | selfAddTimer _ hp hq => exact (Machine.Path.single trivial hp).step trivial hq
  | _ => exact .refl

/-- The event loop of a run is in a run of its own. -/
theorem reach_loop (h : (machine D τ).Reach ok s) :
    (EventLoop.machine Functor τ).Reach anyAction s.loop := by
  refine h.map State.loop ?_ fun s a t _ _ hs => (effect_of_step hs).path_loop
  rintro s rfl
  rfl

/-- The timer queue of a run is in a run of its own. -/
theorem reach_queue (h : (machine D τ).Reach ok s) :
    (TimerQueue.Cut.machine D).Reach anyAction s.queue := by
  refine h.map State.queue ?_ fun s a t _ _ hs => (effect_of_step hs).path_queue
  rintro s rfl
  rfl

/-! ## Faults -/

omit [Seconds D] in
theorem safe_inLoop (h : EventLoop.Inv s.loop) (a : EventLoop.Action Functor τ) :
    Safe (s.inLoop a) := Safe.within (h.act_ne_error a)

omit [DecidableEq τ] in
theorem safe_inQueue (h : TimerQueue.Owned s.queue) (a : TimerQueue.Cut.Action D) :
    Safe (s.inQueue a) := Safe.within (h.cut_ne_error a)

/-- A functor of the timer queue: its call, its body, what is noted, its return. -/
theorem safe_call (hloop : EventLoop.Inv s.loop) (hqueue : TimerQueue.Owned s.queue)
    (a : TimerQueue.Cut.Action D) (note : State D τ → State D τ) (hnote : ∀ u, (note u).loop = u.loop) :
    Safe (do
      let s ← s.inLoop .startFunctor
      let s ← s.inQueue a
      (note s).inLoop .functorReturns) := by
  refine (safe_inLoop hloop _).bind fun s₁ h₁ => ?_
  obtain ⟨l, hl, rfl⟩ := inLoop_eq_ok.mp h₁
  refine (safe_inQueue (s := { s with loop := l }) hqueue a).bind fun s₂ h₂ => ?_
  obtain ⟨q, -, rfl⟩ := inQueue_eq_ok.mp h₂
  refine safe_inLoop ?_ _
  rw [hnote]
  exact hloop.step hl

/-- **No interleaving makes an action fail.** -/
theorem no_fault (h : (machine D τ).Reach ok s) (a : Action D τ) : ¬ (machine D τ).Faults s a := by
  have hloop := EventLoop.reach_inv (reach_loop h)
  have hqueue := TimerQueue.reach_owned (reach_queue h)
  suffices hsafe : Safe (act s a) by
    rintro ⟨e, he⟩
    exact hsafe e he
  cases a with
  | loop a => exact .ite fun _ => safe_inLoop hloop a
  | timers a => exact .ite fun _ => safe_inQueue hqueue a
  | callFunctor now =>
    simp only [act]
    split
    · exact safe_call hloop hqueue _ id fun _ => rfl
    · exact safe_call hloop hqueue _ (fun u => u.noteCanceled _) fun _ => rfl
    · intro e he
      cases he
  | selfAddTimer timer when interval now =>
    refine .ite fun _ => (safe_inQueue hqueue _).bind fun s₁ h₁ => ?_
    obtain ⟨q, hq, rfl⟩ := inQueue_eq_ok.mp h₁
    exact (safe_inQueue (s := { s with queue := q }) ((hqueue.cut_step hq).owned hqueue) _).bind
      fun _ _ => .pure _
  | selfCancel timerId => exact .ite fun _ => (safe_inQueue hqueue _).bind fun _ _ => .pure _
  | newTimer t timer when interval =>
    exact .ite fun _ => (safe_inQueue hqueue _).bind fun _ _ => .pure _
  | queueTimer t =>
    simp only [act]
    split
    · exact (safe_inLoop hloop _).bind fun _ _ => .pure _
    · intro e he
      cases he
  | addTimerReturns t garbage =>
    simp only [act]
    split
    · intro e he
      obtain ⟨-, he⟩ := Machine.guarded_eq.mp he
      cases he
    · intro e he
      cases he
  | cancel t timerId => exact .ite fun _ => safe_inLoop hloop _

/-! ## The timers that are not added -/

/-- The timers that the functors in a list add. -/
def adds (l : List Functor) : List Addr :=
  l.filterMap fun
    | .addTimerInLoop timer => some timer
    | _ => none

/-- The timers `l` of waiting functors and those that threads have created are different timers, all
not added yet. -/
structure Placed (unadded l : List Addr) (threads : τ → Thread) : Prop where
  waiting : ∀ a ∈ l, a ∈ unadded
  nodup : l.Nodup
  created : ∀ t a n, threads t = .created a n → a ∈ unadded ∧ a ∉ l
  distinct : ∀ t t' a n n', threads t = .created a n → threads t' = .created a n' → t = t'

namespace Placed

omit [Seconds D]

variable {unadded l : List Addr} {threads : τ → Thread} {a : Addr} {n : ℕ} {t : τ}

/-- A thread that leaves `created`. -/
theorem leave (h : Placed unadded l threads) (t : τ) {x : Thread} (hx : ∀ a n, x ≠ .created a n) :
    Placed unadded l (Function.update threads t x) ∧
      ∀ t' a n, Function.update threads t x t' = .created a n → t' ≠ t ∧ threads t' = .created a n := by
  have hold : ∀ t' a n, Function.update threads t x t' = .created a n →
      t' ≠ t ∧ threads t' = .created a n := by
    intro t' a n ht'
    by_cases heq : t' = t
    · rw [heq, Function.update_self] at ht'
      exact absurd ht' (hx a n)
    · exact ⟨heq, (Function.update_of_ne heq ..).symm.trans ht'⟩
  refine ⟨⟨h.waiting, h.nodup, fun t' a n ht' => h.created t' a n (hold t' a n ht').2, ?_⟩, hold⟩
  intro t' t'' a n n' ht' ht''
  exact h.distinct t' t'' a n n' (hold t' a n ht').2 (hold t'' a n' ht'').2

/-- A thread creates a timer. -/
theorem create (h : Placed unadded l threads) (ha : a ∉ unadded) (t : τ) (n : ℕ) :
    Placed (a :: unadded) l (Function.update threads t (.created a n)) := by
  have hold : ∀ t' b m, Function.update threads t (.created a n) t' = .created b m →
      t' = t ∧ b = a ∨ threads t' = .created b m := by
    intro t' b m ht'
    by_cases heq : t' = t
    · rw [heq, Function.update_self, Thread.created.injEq] at ht'
      exact .inl ⟨heq, ht'.1.symm⟩
    · exact .inr ((Function.update_of_ne heq ..).symm.trans ht')
  refine ⟨fun b hb => List.mem_cons_of_mem _ (h.waiting b hb), h.nodup, ?_, ?_⟩
  · intro t' b m ht'
    rcases hold t' b m ht' with ⟨-, rfl⟩ | ht'
    · exact ⟨List.mem_cons_self, fun hin => ha (h.waiting b hin)⟩
    · exact (h.created t' b m ht').imp_left (List.mem_cons_of_mem _)
  · intro t' t'' b m m' ht' ht''
    rcases hold t' b m ht' with ⟨heq, hb⟩ | hc'
    · rcases hold t'' b m' ht'' with ⟨heq', -⟩ | hc''
      · rw [heq, heq']
      · exact absurd (h.created t'' b m' hc'').1 (hb ▸ ha)
    · rcases hold t'' b m' ht'' with ⟨-, hb⟩ | hc''
      · exact absurd (h.created t' b m hc').1 (hb ▸ ha)
      · exact h.distinct t' t'' b m m' hc' hc''

/-- A thread pushes the functor of the timer it has created. -/
theorem push (h : Placed unadded l threads) (ht : threads t = .created a n) :
    Placed unadded (l ++ [a]) (Function.update threads t (.queued a n)) := by
  obtain ⟨hleft, hold⟩ := h.leave t (x := .queued a n) nofun
  obtain ⟨ha, hout⟩ := h.created t a n ht
  refine ⟨fun b hb => ?_, ?_, fun t' b m ht' => ?_, hleft.distinct⟩
  · rcases List.mem_append.mp hb with hb | hb
    · exact h.waiting b hb
    · exact List.mem_singleton.mp hb ▸ ha
  · exact h.nodup.append (List.nodup_singleton a) (List.disjoint_singleton.mpr hout)
  · obtain ⟨hne, hc⟩ := hold t' b m ht'
    obtain ⟨hb, hbout⟩ := h.created t' b m hc
    refine ⟨hb, fun hin => ?_⟩
    rcases List.mem_append.mp hin with hin | hin
    · exact hbout hin
    · obtain rfl := List.mem_singleton.mp hin
      exact hne (h.distinct t' t b m n hc ht)

omit [DecidableEq τ] in
/-- The functor at the front adds its timer. -/
theorem add (h : Placed unadded (a :: l) threads) : Placed (unadded.erase a) l threads := by
  obtain ⟨hout, hnodup⟩ := List.nodup_cons.mp h.nodup
  refine ⟨fun b hb => ?_, hnodup, fun t b m ht => ?_, h.distinct⟩
  · have hne : b ≠ a := fun heq => hout (heq ▸ hb)
    exact (List.mem_erase_of_ne hne).mpr (h.waiting b (List.mem_cons_of_mem _ hb))
  · obtain ⟨hb, hbout⟩ := h.created t b m ht
    obtain ⟨hne, hbout⟩ := not_or.mp (mt List.mem_cons.mpr hbout)
    exact ⟨(List.mem_erase_of_ne hne).mpr hb, hbout⟩

end Placed

/-- Where the timers that are not added are, and where the loop thread is during `handleRead`. -/
structure InPlace (s : State D τ) : Prop where
  placed : Placed s.queue.unadded (adds s.loop.waiting) s.threads
  handling : s.queue.phase.isQuiet = false → s.loop.pc = .handling

omit [Seconds D] [DecidableEq τ] in
/-- The event loop pushes and calls no functor that adds a timer by itself. -/
theorem adds_of_loopMay {a : EventLoop.Action Functor τ} (hmay : s.LoopMay a) :
    adds (a.waiting s.loop.waiting) = adds s.loop.waiting := by
  cases a with
  | startFunctor =>
    obtain ⟨rest, hf⟩ := List.head?_eq_some_iff.mp hmay
    simp [EventLoop.Action.waiting, EventLoop.State.waiting, hf, adds]
  | selfQueue cb | queue _ cb =>
    obtain ⟨rfl, -⟩ := hmay
    simp [EventLoop.Action.waiting, adds]
  | _ => rfl

omit [Seconds D] in
/-- The event loop stays where it is while `handleRead` of the timer queue runs. -/
theorem handling_of_loopMay {a : EventLoop.Action Functor τ} {l : EventLoop.State Functor τ}
    (hmay : s.LoopMay a) (hquiet : s.queue.phase.isQuiet = false) (hpc : s.loop.pc = .handling)
    (hl : (EventLoop.machine Functor τ).Step s.loop a l) : l.pc = .handling := by
  cases a
  case callLoop =>
    obtain ⟨hout, -, rfl⟩ := EventLoop.step_callLoop hl
    rw [hpc] at hout
    cases hout
  case startFunctor =>
    obtain ⟨cb, rest, -, hdraining, rfl⟩ := EventLoop.step_startFunctor hl
    rw [hpc] at hdraining
    cases hdraining
  case eventsDone =>
    rw [State.LoopMay, hquiet] at hmay
    cases hmay
  all_goals
    obtain ⟨hguard, ht⟩ := Machine.guarded_eq.mp hl
    cases ht
    simp_all [EventLoop.State.handleRead, EventLoop.State.wakeup, EventLoop.State.push,
      EventLoop.State.setQuit]

theorem pc_of_queue {l m : EventLoop.State Functor τ} {u : τ} {cb : Functor}
    (hl : (EventLoop.machine Functor τ).Step l (.queue u cb) m) : m.pc = l.pc := by
  obtain ⟨-, hm⟩ := Machine.guarded_eq.mp hl
  cases hm
  rfl

omit [Seconds D] in
/-- During `handleRead` no functor is called. -/
theorem InPlace.quiet_of_call (h : InPlace s) {l : EventLoop.State Functor τ}
    (hl : (EventLoop.machine Functor τ).Step s.loop .startFunctor l) :
    s.queue.phase.isQuiet = true := by
  obtain ⟨cb, rest, -, hpc, -⟩ := EventLoop.step_startFunctor hl
  by_contra hne
  have hhandling := h.handling (by simpa using hne)
  rw [hpc] at hhandling
  cases hhandling

/-- **Step lemma of `InPlace`**. -/
theorem InPlace.step {a : Action D τ} (hloop : EventLoop.Inv s.loop)
    (hqueue : TimerQueue.Owned s.queue) (h : InPlace s) (he : Effect s a t) : InPlace t := by
  cases he with
  | loop hmay hl =>
    refine ⟨?_, fun hquiet => handling_of_loopMay hmay hquiet (h.handling hquiet) hl⟩
    show Placed _ (adds (EventLoop.State.waiting _)) _
    rw [hloop.waiting_step hl, adds_of_loopMay hmay]
    exact h.placed
  | timers hmay hq =>
    cases hqueue.cut_step hq with
    | whole he =>
      cases he with
      | handleRead => exact ⟨h.placed, fun _ => hmay.1⟩
      | run hp _ => exact ⟨h.placed, fun _ => h.handling (by rw [hp]; rfl)⟩
      | callbackReturns hp => exact ⟨h.placed, fun _ => h.handling (by rw [hp]; rfl)⟩
      | newTimer | add | cancelActive | cancelOther | reset => exact absurd hmay id
    | callbacksDone hp => exact ⟨h.placed, h.handling⟩
    | restart hp ht hr hs => exact ⟨h.placed, fun _ => h.handling (by rw [hp]; rfl)⟩
    | delete hp ht hr hs => exact ⟨h.placed, fun _ => h.handling (by rw [hp]; rfl)⟩
    | resetDone hp => exact ⟨h.placed, nofun⟩
  | @callAdd timer now rest l m q hf hl hq hm =>
    have heff := hqueue.cut_step hq
    have hplaced := h.placed
    have hquiet := h.quiet_of_call hl
    rw [hloop.waiting_call hf hl hm] at hplaced
    refine ⟨?_, ?_⟩
    · show Placed q.unadded (adds m.waiting) s.threads
      rw [heff.unadded_eq]
      exact hplaced.add
    · rw [heff.phase_eq trivial]
      exact fun hne => absurd (hquiet.symm.trans hne) (by simp)
  | @callCancel id targets now rest l m q hf hl hq hm =>
    have heff := hqueue.cut_step hq
    have hplaced := h.placed
    have hquiet := h.quiet_of_call hl
    rw [hloop.waiting_call hf hl hm] at hplaced
    refine ⟨?_, ?_⟩
    · show Placed q.unadded (adds m.waiting) s.threads
      rw [heff.unadded_eq]
      exact hplaced
    · rw [heff.phase_eq trivial]
      exact fun hne => absurd (hquiet.symm.trans hne) (by simp)
  | @selfAddTimer timer when interval now p q hcode hp hq =>
    have hp' := hqueue.cut_step hp
    have hq' := (hp'.owned hqueue).cut_step hq
    refine ⟨?_, ?_⟩
    · show Placed q.unadded (adds s.loop.waiting) s.threads
      rw [hq'.unadded_eq, hp'.unadded_eq, TimerQueue.Cut.Action.unadded,
        TimerQueue.Cut.Action.unadded, TimerQueue.Action.unadded, TimerQueue.Action.unadded,
        List.erase_cons_head]
      exact h.placed
    · show q.phase.isQuiet = false → _
      rw [hq'.phase_eq trivial, hp'.phase_eq trivial]
      exact h.handling
  | @selfCancel id q hcode hq =>
    have heff := hqueue.cut_step hq
    refine ⟨?_, ?_⟩
    · show Placed q.unadded (adds s.loop.waiting) s.threads
      rw [heff.unadded_eq]
      exact h.placed
    · show q.phase.isQuiet = false → _
      rw [heff.phase_eq trivial]
      exact h.handling
  | newTimer hidle hq =>
    cases hqueue.cut_step hq with
    | whole he =>
      cases he with
      | newTimer ha hlt =>
        refine ⟨h.placed.create (fun hin => ?_) _ _, h.handling⟩
        -- the address is new, so no timer has it
        obtain ⟨u, hu, -⟩ := hqueue.unadded_detached _ hin
        rw [ha] at hu
        cases hu
  | queueTimer ht hl =>
    refine ⟨?_, fun hquiet => (pc_of_queue hl).trans (h.handling hquiet)⟩
    show Placed _ (adds (EventLoop.State.waiting _)) _
    rw [hloop.waiting_step hl, EventLoop.Action.waiting, adds, List.filterMap_append]
    exact h.placed.push ht
  | addTimerReturns ht hidle => exact ⟨(h.placed.leave _ (x := .idle) nofun).1, h.handling⟩
  | cancel hidle hl =>
    refine ⟨?_, fun hquiet => (pc_of_queue hl).trans (h.handling hquiet)⟩
    show Placed _ (adds (EventLoop.State.waiting _)) _
    rw [hloop.waiting_step hl, EventLoop.Action.waiting, adds, List.filterMap_append]
    exact (List.append_nil (adds s.loop.waiting)).symm ▸ h.placed

theorem reach_inPlace (h : (machine D τ).Reach ok s) : InPlace s := by
  refine Machine.Reach.induct (I := InPlace) ?_ ?_ h
  · rintro s rfl
    exact ⟨⟨nofun, List.nodup_nil, nofun, nofun⟩, nofun⟩
  · intro s a t hr hplace _ hs
    exact hplace.step (EventLoop.reach_inv (reach_loop hr)) (TimerQueue.reach_owned (reach_queue hr))
      (effect_of_step hs)

/-! ## Progress -/


/-- **No request gets stuck**: a functor of the timer queue at the front of the batch can be called,
at every clock reading. -/
theorem callFunctor_enabled (h : (machine D τ).Reach ok s) (hpc : s.loop.pc = .draining)
    {cb : Functor} {rest : List Functor} (hf : s.loop.functors = cb :: rest) (hcb : cb ≠ .other)
    {now : ℕ} (hnow : now < 2 ^ 64) : ∃ t, (machine D τ).Step s (.callFunctor now) t := by
  have hloop := EventLoop.reach_inv (reach_loop h)
  have hqueue := TimerQueue.reach_owned (reach_queue h)
  have hplace := reach_inPlace h
  obtain ⟨l, m, hl, hm⟩ := hloop.call_enabled hpc hf
  have hcode : s.queue.phase.inUserCode = true := by
    have hquiet := hplace.quiet_of_call hl
    cases hphase : s.queue.phase with
    | quiet => rfl
    | running now expired rest =>
      rw [hphase] at hquiet
      cases hquiet
    | inCallback now expired rest => rfl
  cases cb with
  | other => exact absurd rfl hcb
  | addTimerInLoop timer =>
    have hin : timer ∈ s.queue.unadded := by
      refine hplace.placed.waiting timer ?_
      rw [EventLoop.State.waiting, hf]
      exact List.mem_cons_self
    have hrange : TimerQueue.InRange (.addTimerInLoop timer now : TimerQueue.Action D) := hnow
    obtain ⟨q, hq⟩ := hqueue.cut_enabled (a := .whole (.addTimerInLoop timer now))
      (by simp [TimerQueue.Cut.act, TimerQueue.machine, TimerQueue.act, hrange, hin, hcode])
    refine ⟨{ s with loop := m, queue := q }, ?_⟩
    change (act s (.callFunctor now)).run = some (.ok _)
    simp only [act, hf]
    refine Machine.seq_eq_ok.mpr ⟨_, inLoop_eq_ok.mpr ⟨l, hl, rfl⟩, ?_⟩
    refine Machine.seq_eq_ok.mpr ⟨_, inQueue_eq_ok.mpr ⟨q, hq, rfl⟩, ?_⟩
    exact inLoop_eq_ok.mpr ⟨_, hm, rfl⟩
  | cancelInLoop timerId targets =>
    obtain ⟨q, hq⟩ := hqueue.cut_enabled (a := .whole (.cancelInLoop timerId))
      (by simp [TimerQueue.Cut.act, TimerQueue.machine, TimerQueue.act, TimerQueue.InRange, hcode])
    refine ⟨({ s with loop := m, queue := q }).noteCanceled targets, ?_⟩
    change (act s (.callFunctor now)).run = some (.ok _)
    simp only [act, hf]
    refine Machine.seq_eq_ok.mpr ⟨_, inLoop_eq_ok.mpr ⟨l, hl, rfl⟩, ?_⟩
    refine Machine.seq_eq_ok.mpr ⟨_, inQueue_eq_ok.mpr ⟨q, hq, rfl⟩, ?_⟩
    exact inLoop_eq_ok.mpr ⟨_, hm, rfl⟩

end MengSen.TimerLoop

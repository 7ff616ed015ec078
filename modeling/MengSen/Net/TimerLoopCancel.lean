import MengSen.Net.TimerLoopSafe

/-!
# Net.TimerLoopCancel — when a cancel is not lost

A cancel works on every timer that was added before, unless `reset` has begun and is about to restart
the timer (`gone_of_cancel`).  `Tracked`: behind every id that `addTimer` returned, and behind every
cancel of it that waits, the functor that adds the timer comes first.  Only the loop thread can
overtake it, since its own `cancel` does not queue, and only the loop thread can be in a destructor
that `reset` runs (`NoUnseenCancel`).
-/

namespace MengSen.TimerLoop

open Machine (anyAction)

variable {D τ : Type} {n : ℕ}

/-! ## The functor that adds a timer -/

/-- If the timer with number `n` is live then `id` is its id, and if it is not added yet then the
functor that adds it is in `l`. -/
structure Follows (q : TimerQueue.State D) (l : List Functor) (id : TimerId) (n : ℕ) : Prop where
  created : n ≤ q.numCreated
  live : ∀ a u, q.heap a = some u → u.sequence = n →
    id = ⟨a, n⟩ ∧ (a ∈ q.unadded → .addTimerInLoop a ∈ l)

namespace Follows

variable {q r : TimerQueue.State D} {l l' : List Functor} {id : TimerId}

theorem mono (h : Follows q l id n) (hl : ∀ cb ∈ l, cb ∈ l') : Follows q l' id n :=
  ⟨h.created, fun a u hu hseq => (h.live a u hu hseq).imp_right fun hin ha => hl _ (hin ha)⟩

/-- A functor that was called has added its timer. -/
theorem tail {cb : Functor} (h : Follows q (cb :: l) id n)
    (hcb : ∀ a, cb = .addTimerInLoop a → a ∉ q.unadded) : Follows q l id n := by
  refine ⟨h.created, fun a u hu hseq => ?_⟩
  obtain ⟨hid, hin⟩ := h.live a u hu hseq
  refine ⟨hid, fun ha => ?_⟩
  rcases List.mem_cons.mp (hin ha) with heq | hmem
  · exact absurd ha (hcb a heq.symm)
  · exact hmem

variable [Seconds D]

theorem effect {a : TimerQueue.Cut.Action D} (h : Follows q l id n) (hi : TimerQueue.Owned q)
    (he : TimerQueue.Cut.Effect q a r) : Follows r l id n := by
  refine ⟨h.created.trans he.numCreated_le, fun b u hu hseq => ?_⟩
  obtain ⟨v, hv, hseq', -⟩ := he.live_old hi hu (hseq ▸ h.created)
  obtain ⟨hid, hin⟩ := h.live b v hv (hseq'.trans hseq)
  exact ⟨hid, fun hb => hin (he.unadded_old hb hv)⟩

/-- A new timer follows the functor that its creator is about to push. -/
theorem of_newTimer {timer when : ℕ} {interval : D} (hi : TimerQueue.Owned r)
    (he : TimerQueue.Cut.Effect q (.whole (.newTimer timer when interval)) r) :
    Follows r [.addTimerInLoop timer] ⟨timer, q.numCreated + 1⟩ (q.numCreated + 1) := by
  cases he with
  | whole he =>
    cases he with
    | newTimer ha hlt =>
      refine ⟨le_rfl, fun b u hu hseq => ?_⟩
      obtain rfl : b = timer := hi.heap.sequence_inj b timer u _ hu (Function.update_self ..) hseq
      exact ⟨rfl, fun _ => List.mem_cons_self⟩

/-- After `addTimerInLoop` the functor is not needed. -/
theorem added {timer now : ℕ} {cb : Functor} (hi : TimerQueue.Owned q)
    (he : TimerQueue.Cut.Effect q (.whole (.addTimerInLoop timer now)) r)
    (hcb : cb = .addTimerInLoop timer) : ∀ a, cb = .addTimerInLoop a → a ∉ r.unadded := by
  rintro a heq
  obtain rfl := Functor.addTimerInLoop.inj (hcb.symm.trans heq)
  rw [he.unadded_eq]
  exact fun hin => (hi.unadded_nodup.mem_erase_iff.mp hin).1 rfl

end Follows

/-- Ids, threads in `addTimer` and waiting cancels follow the functors that add their timers. -/
structure Tracked (q : TimerQueue.State D) (l : List Functor) (threads : τ → Thread)
    (returned : List (TimerId × ℕ)) : Prop where
  created : ∀ t a n, threads t = .created a n → Follows q [.addTimerInLoop a] ⟨a, n⟩ n
  queued : ∀ t a n, threads t = .queued a n → Follows q l ⟨a, n⟩ n
  returned : ∀ p ∈ returned, Follows q l p.1 p.2
  order : ∀ l₁ id targets l₂, l = l₁ ++ .cancelInLoop id targets :: l₂ →
    ∀ n ∈ targets, Follows q l₁ id n

namespace Tracked

variable {q r : TimerQueue.State D} {l : List Functor} {threads : τ → Thread}
  {returned : List (TimerId × ℕ)}

/-- What is pushed last is behind all that waits. -/
theorem push {cb : Functor} (h : Tracked q l threads returned)
    (hcb : ∀ id targets, cb = .cancelInLoop id targets → ∀ n ∈ targets, Follows q l id n) :
    Tracked q (l ++ [cb]) threads returned := by
  have hsub : ∀ x ∈ l, x ∈ l ++ [cb] := fun x hx => List.mem_append_left _ hx
  refine ⟨h.created, fun t a n ht => (h.queued t a n ht).mono hsub,
    fun p hp => (h.returned p hp).mono hsub, ?_⟩
  intro l₁ id targets l₂ hl
  rcases List.eq_nil_or_concat l₂ with rfl | ⟨l₃, x, rfl⟩
  · obtain ⟨rfl, hx⟩ := List.append_inj' hl rfl
    exact hcb id targets (List.cons.inj hx).1
  · have hl' : l ++ [cb] = (l₁ ++ .cancelInLoop id targets :: l₃) ++ [x] := by simpa using hl
    exact h.order l₁ id targets l₃ (List.append_inj' hl' rfl).1

theorem tail {cb : Functor} (h : Tracked q (cb :: l) threads returned)
    (hcb : ∀ a, cb = .addTimerInLoop a → a ∉ q.unadded) : Tracked q l threads returned := by
  refine ⟨h.created, fun t a n ht => (h.queued t a n ht).tail hcb,
    fun p hp => (h.returned p hp).tail hcb, ?_⟩
  intro l₁ id targets l₂ hl n hn
  exact (h.order (cb :: l₁) id targets l₂ (by rw [hl]; rfl) n hn).tail hcb

theorem effect [Seconds D] {a : TimerQueue.Cut.Action D} (h : Tracked q l threads returned)
    (hi : TimerQueue.Owned q) (he : TimerQueue.Cut.Effect q a r) : Tracked r l threads returned where
  created t a n ht := (h.created t a n ht).effect hi he
  queued t a n ht := (h.queued t a n ht).effect hi he
  returned p hp := (h.returned p hp).effect hi he
  order l₁ id targets l₂ hl n hn := (h.order l₁ id targets l₂ hl n hn).effect hi he

theorem thread [DecidableEq τ] (h : Tracked q l threads returned) (t : τ) (x : Thread)
    (hcreated : ∀ a n, x = .created a n → Follows q [.addTimerInLoop a] ⟨a, n⟩ n)
    (hqueued : ∀ a n, x = .queued a n → Follows q l ⟨a, n⟩ n) :
    Tracked q l (Function.update threads t x) returned := by
  refine ⟨fun t' a n ht => ?_, fun t' a n ht => ?_, h.returned, h.order⟩
  · by_cases heq : t' = t
    · rw [heq, Function.update_self] at ht
      exact hcreated a n ht
    · exact h.created t' a n ((Function.update_of_ne heq ..).symm.trans ht)
  · by_cases heq : t' = t
    · rw [heq, Function.update_self] at ht
      exact hqueued a n ht
    · exact h.queued t' a n ((Function.update_of_ne heq ..).symm.trans ht)

theorem of_timersOf {s : State D τ} {id : TimerId} (h : Tracked q l threads s.returned)
    (hn : n ∈ s.timersOf id) : Follows q l id n := by
  obtain ⟨p, hp, rfl⟩ := List.mem_map.mp hn
  obtain ⟨hmem, hid⟩ := List.mem_filter.mp hp
  exact of_decide_eq_true hid ▸ h.returned p hmem

theorem cons_returned {id : TimerId} (h : Tracked q l threads returned) (hid : Follows q l id n) :
    Tracked q l threads ((id, n) :: returned) := by
  refine ⟨h.created, h.queued, fun p hp => ?_, h.order⟩
  rcases List.mem_cons.mp hp with rfl | hp
  · exact hid
  · exact h.returned p hp

end Tracked

variable [Seconds D] [DecidableEq τ] {s t : State D τ}
  {ok : State D τ → Action D τ → Prop}

/-! ## The order of the functors in a run -/

omit [Seconds D] [DecidableEq τ] in
/-- The event loop pushes and calls no functor of the timer queue by itself. -/
theorem Tracked.loop {a : EventLoop.Action Functor τ}
    (h : Tracked s.queue s.loop.waiting s.threads s.returned) (hmay : s.LoopMay a) :
    Tracked s.queue (a.waiting s.loop.waiting) s.threads s.returned := by
  cases a with
  | startFunctor =>
    obtain ⟨rest, hf⟩ := List.head?_eq_some_iff.mp hmay
    have hwaiting : s.loop.waiting = .other :: (rest ++ s.loop.pendingFunctors) := by
      unfold EventLoop.State.waiting
      rw [hf]
      rfl
    rw [hwaiting] at h ⊢
    exact h.tail nofun
  | selfQueue cb | queue _ cb =>
    obtain ⟨rfl, -⟩ := hmay
    exact h.push nofun
  | _ => exact h

/-- **Step lemma**: no step lets a cancel get in front of the functor that adds its timer. -/
theorem Tracked.step {a : Action D τ} (hloop : EventLoop.Inv s.loop)
    (hqueue : TimerQueue.Owned s.queue) (h : Tracked s.queue s.loop.waiting s.threads s.returned)
    (he : Effect s a t) : Tracked t.queue t.loop.waiting t.threads t.returned := by
  cases he with
  | loop hmay hl =>
    show Tracked _ (EventLoop.State.waiting _) _ _
    rw [hloop.waiting_step hl]
    exact h.loop hmay
  | timers hmay hq => exact h.effect hqueue (hqueue.cut_step hq)
  | callAdd hf hl hq hm =>
    have heff := hqueue.cut_step hq
    rw [hloop.waiting_call hf hl hm] at h
    exact (h.effect hqueue heff).tail (Follows.added hqueue heff rfl)
  | callCancel hf hl hq hm =>
    rw [hloop.waiting_call hf hl hm] at h
    exact (h.effect hqueue (hqueue.cut_step hq)).tail nofun
  | selfAddTimer hcode hp hq =>
    have hp' := hqueue.cut_step hp
    have hqueue' := hp'.owned hqueue
    have hq' := hqueue'.cut_step hq
    refine ((h.effect hqueue hp').effect hqueue' hq').cons_returned ?_
    have hnew := (Follows.of_newTimer hqueue' hp').effect hqueue' hq'
    exact (hnew.tail (Follows.added hqueue' hq' rfl)).mono nofun
  | selfCancel hcode hq => exact h.effect hqueue (hqueue.cut_step hq)
  | newTimer hidle hq =>
    have heff := hqueue.cut_step hq
    refine (h.effect hqueue heff).thread _ _ ?_ nofun
    rintro a n ⟨⟩
    exact Follows.of_newTimer (heff.owned hqueue) heff
  | @queueTimer t timer number l ht hl =>
    show Tracked _ (EventLoop.State.waiting _) _ _
    rw [hloop.waiting_step hl]
    have hpush : Tracked s.queue (s.loop.waiting ++ [.addTimerInLoop timer]) s.threads s.returned :=
      h.push nofun
    refine hpush.thread _ _ nofun ?_
    rintro a n ⟨⟩
    exact (h.created t timer number ht).mono fun cb hcb => List.mem_append_right _ hcb
  | @addTimerReturns t timer number garbage ht hidle =>
    have hid := h.queued t timer number ht
    refine (h.thread t .idle nofun nofun).cons_returned ⟨hid.created, fun a u hu hseq => ?_⟩
    -- the sequence number is read from the timer if it is live
    obtain ⟨heq, hin⟩ := hid.live a u hu hseq
    obtain rfl : timer = a := congrArg ActiveTimer.timer heq
    rw [hu, Option.map_some, Option.getD_some, hseq]
    exact ⟨rfl, hin⟩
  | cancel hidle hl =>
    show Tracked _ (EventLoop.State.waiting _) _ _
    rw [hloop.waiting_step hl]
    refine h.push ?_
    intro id targets heq n hn
    cases heq
    exact h.of_timersOf hn

theorem reach_tracked (h : (machine D τ).Reach ok s) :
    Tracked s.queue s.loop.waiting s.threads s.returned := by
  refine Machine.Reach.induct
    (I := fun s => Tracked s.queue s.loop.waiting s.threads s.returned) ?_ ?_ h
  · rintro s rfl
    refine ⟨nofun, nofun, nofun, fun l₁ id targets l₂ hl => ?_⟩
    cases l₁ <;> cases hl
  · intro s a t hr ht _ hs
    exact ht.step (EventLoop.reach_inv (reach_loop hr)) (TimerQueue.reach_owned (reach_queue hr))
      (effect_of_step hs)

/-! ## Canceled timers -/

/-- The loop thread does not call `cancel` for the timer with number `n` while the functor that adds
it waits, nor from a destructor that `reset` runs while the timer is still to be restarted. -/
def NoUnseenCancel (n : ℕ) (s : State D τ) : Action D τ → Prop
  | .selfCancel timerId =>
    n ∈ s.timersOf timerId → s.addWaiting n = false ∧ s.restartWaiting n = false
  | _ => True

instance : ∀ (s : State D τ) (a : Action D τ), Decidable (NoUnseenCancel n s a)
  | s, .selfCancel timerId => inferInstanceAs
      (Decidable (n ∈ s.timersOf timerId → s.addWaiting n = false ∧ s.restartWaiting n = false))
  | _, .loop _ | _, .timers _ | _, .callFunctor _ | _, .selfAddTimer .. | _, .newTimer ..
  | _, .queueTimer _ | _, .addTimerReturns .. | _, .cancel .. => inferInstanceAs (Decidable True)

omit [Seconds D] [DecidableEq τ] in
theorem addWaiting_of_mem {a : Addr} {u : Timer D} (hu : s.queue.heap a = some u)
    (hseq : u.sequence = n) (hin : .addTimerInLoop a ∈ s.loop.waiting) : s.addWaiting n = true := by
  refine List.any_eq_true.mpr ⟨_, hin, ?_⟩
  simp [hu, hseq]

omit [Seconds D] [DecidableEq τ] in
theorem restartWaiting_of_mem {a : Addr} {u : Timer D}
    (hcalling : s.queue.callingExpiredTimers = false) (ha : a ∈ s.queue.batch)
    (hu : s.queue.heap a = some u) (hseq : u.sequence = n) (hr : TimerQueue.Restarts s.queue a u) :
    s.restartWaiting n = true := by
  rw [State.restartWaiting, hcalling, Bool.not_false, Bool.true_and]
  refine List.any_eq_true.mpr ⟨a, ha, ?_⟩
  simp [hu, hseq, hr]

/-- **Run lemma**: the timers whose cancels were executed are gone. -/
theorem reach_gone (h : (machine D τ).Reach (NoUnseenCancel n) s) :
    ∀ b, (n, b) ∈ s.canceled → TimerQueue.Gone s.queue n b := by
  refine Machine.Reach.induct
    (I := fun s => ∀ b, (n, b) ∈ s.canceled → TimerQueue.Gone s.queue n b) ?_ ?_ h
  · rintro s rfl b hb
    cases hb
  intro s a t hr hgone hok hs b hb
  have hqueue := TimerQueue.reach_owned (reach_queue hr)
  have hran := TimerQueue.reach_ran_le (reach_queue hr)
  have htracked := reach_tracked hr
  cases effect_of_step hs with
  | loop _ _ | queueTimer _ _ | addTimerReturns _ _ | cancel _ _ => exact hgone b hb
  | timers _ hq | callAdd _ _ hq _ | newTimer _ hq =>
    exact (hgone b hb).cut_effect hqueue (hqueue.cut_step hq)
  | selfAddTimer _ hp hq =>
    have hp' := hqueue.cut_step hp
    have hqueue' := hp'.owned hqueue
    exact ((hgone b hb).cut_effect hqueue hp').cut_effect hqueue' (hqueue'.cut_step hq)
  | @callCancel id targets now rest l m q hf hl hq hm =>
    have heff := hqueue.cut_step hq
    rcases List.mem_append.mp hb with hb | hb
    · obtain ⟨n', hn, heq⟩ := List.mem_map.mp hb
      cases heq
      -- the cancel is at the front, so the timer was added
      have hid := htracked.order [] id targets (rest ++ s.loop.pendingFunctors)
        (by rw [EventLoop.State.waiting, hf]; rfl) n hn
      refine TimerQueue.gone_of_cancel hqueue hid.created hran (fun a u hu hseq => ?_) ?_ heff
      · obtain ⟨heq, hin⟩ := hid.live a u hu hseq
        exact ⟨heq, fun ha => absurd (hin ha) List.not_mem_nil⟩
      · -- no batch is out while a functor is called
        intro _ a ha
        rw [TimerQueue.batch_of_quiet ((reach_inPlace hr).quiet_of_call hl)] at ha
        cases ha
    · exact (hgone b hb).cut_effect hqueue heff
  | @selfCancel id q hcode hq =>
    have heff := hqueue.cut_step hq
    rcases List.mem_append.mp hb with hb | hb
    · obtain ⟨n', hn, heq⟩ := List.mem_map.mp hb
      cases heq
      obtain ⟨hadd, hrestart⟩ := hok hn
      have hid := htracked.of_timersOf hn
      refine TimerQueue.gone_of_cancel hqueue hid.created hran (fun a u hu hseq => ?_) ?_ heff
      · obtain ⟨heq, hin⟩ := hid.live a u hu hseq
        refine ⟨heq, fun ha => ?_⟩
        have hwaits := addWaiting_of_mem hu hseq (hin ha)
        rw [hadd] at hwaits
        cases hwaits
      · intro hcalling a ha u hu hseq hr
        have hwaits := restartWaiting_of_mem hcalling ha hu hseq hr
        rw [hrestart] at hwaits
        cases hwaits
    · exact (hgone b hb).cut_effect hqueue heff

/-- **When a cancel is not lost**: in every run in which the loop thread does not call `cancel` for
a timer while the functor that adds it waits, nor from a destructor that `reset` runs while the timer
is still to be restarted, a timer whose cancel was executed is in neither index, and its callback was
run in no batch that began later. -/
theorem cancel_not_lost (h : (machine D τ).Reach (NoUnseenCancel n) s) {b : ℕ}
    (hc : (n, b) ∈ s.canceled) :
    (∀ e ∈ s.queue.timers, ∀ u, s.queue.heap e.timer = some u → u.sequence ≠ n) ∧
      (∀ p ∈ s.queue.activeTimers, p.sequence ≠ n) ∧ ∀ p ∈ s.queue.ran, p.2 = n → p.1 ≤ b := by
  have hi := TimerQueue.reach_owned (reach_queue h)
  have hgone := reach_gone h b hc
  exact ⟨hgone.not_timers hi, hgone.not_active hi, hgone.ran⟩

/-- A thread adds a timer and another cancels it before the loop starts. -/
def addThenCancel : List (Action ℕ Bool) :=
  [.newTimer true 8 100 1, .queueTimer true, .loop (.wakeup true), .addTimerReturns true 0,
    .cancel false ⟨8, 1⟩, .loop (.wakeup false), .loop .callLoop, .loop .clearQuit,
    .loop .whileTest, .loop (.pollReturns true), .loop .handleRead, .loop .eventsDone, .loop .swap,
    .callFunctor 50, .callFunctor 60]

theorem cancel_not_lost_addThenCancel : ∃ s : State ℕ Bool,
    (machine ℕ Bool).Reach (NoUnseenCancel 1) s ∧ (1, 0) ∈ s.canceled ∧
      ∀ p ∈ s.queue.activeTimers, p.sequence ≠ 1 := by
  obtain ⟨s, hs, hc⟩ : ∃ s : State ℕ Bool,
      (machine ℕ Bool).exec (NoUnseenCancel 1) init addThenCancel = some s ∧
        s.canceled = [(1, 0)] := ⟨_, rfl, rfl⟩
  have hr : (machine ℕ Bool).Reach (NoUnseenCancel 1) s := .of_exec (.init rfl) hs
  have hmem : (1, 0) ∈ s.canceled := hc ▸ List.mem_cons_self
  exact ⟨s, hr, hmem, (cancel_not_lost hr hmem).2.1⟩

/-- A thread adds a timer; the loop thread gets its id and cancels it before the functor is called. -/
def cancelBeforeAdd : List (Action ℕ Bool) :=
  [.newTimer true 8 100 1, .queueTimer true, .loop (.wakeup true), .addTimerReturns true 0,
    .selfCancel ⟨8, 1⟩, .loop .callLoop, .loop .clearQuit, .loop .whileTest,
    .loop (.pollReturns true), .loop .handleRead, .loop .eventsDone, .loop .swap, .callFunctor 50]

/-- The next iteration runs the timer. -/
def runTimer : List (Action ℕ Bool) :=
  [.loop .drainDone, .loop .whileTest, .loop (.pollReturns false), .timers (.whole (.handleRead 200 true)),
    .timers (.whole .run)]

/-- Both functors were executed, but the timer is active and runs in a batch that begins later. -/
theorem cancel_lost : ∃ s t : State ℕ Bool, (machine ℕ Bool).Reach anyAction s ∧
    s.returned = [(⟨8, 1⟩, 1)] ∧ (1, s.queue.batchNo) ∈ s.canceled ∧ s.loop.waiting = [] ∧
      s.queue.unadded = [] ∧ ⟨8, 1⟩ ∈ s.queue.activeTimers ∧
      (machine ℕ Bool).Path anyAction s t ∧ (s.queue.batchNo + 1, 1) ∈ t.queue.ran := by
  obtain ⟨s, t, hs, ht, hreturned, hcanceled, hwaiting, hunadded, hactive, hran⟩ :
      ∃ s t : State ℕ Bool,
        (machine ℕ Bool).exec anyAction init cancelBeforeAdd = some s ∧
          (machine ℕ Bool).exec anyAction s runTimer = some t ∧ s.returned = [(⟨8, 1⟩, 1)] ∧
          s.canceled = [(1, s.queue.batchNo)] ∧ s.loop.waiting = [] ∧ s.queue.unadded = [] ∧
          ⟨8, 1⟩ ∈ s.queue.activeTimers ∧ t.queue.ran = [(s.queue.batchNo + 1, 1)] :=
    ⟨_, _, rfl, rfl, rfl, rfl, rfl, rfl, by decide, rfl⟩
  refine ⟨s, t, .of_exec (.init rfl) hs, hreturned, ?_, hwaiting, hunadded, hactive,
    .of_exec .refl ht, ?_⟩
  · rw [hcanceled]
    exact List.mem_cons_self
  · rw [hran]
    exact List.mem_cons_self

/-- Two timers expire together; a destructor of the first one cancels the second one, which repeats. -/
def cancelInDestructor : List (Action ℕ Bool) :=
  [.selfAddTimer 8 100 0 50, .selfAddTimer 16 100 1 50, .loop .callLoop, .loop .clearQuit,
    .loop .whileTest, .loop (.pollReturns false), .timers (.whole (.handleRead 200 true)),
    .timers (.whole .run), .timers (.whole .callbackReturns), .timers (.whole .run),
    .timers (.whole .callbackReturns), .timers .callbacksDone, .timers .resetRound,
    .selfCancel ⟨16, 2⟩, .timers (.whole .callbackReturns), .timers .resetRound,
    .timers (.resetDone 300 0)]

/-- After `reset` the second timer is active. -/
theorem cancel_lost_destructor : ∃ s : State ℕ Bool, (machine ℕ Bool).Reach anyAction s ∧
    (⟨16, 2⟩, 2) ∈ s.returned ∧ (2, s.queue.batchNo) ∈ s.canceled ∧
      s.queue.phase.isQuiet = true ∧ ⟨16, 2⟩ ∈ s.queue.activeTimers := by
  obtain ⟨s, hs, hreturned, hcanceled, hquiet, hactive⟩ : ∃ s : State ℕ Bool,
      (machine ℕ Bool).exec anyAction init cancelInDestructor = some s ∧
        s.returned = [(⟨16, 2⟩, 2), (⟨8, 1⟩, 1)] ∧ s.canceled = [(2, s.queue.batchNo)] ∧
        s.queue.phase.isQuiet = true ∧ ⟨16, 2⟩ ∈ s.queue.activeTimers :=
    ⟨_, rfl, rfl, rfl, rfl, by decide⟩
  refine ⟨s, .of_exec (.init rfl) hs, ?_, ?_, hquiet, hactive⟩
  · rw [hreturned]
    exact List.mem_cons_self
  · rw [hcanceled]
    exact List.mem_cons_self

end MengSen.TimerLoop

import MengSen.Net.TimerQueueInv

/-!
# Net.TimerQueueCut — the user code that `reset` runs

`reset` of `net/TimerQueue.cpp` deletes the timers that it does not restart, and with a timer its
callback: the destructors of what the callback holds are code of the user, which may add and cancel
timers.  By then `callingExpiredTimers_` is false, and the rest of the batch is still in no index.
Here `reset` is cut into the rounds of its loop.  Between the rounds the batch in `phase` is what is
left of it, and `inCallback` is a destructor, which `callbackReturns` ends.  A run of
`Net.TimerQueue` is a run in which the destructors call nothing (`reach_cut`).

`cancelInLoop` deletes a timer too, before it takes the timer out of `activeTimers_`: a destructor
that adds or cancels a timer there fails the assert about the sizes, and such runs end.
-/

namespace MengSen.TimerQueue

open Machine (guarded guarded_eq ok_bind pure_eq_ok bind_eq_ok anyAction)

namespace Cut

inductive Action (D : Type)
  /-- an action of the machine, except `reset` -/
  | whole (a : TimerQueue.Action D)
  /-- `callingExpiredTimers_ = false` -/
  | callbacksDone
  /-- one round of the loop of `reset` -/
  | resetRound
  /-- `reset` after its loop -/
  | resetDone (clock garbage : ℕ)

variable {D : Type} [Seconds D]

def act (s : State D) : Action D → Option (Except Fault (State D))
  | .whole (.reset _ _) => none
  | .whole a => (TimerQueue.machine D).act s a
  | .callbacksDone =>
    match s.phase with
    | .running _ _ [] =>
      guarded (s.callingExpiredTimers = true) { s with callingExpiredTimers := false }
    | _ => none
  | .resetRound =>
    match s.phase with
    | .running now (it :: expired) [] =>
      if s.callingExpiredTimers = false then some do
        let s ← s.resetLoop now [it]
        -- a timer that is not restarted was deleted, and its callback destroyed
        if (s.heap it.timer).isSome then
          return { s with phase := .running now expired [] }
        else
          return { s with phase := .inCallback now expired [] }
      else none
    | _ => none
  | .resetDone clock garbage =>
    match s.phase with
    | .running now [] [] =>
      if s.callingExpiredTimers = false ∧ clock < 2 ^ 64 ∧ garbage < 2 ^ 64 then some do
        let s ← s.reset [] now clock garbage
        return { s with phase := .quiet }
      else none
    | _ => none

def machine (D : Type) [Seconds D] : Machine (State D) (Action D) Fault where
  init s := s = init
  act := act

/-! ## What an action does -/

variable {s t : State D}

theorem act_whole {a : TimerQueue.Action D} (ha : ∀ clock garbage, a ≠ .reset clock garbage) :
    act s (.whole a) = (TimerQueue.machine D).act s a := by
  cases a with
  | reset clock garbage => exact absurd rfl (ha clock garbage)
  | _ => rfl

/-- A callback or a destructor returns. -/
theorem step_callbackReturns {now : ℕ} {expired rest : List Entry}
    (hp : s.phase = .inCallback now expired rest) :
    (machine D).Step s (.whole .callbackReturns) { s with phase := .running now expired rest } := by
  simp [Machine.Step, machine, act, TimerQueue.machine, TimerQueue.act, InRange, hp]

/-- The effect of each action on a state whose timers are owned. -/
inductive Effect (s : State D) : Action D → State D → Prop
  | whole {a t} (he : TimerQueue.Effect s a t) : Effect s (.whole a) t
  | callbacksDone {now expired} (hp : s.phase = .running now expired []) :
    Effect s .callbacksDone { s with callingExpiredTimers := false }
  | restart {now it expired t} (hp : s.phase = .running now (it :: expired) [])
    (ht : s.heap it.timer = some t) (hr : Restarts s it.timer t)
    (hs : Synced { s with
      heap := Function.update s.heap it.timer (some (t.restart now))
      timers := (s.timers.insert ⟨(t.restart now).expiration, it.timer⟩).1
      activeTimers := (s.activeTimers.insert ⟨it.timer, t.sequence⟩).1 }) :
    Effect s .resetRound { s with
      heap := Function.update s.heap it.timer (some (t.restart now))
      timers := (s.timers.insert ⟨(t.restart now).expiration, it.timer⟩).1
      activeTimers := (s.activeTimers.insert ⟨it.timer, t.sequence⟩).1
      phase := .running now expired [] }
  | delete {now it expired t} (hp : s.phase = .running now (it :: expired) [])
    (ht : s.heap it.timer = some t) (hr : ¬ Restarts s it.timer t)
    (hs : Synced { s with heap := Function.update s.heap it.timer none }) :
    Effect s .resetRound { s with
      heap := Function.update s.heap it.timer none
      phase := .inCallback now expired [] }
  | resetDone {now clock garbage} (hp : s.phase = .running now [] []) :
    Effect s (.resetDone clock garbage) { s with
      timerfd :=
        if Timestamp.valid (nextExpire s.timers garbage) then
          some ⟨nextExpire s.timers garbage, clock,
            detail.howMuchTimeFromNow (nextExpire s.timers garbage) clock⟩
        else s.timerfd
      phase := .quiet }

end Cut

variable {D : Type} [Seconds D] {s t : State D}

/-- **Inversion**: an enabled action fails no assert, dereferences no deleted timer and deletes none
twice, and has its effect. -/
theorem Owned.cut_effect {a : Cut.Action D} (h : Owned s) {r : Except Fault (State D)}
    (hr : Cut.act s a = some r) : ∃ u, r = .ok u ∧ Cut.Effect s a u := by
  cases a with
  | whole a =>
    have hact : (machine D).act s a = some r := by
      cases a with
      | reset clock garbage => cases hr
      | _ => exact hr
    obtain ⟨u, hu, he⟩ := h.effect (Option.ite_none_right_eq_some.mp hact).2
    exact ⟨u, hu, .whole he⟩
  | callbacksDone =>
    simp only [Cut.act] at hr
    split at hr
    · next now expired hp =>
      obtain ⟨-, rfl⟩ := guarded_eq.mp hr
      exact ⟨_, rfl, .callbacksDone hp⟩
    · cases hr
  | resetRound =>
    simp only [Cut.act] at hr
    split at hr
    · next now it expired hp =>
      obtain ⟨-, hr⟩ := Option.ite_none_right_eq_some.mp hr
      obtain rfl := Option.some.inj hr
      obtain ⟨t, ht, hn⟩ := h.detached hp it List.mem_cons_self
      by_cases hrestarts : Restarts s it.timer t
      · obtain ⟨hround, hs⟩ := resetLoop_restart now h.synced ht hn hrestarts
        refine ⟨_, ?_, .restart hp ht hrestarts hs⟩
        rw [hround, ok_bind, if_pos (by simp), pure_eq_ok]
      · obtain ⟨hround, hs⟩ := resetLoop_delete now h.synced ht hn hrestarts
        refine ⟨_, ?_, .delete hp ht hrestarts hs⟩
        rw [hround, ok_bind, if_neg (by simp), pure_eq_ok]
    · cases hr
  | resetDone clock garbage =>
    simp only [Cut.act] at hr
    split at hr
    · next now hp =>
      obtain ⟨-, hr⟩ := Option.ite_none_right_eq_some.mp hr
      obtain rfl := Option.some.inj hr
      refine ⟨_, ?_, .resetDone hp⟩
      rw [reset_nil h.synced, ok_bind, pure_eq_ok]
    · cases hr

theorem Owned.cut_ne_error (h : Owned s) (a : Cut.Action D) (e : Fault) :
    Cut.act s a ≠ some (.error e) := by
  intro he
  obtain ⟨u, hu, -⟩ := h.cut_effect he
  cases hu

theorem Owned.cut_enabled {a : Cut.Action D} (h : Owned s) (ha : Cut.act s a ≠ none) :
    ∃ u, (Cut.machine D).Step s a u := by
  obtain ⟨r, hr⟩ := Option.ne_none_iff_exists'.mp ha
  obtain ⟨u, rfl, -⟩ := h.cut_effect hr
  exact ⟨u, hr⟩

theorem Owned.cut_step {a : Cut.Action D} (h : Owned s) (hs : (Cut.machine D).Step s a t) :
    Cut.Effect s a t := by
  obtain ⟨u, hu, he⟩ := h.cut_effect hs
  cases hu
  exact he

/-! ## The owners -/

omit [Seconds D] in
/-- A round takes the first entry out of the batch. -/
theorem Owned.round {now : ℕ} {it : Entry} {expired : List Entry} (h : Owned s)
    (hp : s.phase = .running now (it :: expired) []) (hb : t.phase.batch = expired)
    (hrest : t.phase.rest = []) (hs : Synced t) (hnum : t.numCreated = s.numCreated)
    (hunadded : t.unadded = s.unadded) (hheap : ∀ a ≠ it.timer, t.heap a = s.heap a)
    (hactive : ∀ p, p.timer ≠ it.timer → (p ∈ t.activeTimers ↔ p ∈ s.activeTimers))
    (hself : ∀ u, t.heap it.timer = some u →
      (⟨it.timer, u.sequence⟩ : ActiveTimer) ∈ t.activeTimers ∧
        ∃ v, s.heap it.timer = some v ∧ v.sequence = u.sequence) : Owned t := by
  have hbatch : s.batch = it.timer :: expired.map Entry.timer := batch_of_running hp
  have hbatch' : t.batch = expired.map Entry.timer := congrArg (List.map Entry.timer) hb
  have hnd := h.batch_nodup
  rw [hbatch, List.nodup_cons] at hnd
  have hdet : ∀ a ≠ it.timer, Detached s a → Detached t a := fun a ha hd =>
    hd.frame (hheap a ha) fun p hp heq => (hactive p (heq ▸ ha)).mp hp
  have hlive : ∀ a u, t.heap a = some u → ∃ v, s.heap a = some v ∧ v.sequence = u.sequence := by
    intro a u hu
    by_cases ha : a = it.timer
    · subst ha
      exact (hself u hu).2
    · exact ⟨u, (hheap a ha).symm.trans hu, rfl⟩
  have hsub : ∀ a ∈ t.batch, a ∈ s.batch ∧ a ≠ it.timer := by
    intro a ha
    rw [hbatch'] at ha
    exact ⟨hbatch ▸ List.mem_cons_of_mem _ ha, fun heq => hnd.1 (heq ▸ ha)⟩
  have hout : ∀ a ∈ s.unadded, a ≠ it.timer := fun a ha heq =>
    h.disjoint a (hbatch ▸ heq ▸ List.mem_cons_self) ha
  exact {
    synced := hs
    heap := hnum ▸ h.heap.sub hlive
    batch_detached := fun a ha => hdet a (hsub a ha).2 (h.batch_detached a (hsub a ha).1)
    batch_nodup := hbatch' ▸ hnd.2
    rest_subset := by
      rw [hrest]
      exact fun e he => absurd he List.not_mem_nil
    unadded_detached := by
      rw [hunadded]
      exact fun a ha => hdet a (hout a ha) (h.unadded_detached a ha)
    unadded_nodup := hunadded ▸ h.unadded_nodup
    disjoint := by
      rw [hunadded]
      exact fun a ha => h.disjoint a (hsub a ha).1
    owned := by
      intro a u hu
      by_cases ha : a = it.timer
      · subst ha
        exact .inl (hself u hu).1
      · rcases h.owned a u ((hheap a ha).symm.trans hu) with hp | hp | hp
        · exact .inl ((hactive _ ha).mpr hp)
        · exact .inr (.inl (hunadded ▸ hp))
        · rw [hbatch] at hp
          exact .inr (.inr (hbatch' ▸ (List.mem_cons.mp hp).resolve_left ha)) }

/-- **Step lemma**: every effect keeps the owners. -/
theorem Cut.Effect.owned {a : Cut.Action D} (h : Owned s) (he : Cut.Effect s a t) : Owned t := by
  cases he with
  | whole he => exact he.owned h
  | callbacksDone hp => exact h.congr rfl rfl rfl rfl rfl rfl h.rest_subset
  | @restart now it expired u hp hu hr hs =>
    refine h.round hp rfl rfl ⟨hs.entry_iff, hs.active_live, hs.size_eq⟩ rfl rfl
      (fun a ha => Function.update_of_ne ha ..) (fun p hp => ?_) fun v hv => ?_
    · rw [OrdSet.mem_insert]
      exact or_iff_right fun heq => hp (congrArg ActiveTimer.timer heq)
    · simp only [Function.update_self, Option.some.injEq] at hv
      rw [← hv, u.restart_sequence]
      exact ⟨OrdSet.mem_insert.mpr (.inl rfl), u, hu, rfl⟩
  | @delete now it expired u hp hu hr hs =>
    refine h.round hp rfl rfl ⟨hs.entry_iff, hs.active_live, hs.size_eq⟩ rfl rfl
      (fun a ha => Function.update_of_ne ha ..) (fun p hp => Iff.rfl) fun v hv => ?_
    simp only [Function.update_self, reduceCtorEq] at hv
  | resetDone hp => exact h.congr rfl rfl rfl rfl rfl (by rw [hp]; rfl) fun e he => he

/-- **Run lemma**: every timer has its owner, also between the rounds of `reset`. -/
theorem reach_owned {ok : State D → Cut.Action D → Prop} (h : (Cut.machine D).Reach ok s) :
    Owned s := by
  refine Machine.Reach.induct (I := Owned) ?_ ?_ h
  · rintro s rfl
    exact init_inv.toOwned
  · exact fun s a t _ hi _ hs => (hi.cut_step hs).owned hi

/-! ## Destructors that call nothing -/

/-- The rounds lead where `reset` leads. -/
theorem reset_rounds {now clock garbage : ℕ} (hrange : clock < 2 ^ 64 ∧ garbage < 2 ^ 64)
    (l : List Entry) :
    ∀ s : State D, Owned s → s.phase = .running now l [] → s.callingExpiredTimers = false →
      ∃ t : State D, (Cut.machine D).Path anyAction s { t with phase := .quiet } ∧
        ∀ p, { s with phase := p }.reset l now clock garbage = .ok { t with phase := p } := by
  induction l with
  | nil =>
    intro s h hp hcalling
    obtain ⟨u, hu⟩ := h.cut_enabled (a := .resetDone clock garbage)
      (by simpa [Cut.act, hp, hcalling] using hrange)
    refine ⟨{ s with
      timerfd :=
        if Timestamp.valid (nextExpire s.timers garbage) then
          some ⟨nextExpire s.timers garbage, clock,
            detail.howMuchTimeFromNow (nextExpire s.timers garbage) clock⟩
        else s.timerfd }, ?_, fun p => ?_⟩
    · cases h.cut_step hu with
      | resetDone hp' => exact .single trivial hu
    · exact reset_nil (s := { s with phase := p })
        ⟨h.synced.entry_iff, h.synced.active_live, h.synced.size_eq⟩ now clock garbage
  | cons it l ih =>
    intro s h hp hcalling
    have hsync : ∀ p, Synced { s with phase := p } := fun p =>
      ⟨h.synced.entry_iff, h.synced.active_live, h.synced.size_eq⟩
    obtain ⟨v, hv, hn⟩ := h.detached hp it List.mem_cons_self
    obtain ⟨u, hu⟩ := h.cut_enabled (a := .resetRound) (by simp [Cut.act, hp, hcalling])
    have hpath : (Cut.machine D).Path anyAction s u := .single trivial hu
    have howned := (h.cut_step hu).owned h
    cases h.cut_step hu with
    | restart hp' ht hr hs =>
      cases hp.symm.trans hp'
      cases hv.symm.trans ht
      obtain ⟨t, hrest, hreset⟩ := ih _ howned rfl hcalling
      refine ⟨t, hpath.trans hrest, fun p => ?_⟩
      rw [reset_eq, resetLoop_cons, (resetLoop_restart now (hsync p) ht hn hr).1]
      exact hreset p
    | delete hp' ht hr hs =>
      cases hp.symm.trans hp'
      cases hv.symm.trans ht
      -- the destructor returns
      have hback := hpath.step trivial (Cut.step_callbackReturns rfl)
      obtain ⟨t, hrest, hreset⟩ := ih _ ((Effect.callbackReturns rfl).owned howned) rfl hcalling
      refine ⟨t, hback.trans hrest, fun p => ?_⟩
      rw [reset_eq, resetLoop_cons, (resetLoop_delete now (hsync p) ht hn hr).1]
      exact hreset p

/-- **A run of the timer queue is a run with destructors that call nothing.** -/
theorem reach_cut (h : (machine D).Reach anyAction s) : (Cut.machine D).Reach anyAction s := by
  refine Machine.Reach.map (M := machine D) (N := Cut.machine D) id (fun s hs => hs)
    (fun s a t hr _ hs => ?_) h
  have hi := reach_inv hr
  cases a with
  | reset clock garbage =>
    obtain ⟨hrange, hact⟩ := Option.ite_none_right_eq_some.mp hs
    cases hp : s.phase with
    | quiet => simp [act, hp] at hact
    | inCallback now expired rest => simp [act, hp] at hact
    | running now expired rest =>
      cases rest with
      | cons it rest => simp [act, hp] at hact
      | nil =>
        have hdone : (Cut.machine D).Step s .callbacksDone
            { s with callingExpiredTimers := false } := by
          have hcalling := hi.calling
          rw [hp] at hcalling
          simp [Machine.Step, Cut.machine, Cut.act, hp, hcalling, Phase.isQuiet]
        obtain ⟨t', hpath, hreset⟩ := reset_rounds hrange expired _
          ((Cut.Effect.callbacksDone hp).owned hi.toOwned) hp rfl
        simp only [act, hp, Option.some.injEq] at hact
        obtain ⟨u, hu, ht⟩ := bind_eq_ok.mp hact
        obtain rfl := Except.ok.inj ((hreset (.running now expired [])).symm.trans hu)
        obtain rfl := Except.ok.inj ht
        exact (Machine.Path.single trivial hdone).trans hpath
  | _ => exact .single trivial ((Cut.act_whole fun _ _ h => by cases h).trans hs)

end MengSen.TimerQueue

import MengSen.Net.TimerQueueCut

/-!
# Net.TimerQueueCancel — a canceled timer is gone

Timers are told apart by their sequence numbers.  `Gone`: the timer with a given number is dead, or
it waits in the expired batch for `reset` to delete it.  `cancelInLoop` makes it so unless the timer
is not added yet, or `reset` has begun and is about to restart it (`gone_of_cancel`), and no action
brings it back (`Gone.cut_effect`).
-/

namespace MengSen.TimerQueue

variable {D : Type} {s t : State D} {n b : ℕ}

/-- The timer with number `n` is dead, or it is in the running batch, whose number is up to `b`, and
does not repeat or is noted; and its callback was not run in later batches. -/
structure Gone (s : State D) (n b : ℕ) : Prop where
  created : n ≤ s.numCreated
  noted : ∀ a u, s.heap a = some u → u.sequence = n →
    a ∈ s.batch ∧ (u.repeat_ = true → (⟨a, n⟩ : TimerId) ∈ s.cancelingTimers) ∧ s.batchNo ≤ b
  ran : ∀ p ∈ s.ran, p.2 = n → p.1 ≤ b

/-- A timer that is gone is in neither index. -/
theorem Gone.not_active (h : Gone s n b) (hi : Owned s) : ∀ p ∈ s.activeTimers, p.sequence ≠ n := by
  intro p hp hseq
  obtain ⟨u, hu, hseq'⟩ := hi.synced.active_live p hp
  have hb := (h.noted p.timer u hu (hseq'.trans hseq)).1
  exact hi.synced.ne_of_detached (hi.batch_detached _ hb) hp rfl

theorem Gone.not_timers (h : Gone s n b) (hi : Owned s) :
    ∀ e ∈ s.timers, ∀ u, s.heap e.timer = some u → u.sequence ≠ n := by
  intro e he u hu hseq
  obtain ⟨v, hv, -, hp⟩ := (hi.synced.entry_iff e).mp he
  rw [hu, Option.some.injEq] at hv
  exact h.not_active hi _ hp (hv ▸ hseq)

variable [Seconds D]

/-! ## What an action does to old timers -/

theorem Effect.numCreated_le {a : Action D} (he : Effect s a t) : s.numCreated ≤ t.numCreated := by
  cases he with
  | newTimer ha hlt => exact Nat.le_succ _
  | _ => exact le_rfl

/-- A timer that is live after an action is new, or was live before under the same number. -/
theorem Effect.live_old {a : Action D} {x : Addr} {u : Timer D} (hi : Owned s) (he : Effect s a t)
    (hu : t.heap x = some u) (hle : u.sequence ≤ s.numCreated) :
    ∃ v, s.heap x = some v ∧ v.sequence = u.sequence ∧ v.repeat_ = u.repeat_ := by
  cases he with
  | @newTimer timer when interval ha hlt =>
    by_cases hx : x = timer
    · rw [hx] at hu
      simp only [Function.update_self, Option.some.injEq] at hu
      rw [← hu] at hle
      exact absurd hle (Nat.not_succ_le_self _)
    · exact ⟨u, (Function.update_of_ne hx ..).symm.trans hu, rfl, rfl⟩
  | @cancelActive id v hcode hid hv hseq =>
    by_cases hx : x = id.timer
    · rw [hx] at hu
      simp only [Function.update_self, reduceCtorEq] at hu
    · exact ⟨u, (Function.update_of_ne hx ..).symm.trans hu, rfl, rfl⟩
  | @reset now expired clock garbage H T A hp hs hby =>
    exact hby.live (hi.detached hp) hu
  | _ => exact ⟨u, hu, rfl, rfl⟩

theorem Cut.Effect.numCreated_le {a : Cut.Action D} (he : Cut.Effect s a t) :
    s.numCreated ≤ t.numCreated := by
  cases he with
  | whole he => exact he.numCreated_le
  | _ => exact le_rfl

theorem Cut.Effect.live_old {a : Cut.Action D} {x : Addr} {u : Timer D} (hi : Owned s)
    (he : Cut.Effect s a t) (hu : t.heap x = some u) (hle : u.sequence ≤ s.numCreated) :
    ∃ v, s.heap x = some v ∧ v.sequence = u.sequence ∧ v.repeat_ = u.repeat_ := by
  cases he with
  | whole he => exact he.live_old hi hu hle
  | @restart now it expired v hp hv hr hs =>
    by_cases hx : x = it.timer
    · rw [hx] at hu ⊢
      simp only [Function.update_self, Option.some.injEq] at hu
      exact ⟨v, hv, by rw [← hu, v.restart_sequence], by rw [← hu, v.restart_repeat_]⟩
    · exact ⟨u, (Function.update_of_ne hx ..).symm.trans hu, rfl, rfl⟩
  | @delete now it expired v hp hv hr hs =>
    by_cases hx : x = it.timer
    · rw [hx] at hu
      simp only [Function.update_self, reduceCtorEq] at hu
    · exact ⟨u, (Function.update_of_ne hx ..).symm.trans hu, rfl, rfl⟩
  | _ => exact ⟨u, hu, rfl, rfl⟩

/-- What an action does to the timers that are not added. -/
def Action.unadded : Action D → List Addr → List Addr
  | .newTimer timer _ _, l => timer :: l
  | .addTimerInLoop timer _, l => l.erase timer
  | _, l => l

theorem Effect.unadded_eq {a : Action D} (he : Effect s a t) : t.unadded = a.unadded s.unadded := by
  cases he <;> rfl

/-- No action takes an old timer back to those that are not added. -/
theorem Effect.unadded_old {a : Action D} {x : Addr} {v : Timer D} (he : Effect s a t)
    (hx : x ∈ t.unadded) (hv : s.heap x = some v) : x ∈ s.unadded := by
  rw [he.unadded_eq] at hx
  cases he with
  | newTimer ha hlt =>
    rcases List.mem_cons.mp hx with rfl | hx
    · rw [ha] at hv
      cases hv
    · exact hx
  | add hcode ha hu hn => exact List.mem_of_mem_erase hx
  | _ => exact hx

def Cut.Action.unadded : Cut.Action D → List Addr → List Addr
  | .whole a, l => a.unadded l
  | _, l => l

theorem Cut.Effect.unadded_eq {a : Cut.Action D} (he : Cut.Effect s a t) :
    t.unadded = a.unadded s.unadded := by
  cases he with
  | whole he => exact he.unadded_eq
  | _ => rfl

theorem Cut.Effect.unadded_old {a : Cut.Action D} {x : Addr} {v : Timer D} (he : Cut.Effect s a t)
    (hx : x ∈ t.unadded) (hv : s.heap x = some v) : x ∈ s.unadded := by
  cases he with
  | whole he => exact he.unadded_old hx hv
  | _ => exact hx

/-- An action of `addTimer` or `cancel`, not of `handleRead`. -/
def Action.IsRequest : Action D → Prop
  | .newTimer .. | .addTimerInLoop .. | .cancelInLoop _ => True
  | _ => False

/-- `handleRead` stays where it is. -/
theorem Cut.Effect.phase_eq {a : TimerQueue.Action D} (he : Cut.Effect s (.whole a) t)
    (ha : a.IsRequest) : t.phase = s.phase := by
  cases he with
  | whole he =>
    cases he with
    | newTimer | add | cancelActive | cancelOther => rfl
    | handleRead | run | callbackReturns | reset => exact absurd ha id

/-! ## Once gone, always gone -/

/-- **Step lemma**: no action brings a canceled timer back, and no later batch runs it. -/
theorem Gone.effect {a : Action D} (h : Gone s n b) (hi : Owned s) (he : Effect s a t) :
    Gone t n b := by
  have hcreated := h.created.trans he.numCreated_le
  -- the timer was there before, so it waits in the batch
  have hold : ∀ x u, t.heap x = some u → u.sequence = n → x ∈ s.batch ∧
      (u.repeat_ = true → (⟨x, n⟩ : TimerId) ∈ s.cancelingTimers) ∧ s.batchNo ≤ b := by
    intro x u hu hseq
    obtain ⟨v, hv, hseq', hrepeat⟩ := he.live_old hi hu (hseq ▸ h.created)
    exact hrepeat ▸ h.noted x v hv (hseq'.trans hseq)
  cases he with
  | newTimer ha hlt => exact ⟨hcreated, hold, h.ran⟩
  | add hcode ha hu hn => exact ⟨hcreated, hold, h.ran⟩
  | cancelActive hcode hid hv hseq => exact ⟨hcreated, hold, h.ran⟩
  | cancelOther hcode hid =>
    refine ⟨hcreated, fun x u hu hseq => ?_, h.ran⟩
    obtain ⟨hb, hnoted, hle⟩ := hold x u hu hseq
    refine ⟨hb, fun hrepeat => ?_, hle⟩
    split
    · exact OrdSet.mem_insert.mpr (.inr (hnoted hrepeat))
    · exact hnoted hrepeat
  | handleRead expired T A hq hs hexp hT hA hnd =>
    refine ⟨hcreated, fun x u hu hseq => ?_, h.ran⟩
    -- no batch is out before
    have hb := (hold x u hu hseq).1
    rw [State.batch, hq] at hb
    cases hb
  | @run now expired it rest v hp hv =>
    refine ⟨hcreated, fun x u hu hseq => ?_, fun p hp' hseq => ?_⟩
    · have hb := hold x u hu hseq
      rw [State.batch, hp] at hb
      exact hb
    · rcases List.mem_append.mp hp' with hp' | hp'
      · exact h.ran p hp' hseq
      · obtain rfl := List.mem_singleton.mp hp'
        exact (hold it.timer v hv hseq).2.2
  | callbackReturns hp =>
    refine ⟨hcreated, fun x u hu hseq => ?_, h.ran⟩
    have hb := hold x u hu hseq
    rw [State.batch, hp] at hb
    exact hb
  | @reset now expired clock garbage H T A hp hs hby =>
    refine ⟨hcreated, fun x u hu hseq => ?_, h.ran⟩
    -- `reset` deletes what does not repeat or is noted
    obtain ⟨hb, hnoted, -⟩ := hold x u hu hseq
    rw [batch_of_running hp] at hb
    obtain ⟨-, -, -, v, hv, hr, rfl⟩ := hby.restarted (hi.detached hp) hu hb
    rw [v.restart_sequence] at hseq
    rw [v.restart_repeat_] at hnoted
    exact absurd (hseq ▸ hnoted hr.1) hr.2

/-- The same for the rounds of `reset`. -/
theorem Gone.cut_effect {a : Cut.Action D} (h : Gone s n b) (hi : Owned s)
    (he : Cut.Effect s a t) : Gone t n b := by
  cases he with
  | whole he => exact h.effect hi he
  | callbacksDone hp => exact ⟨h.created, h.noted, h.ran⟩
  | @restart now it expired v hp hv hr hs =>
    refine ⟨h.created, fun x u hu hseq => ?_, h.ran⟩
    by_cases hx : x = it.timer
    · -- what is restarted repeats and is not noted
      rw [hx] at hu
      simp only [Function.update_self, Option.some.injEq] at hu
      have hseq' : v.sequence = n := by rw [← hseq, ← hu, v.restart_sequence]
      exact absurd (hseq' ▸ (h.noted it.timer v hv hseq').2.1 hr.1) hr.2
    · obtain ⟨hb, hnoted⟩ := h.noted x u ((Function.update_of_ne hx ..).symm.trans hu) hseq
      rw [batch_of_running hp] at hb
      exact ⟨(List.mem_cons.mp hb).resolve_left hx, hnoted⟩
  | @delete now it expired v hp hv hr hs =>
    refine ⟨h.created, fun x u hu hseq => ?_, h.ran⟩
    by_cases hx : x = it.timer
    · rw [hx] at hu
      simp only [Function.update_self, reduceCtorEq] at hu
    · obtain ⟨hb, hnoted⟩ := h.noted x u ((Function.update_of_ne hx ..).symm.trans hu) hseq
      rw [batch_of_running hp] at hb
      exact ⟨(List.mem_cons.mp hb).resolve_left hx, hnoted⟩
  | resetDone hp =>
    refine ⟨h.created, fun x u hu hseq => ?_, h.ran⟩
    have hb := (h.noted x u hu hseq).1
    rw [State.batch, hp] at hb
    cases hb

/-- **`cancelInLoop`**: the timer is gone, unless it is not added yet, the id is not its own, or
`reset` has begun and restarts it. -/
theorem gone_of_cancel {id : TimerId} (hi : Owned s) (hcreated : n ≤ s.numCreated)
    (hran : ∀ p ∈ s.ran, p.1 ≤ s.batchNo)
    (hid : ∀ a u, s.heap a = some u → u.sequence = n → id = ⟨a, n⟩ ∧ a ∉ s.unadded)
    (hreset : s.callingExpiredTimers = false → ∀ a ∈ s.batch, ∀ u, s.heap a = some u →
      u.sequence = n → ¬ Restarts s a u)
    (he : Cut.Effect s (.whole (.cancelInLoop id)) t) : Gone t n t.batchNo := by
  obtain ⟨he⟩ := he
  cases he with
  | cancelActive hcode hact hv hseq =>
    refine ⟨hcreated, fun x u hu hseq' => ?_, fun p hp _ => hran p hp⟩
    by_cases hx : x = id.timer
    · rw [hx] at hu
      simp only [Function.update_self, reduceCtorEq] at hu
    · -- the id was that of the timer
      have hu' : s.heap x = some u := (Function.update_of_ne hx ..).symm.trans hu
      exact absurd (congrArg ActiveTimer.timer (hid x u hu' hseq').1).symm hx
  | cancelOther hcode hact =>
    refine ⟨hcreated, fun x u hu hseq => ?_, fun p hp _ => hran p hp⟩
    obtain ⟨rfl, hadded⟩ := hid x u hu hseq
    rcases hi.owned x u hu with hp | hp | hp
    · exact absurd (hseq ▸ hp) hact
    · exact absurd hp hadded
    · refine ⟨hp, fun hrepeat => ?_, le_rfl⟩
      cases hcalling : s.callingExpiredTimers with
      | true =>
        simp only [if_true]
        exact OrdSet.mem_insert.mpr (.inl rfl)
      | false =>
        simp only [Bool.false_eq_true, if_false]
        by_contra hnot
        exact hreset hcalling x hp u hu hseq ⟨hrepeat, hseq ▸ hnot⟩

/-- Callbacks are run in batches begun. -/
theorem Effect.ran_le {a : Action D} (he : Effect s a t) (hran : ∀ p ∈ s.ran, p.1 ≤ s.batchNo) :
    ∀ p ∈ t.ran, p.1 ≤ t.batchNo := by
  cases he with
  | handleRead expired T A hq hs hexp hT hA hnd =>
    exact fun p hp => (hran p hp).trans (Nat.le_succ _)
  | run hp ht =>
    intro p hp'
    rcases List.mem_append.mp hp' with hp' | hp'
    · exact hran p hp'
    · obtain rfl := List.mem_singleton.mp hp'
      exact le_rfl
  | _ => exact hran

theorem reach_ran_le {ok : State D → Cut.Action D → Prop} (h : (Cut.machine D).Reach ok s) :
    ∀ p ∈ s.ran, p.1 ≤ s.batchNo := by
  refine Machine.Reach.induct (I := fun s => ∀ p ∈ s.ran, p.1 ≤ s.batchNo) ?_ ?_ h
  · rintro s rfl p hp
    cases hp
  · intro s a t hr hran _ hs
    cases (reach_owned hr).cut_step hs with
    | whole he => exact he.ran_le hran
    | _ => exact hran

end MengSen.TimerQueue

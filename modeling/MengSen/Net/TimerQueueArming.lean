import MengSen.Net.TimerQueueInv
import Mathlib.Algebra.Order.Ring.Int

/-!
# Net.TimerQueueArming — whether the timerfd is armed early enough

The timerfd is armed by `addTimerInLoop`, when `insert` says that the earliest expiration changed,
and by `reset`.  `Armed`: outside a batch the last arming was for a deadline that no timer precedes.
Whether its relative delay is then short enough is a question of the unsigned difference in
`howMuchTimeFromNow` alone (`delay_le_iff`): a deadline that lies in the past wraps around.
-/

namespace MengSen.TimerQueue

open Machine (anyAction)

variable {D : Type} {s t : State D}

/-! ## One arming -/

/-- A relative delay in the unit of `howMuchTimeFromNow`. -/
def Timespec.micros (d : Timespec) : ℕ :=
  d.tv_sec * Timestamp.kMicroSecondsPerSecond + d.tv_nsec / 1000

theorem micros_howMuchTimeFromNow (when now : ℕ) :
    (detail.howMuchTimeFromNow when now).micros = max 100 (Word.sub 64 when now) := by
  have hmax : (if Word.sub 64 when now < 100 then 100 else Word.sub 64 when now) =
      max 100 (Word.sub 64 when now) := by
    split <;> omega
  simp only [detail.howMuchTimeFromNow, Timespec.micros, hmax]
  rw [Nat.mul_div_cancel _ (by omega), Nat.mul_comm]
  exact Nat.div_add_mod _ _

theorem tv_nsec_howMuchTimeFromNow (when now : ℕ) :
    (detail.howMuchTimeFromNow when now).tv_nsec < 10 ^ 9 := by
  simp only [detail.howMuchTimeFromNow, Timestamp.kMicroSecondsPerSecond]
  generalize (if Word.sub 64 when now < 100 then 100 else Word.sub 64 when now) = m
  have := Nat.mod_lt m (by decide : 0 < 1000 * 1000)
  omega

/-- The deadline is not before the clock reading, or so far before it that the unsigned difference
is back at no more than 100. -/
def Arming.NotPast (a : Arming) : Prop := a.now ≤ a.when ∨ a.when + 2 ^ 64 ≤ a.now + 100

instance (a : Arming) : Decidable a.NotPast := inferInstanceAs (Decidable (_ ∨ _))

/-- **The unsigned difference**: armed for a deadline up to `e`, the delay is short enough for `e`
exactly when the deadline was not past. -/
theorem delay_le_iff {a : Arming} {e : ℕ} (hd : a.delay = detail.howMuchTimeFromNow a.when a.now)
    (hnow : a.now < 2 ^ 64) (hle : a.when ≤ e) (he : e < 2 ^ 64) :
    ((a.delay.micros : ℤ) ≤ max 100 ((e : ℤ) - a.now)) ↔ a.NotPast := by
  rw [hd, micros_howMuchTimeFromNow]
  unfold Arming.NotPast
  by_cases hpast : a.now ≤ a.when
  · rw [Word.sub_of_le hpast (by omega)]
    omega
  · rw [Word.sub_of_lt (by omega) hnow.le]
    omega

/-! ## The last arming -/

/-- The invariant of the timerfd. -/
structure Armed (s : State D) : Prop where
  /-- outside a batch, and inside it for a timer at the invalid time 0 -/
  deadline : ∀ e ∈ s.timers, s.phase.isQuiet = true ∨ e.expiration = 0 →
    ∃ a, s.timerfd = some a ∧ a.when ≤ e.expiration
  delay : ∀ a, s.timerfd = some a →
    a.delay = detail.howMuchTimeFromNow a.when a.now ∧ a.now < 2 ^ 64
  expiration_lt : ∀ a t, s.heap a = some t → t.expiration < 2 ^ 64

/-- An arming for an early deadline is one for a later deadline. -/
theorem armed_le {x y : ℕ} (h : ∃ a, s.timerfd = some a ∧ a.when ≤ x) (hxy : x ≤ y) :
    ∃ a, s.timerfd = some a ∧ a.when ≤ y := by
  obtain ⟨a, ha, hle⟩ := h
  exact ⟨a, ha, hle.trans hxy⟩

/-- After `insert` the arming is for a deadline that no timer precedes. -/
theorem Armed.add {timer now : ℕ} {u : Timer D} (h : Armed s) (hnow : now < 2 ^ 64)
    (l : List Addr) :
    Armed { s with
      timers := (s.timers.insert ⟨u.expiration, timer⟩).1
      activeTimers := (s.activeTimers.insert ⟨timer, u.sequence⟩).1
      timerfd :=
        if s.isEarliest u.expiration then
          some ⟨u.expiration, now, detail.howMuchTimeFromNow u.expiration now⟩
        else s.timerfd
      unadded := l } := by
  by_cases hearly : s.isEarliest u.expiration = true
  · -- armed for the new timer, which is before all others
    have hmin : ∀ e ∈ s.timers, u.expiration ≤ e.expiration := by
      intro e he
      unfold State.isEarliest at hearly
      cases hb : s.timers.begin? with
      | none => exact absurd he (OrdSet.begin?_eq_none.mp hb e)
      | some it =>
        have hle := Entry.expiration_le (OrdSet.begin?_le hb he)
        simp only [hb, decide_eq_true_eq] at hearly
        omega
    simp only [if_pos hearly]
    refine ⟨fun e he _ => ⟨_, rfl, ?_⟩, fun a ha => ?_, h.expiration_lt⟩
    · rcases OrdSet.mem_insert.mp he with rfl | he
      · exact le_rfl
      · exact hmin e he
    · obtain rfl := Option.some.inj ha
      exact ⟨rfl, hnow⟩
  · -- the old arming is still good
    simp only [if_neg hearly]
    refine ⟨fun e he hcond => ?_, h.delay, h.expiration_lt⟩
    rcases OrdSet.mem_insert.mp he with rfl | he
    · cases hb : s.timers.begin? with
      | none => simp [State.isEarliest, hb] at hearly
      | some it =>
        have hle : it.expiration ≤ u.expiration := by
          simp only [State.isEarliest, hb, decide_eq_true_eq] at hearly
          omega
        refine armed_le (h.deadline it (OrdSet.begin?_mem hb) ?_) hle
        refine hcond.imp_right fun hzero => ?_
        simp only at hzero
        omega
    · exact h.deadline e he hcond

variable [Seconds D]

/-- `reset` restarts no timer at the invalid time 0. -/
def NoZeroRestart (s : State D) : Action D → Prop
  | .reset .. =>
    match s.phase with
    | .running now expired _ => ∀ e ∈ expired, ∀ t ∈ s.heap e.timer, t.repeat_ = true →
      Timestamp.addTime now t.interval ≠ 0
    | _ => True
  | _ => True

theorem restart_expiration_lt {t : Timer D} {now : ℕ} : (t.restart now).expiration < 2 ^ 64 := by
  unfold Timer.restart
  split
  · exact Word.wrap_lt _
  · exact Nat.two_pow_pos 64

/-- After `reset` the arming is for the least expiration. -/
theorem Armed.reset {now clock garbage : ℕ} {expired : List Entry} {H : Addr → Option (Timer D)}
    {T : OrdSet Entry} {A : OrdSet ActiveTimer} (h : Armed s) (hi : Inv s) (hclock : clock < 2 ^ 64)
    (hp : s.phase = .running now expired [])
    (hzero : ∀ e ∈ expired, ∀ t ∈ s.heap e.timer, t.repeat_ = true →
      Timestamp.addTime now t.interval ≠ 0)
    (hs : Synced { s with heap := H, timers := T, activeTimers := A })
    (hby : ResetBy now expired s H A) :
    Armed { s with
      heap := H
      timers := T
      activeTimers := A
      callingExpiredTimers := false
      timerfd :=
        if Timestamp.valid (nextExpire T garbage) then
          some ⟨nextExpire T garbage, clock,
            detail.howMuchTimeFromNow (nextExpire T garbage) clock⟩
        else s.timerfd
      phase := .quiet } := by
  have hbatch := batch_of_running hp
  -- a timer of the batch that is live again was restarted
  have hrestarted : ∀ a t, H a = some t → a ∈ expired.map Entry.timer →
      ∃ u : Timer D, u.repeat_ = true ∧ t = u.restart now ∧
        Timestamp.addTime now u.interval ≠ 0 := by
    intro a t ht ha
    obtain ⟨e, he, rfl, u, hu, hr, rfl⟩ := hby.restarted (hi.detached hp) ht ha
    exact ⟨u, hr.1, rfl, hzero e he u hu hr.1⟩
  -- a timer at time 0 was there before, with the timerfd armed for it
  have hold : ∀ m ∈ T, m.expiration = 0 → ∃ a, s.timerfd = some a ∧ a.when ≤ m.expiration := by
    intro m hm hm0
    obtain ⟨t, ht, hx, hact⟩ := (hs.entry_iff m).mp hm
    rcases (hby.active _).mp hact with hact' | ⟨hin, -⟩
    · have hout : m.timer ∉ expired.map Entry.timer := fun hin =>
        hi.synced.ne_of_detached (hi.batch_detached _ (hbatch ▸ hin)) hact' rfl
      have hmem : m ∈ s.timers :=
        (hi.synced.entry_iff m).mpr ⟨t, (hby.other _ hout).symm.trans ht, hx, hact'⟩
      exact h.deadline m hmem (.inr hm0)
    · obtain ⟨u, hrep, rfl, hne⟩ := hrestarted _ t ht hin
      rw [Timer.restart, if_pos hrep] at hx
      exact absurd (hx.trans hm0) hne
  refine ⟨fun e he _ => ?_, fun a ha => ?_, fun a t ht => ?_⟩
  · cases hb : T.begin? with
    | none => exact absurd he (OrdSet.begin?_eq_none.mp hb e)
    | some m =>
      have hle := Entry.expiration_le (OrdSet.begin?_le hb he)
      have hnext : nextExpire T garbage = m.expiration := by
        simp only [nextExpire, hb, Option.map_some, Option.getD_some]
      by_cases hvalid : Timestamp.valid (nextExpire T garbage) = true
      · exact ⟨_, if_pos hvalid, hnext ▸ hle⟩
      · have hm0 : m.expiration = 0 := by
          rw [hnext] at hvalid
          simpa [Timestamp.valid] using hvalid
        obtain ⟨a, ha, hwhen⟩ := hold m (OrdSet.begin?_mem hb) hm0
        exact ⟨a, (if_neg hvalid).trans ha, hwhen.trans hle⟩
  · by_cases hvalid : Timestamp.valid (nextExpire T garbage) = true
    · obtain rfl := Option.some.inj ((if_pos hvalid).symm.trans ha)
      exact ⟨rfl, hclock⟩
    · exact h.delay a ((if_neg hvalid).symm.trans ha)
  · by_cases ha : a ∈ expired.map Entry.timer
    · obtain ⟨u, -, rfl, -⟩ := hrestarted a t ht ha
      exact restart_expiration_lt
    · exact h.expiration_lt a t ((hby.other a ha).symm.trans ht)

/-- **Step lemma**: while no timer restarts at 0, the timerfd stays armed for the earliest deadline. -/
theorem Armed.step {a : Action D} (h : Armed s) (hi : Inv s) (hr : InRange a)
    (ha : NoZeroRestart s a) (he : Effect s a t) : Armed t := by
  cases he with
  | newTimer hdead hlt =>
    rename_i timer when interval
    refine ⟨h.deadline, h.delay, fun b u hu => ?_⟩
    by_cases hb : b = timer
    · rw [hb] at hu
      obtain rfl : Timer.make when interval s.numCreated = u := by
        simpa only [Function.update_self, Option.some.injEq] using hu
      exact lt_trans (Word.wrap_lt (w := 16) when) (by decide)
    · exact h.expiration_lt b u ((Function.update_of_ne hb ..).symm.trans hu)
  | add hcode hin ht hn => exact h.add hr _
  | cancelActive hcode hid ht hseq =>
    refine ⟨fun e he hcond => h.deadline e (OrdSet.mem_erase.mp he).2 hcond, h.delay, ?_⟩
    rename_i id u
    intro b v hv
    by_cases hb : b = id.timer
    · rw [hb] at hv
      simp only [Function.update_self, reduceCtorEq] at hv
    · exact h.expiration_lt b v ((Function.update_of_ne hb ..).symm.trans hv)
  | cancelOther hcode hid => exact ⟨h.deadline, h.delay, h.expiration_lt⟩
  | handleRead expired T A hq hs hexp hT hA hnd =>
    rename_i now fired
    refine ⟨fun e he hcond => ?_, fun b hb => ?_, h.expiration_lt⟩
    · -- what is left is after `now`, so not at time 0
      have hlate := ((hT e).mp he).2
      rcases hcond with hcond | hcond
      · cases hcond
      · omega
    · cases fired
      · exact h.delay b hb
      · cases hb
  | run hp ht =>
    refine ⟨fun e he hcond => h.deadline e he (hcond.imp_left fun hq => ?_), h.delay,
      h.expiration_lt⟩
    cases hq
  | callbackReturns hp =>
    refine ⟨fun e he hcond => h.deadline e he (hcond.imp_left fun hq => ?_), h.delay,
      h.expiration_lt⟩
    cases hq
  | reset H T A hp hs hby =>
    have hzero := ha
    simp only [NoZeroRestart, hp] at hzero
    exact h.reset hi hr.1 hp hzero hs hby

theorem reach_armed (h : (machine D).Reach NoZeroRestart s) : Armed s := by
  refine Machine.Reach.induct (I := Armed) ?_ ?_ h
  · rintro s rfl
    exact ⟨by simp [init], by simp [init], by simp [init]⟩
  · intro s a t hr harmed ha hs
    obtain ⟨hrange, heff⟩ := (reach_inv hr).step hs
    exact harmed.step (reach_inv hr) hrange ha heff

/-- **When the timerfd is armed early enough**: whenever no `handleRead` is in progress and
`timers_` is not empty, the timerfd is armed, and the relative delay is up to the maximum of 100 and
the time to the least expiration if and only if the last arming was not for a past deadline. -/
theorem armed_in_time_iff (h : (machine D).Reach NoZeroRestart s) (hq : s.phase = .quiet)
    {e : Entry} (he : s.timers.begin? = some e) :
    ∃ a, s.timerfd = some a ∧ a.delay.tv_nsec < 10 ^ 9 ∧
      ((a.delay.micros : ℤ) ≤ max 100 ((e.expiration : ℤ) - a.now) ↔ a.NotPast) := by
  have hi := reach_inv h
  have harmed := reach_armed h
  have hmem := OrdSet.begin?_mem he
  obtain ⟨a, ha, hle⟩ := harmed.deadline e hmem (.inl (by rw [hq]; rfl))
  obtain ⟨hdelay, hnow⟩ := harmed.delay a ha
  obtain ⟨t, ht, hx, -⟩ := (hi.synced.entry_iff e).mp hmem
  refine ⟨a, ha, ?_, delay_le_iff hdelay hnow hle (hx ▸ harmed.expiration_lt _ t ht)⟩
  rw [hdelay]
  exact tv_nsec_howMuchTimeFromNow _ _

/-- A timer for the time 20000, added at 1000, is armed 19000 ahead. -/
theorem armed_in_time_iff_ahead : ∃ s : State ℕ, (machine ℕ).Reach NoZeroRestart s ∧
    ∃ a, s.timerfd = some a ∧ (a.delay.micros : ℤ) ≤ max 100 ((20000 : ℤ) - a.now) := by
  obtain ⟨s, t, hs, ht, hq, hmin, ha⟩ : ∃ s t : State ℕ,
      (machine ℕ).Step init (.newTimer 8 20000 0) s ∧
        (machine ℕ).Step s (.addTimerInLoop 8 1000) t ∧ t.phase = .quiet ∧
        t.timers.begin? = some ⟨20000, 8⟩ ∧
        t.timerfd = some ⟨20000, 1000, detail.howMuchTimeFromNow 20000 1000⟩ :=
    ⟨_, _, rfl, rfl, rfl, rfl, rfl⟩
  have hr : (machine ℕ).Reach NoZeroRestart t := by
    refine .step (a := .addTimerInLoop 8 1000) (.step (a := .newTimer 8 20000 0) ?_ ?_ hs) ?_ ht
    · exact .init rfl
    · trivial
    · trivial
  obtain ⟨a, ha', -, hiff⟩ := armed_in_time_iff hr hq hmin
  rw [ha, Option.some.injEq] at ha'
  exact ⟨t, hr, a, ha' ▸ ha, hiff.mpr (ha' ▸ by decide)⟩

/-- A timer for the time 500, added at a later time, is not armed with the minimum. -/
theorem armed_late : ∃ s : State ℕ, (machine ℕ).Reach anyAction s ∧ s.phase = .quiet ∧
    s.timers.begin? = some ⟨500, 8⟩ ∧ ∃ a, s.timerfd = some a ∧
      ¬ (a.delay.micros : ℤ) ≤ max 100 ((500 : ℤ) - a.now) := by
  obtain ⟨s, hs, hq, hmin, ha⟩ : ∃ s : State ℕ,
      (machine ℕ).exec anyAction init
        [.newTimer 8 500 0, .addTimerInLoop 8 1600000000000000000] = some s ∧
        s.phase = .quiet ∧ s.timers.begin? = some ⟨500, 8⟩ ∧
        s.timerfd = some ⟨500, 1600000000000000000,
          detail.howMuchTimeFromNow 500 1600000000000000000⟩ := ⟨_, rfl, rfl, rfl, rfl⟩
  exact ⟨s, .of_exec (.init rfl) hs, hq, hmin, _, ha, by decide⟩

end MengSen.TimerQueue

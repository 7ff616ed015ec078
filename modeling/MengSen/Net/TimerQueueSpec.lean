import MengSen.Net.TimerQueue
import Mathlib.Data.List.Nodup

/-!
# Net.TimerQueueSpec — what the functions of the timer queue do to the two indexes

`Synced`: `timers_` and `activeTimers_` index the same live timers, by their current expiration and
by their sequence number.  Each function keeps it, fails no assert and reads no deleted timer, and
changes nothing but the fields in its specification.
-/

namespace MengSen.TimerQueue

open Machine (check_bind ok_bind pure_eq_ok)

variable {D : Type} {s : State D} {a : Addr} {t : Timer D}

/-- The two indexes hold the same live timers. -/
structure Synced (s : State D) : Prop where
  entry_iff : ∀ e : Entry, e ∈ s.timers ↔
    ∃ t, s.heap e.timer = some t ∧ t.expiration = e.expiration ∧
      (⟨e.timer, t.sequence⟩ : ActiveTimer) ∈ s.activeTimers
  active_live : ∀ p ∈ s.activeTimers, ∃ t, s.heap p.timer = some t ∧ t.sequence = p.sequence
  size_eq : s.timers.size = s.activeTimers.size

/-- The timer at `a` is live and in neither index. -/
def Detached (s : State D) (a : Addr) : Prop :=
  ∃ t, s.heap a = some t ∧ (⟨a, t.sequence⟩ : ActiveTimer) ∉ s.activeTimers

/-- A detached timer stays detached while nobody writes to it or activates it. -/
theorem Detached.frame {s' : State D} (h : Detached s a) (hheap : s'.heap a = s.heap a)
    (hactive : ∀ p ∈ s'.activeTimers, p.timer = a → p ∈ s.activeTimers) : Detached s' a := by
  obtain ⟨t, ht, hn⟩ := h
  exact ⟨t, hheap.trans ht, fun hp => hn (hactive _ hp rfl)⟩

theorem deref_eq (h : s.heap a = some t) : s.deref a = .ok t := by
  unfold State.deref
  rw [h]

theorem delete_eq (h : s.heap a = some t) :
    s.delete a = .ok { s with heap := Function.update s.heap a none } := by
  unfold State.delete
  rw [h]

namespace Synced

/-- A live timer is active under its own sequence number only. -/
theorem sequence_eq (h : Synced s) {p : ActiveTimer} (hp : p ∈ s.activeTimers)
    (ht : s.heap p.timer = some t) : t.sequence = p.sequence := by
  obtain ⟨u, hu, hseq⟩ := h.active_live p hp
  rw [ht, Option.some.injEq] at hu
  rw [hu]
  exact hseq

/-- The address of a detached timer is not in `activeTimers_`. -/
theorem ne_of_detached (h : Synced s) (hd : Detached s a) {p : ActiveTimer}
    (hp : p ∈ s.activeTimers) : p.timer ≠ a := by
  rintro rfl
  obtain ⟨t, ht, hn⟩ := hd
  rw [h.sequence_eq hp ht] at hn
  exact hn hp

/-- The address of a dead timer is not in `activeTimers_`. -/
theorem ne_of_dead (h : Synced s) (hd : s.heap a = none) {p : ActiveTimer}
    (hp : p ∈ s.activeTimers) : p.timer ≠ a := by
  rintro rfl
  obtain ⟨t, ht, -⟩ := h.active_live p hp
  rw [hd] at ht
  cases ht

/-- What is written to an address that no index holds does not matter. -/
theorem update_heap (h : Synced s) (ha : ∀ p ∈ s.activeTimers, p.timer ≠ a)
    (x : Option (Timer D)) : Synced { s with heap := Function.update s.heap a x } where
  entry_iff e := by
    rw [h.entry_iff e]
    by_cases he : e.timer = a
    · refine ⟨?_, ?_⟩
      · rintro ⟨t, -, -, hp⟩
        exact absurd he (ha _ hp)
      · rintro ⟨t, -, -, hp⟩
        exact absurd he (ha _ hp)
    · simp only [Function.update_of_ne he]
  active_live p hp := by
    obtain ⟨t, ht, hseq⟩ := h.active_live p hp
    exact ⟨t, (Function.update_of_ne (ha p hp) ..).trans ht, hseq⟩
  size_eq := h.size_eq

/-- Both indexes take a detached timer. -/
theorem insert (h : Synced s) (ht : s.heap a = some t)
    (hn : (⟨a, t.sequence⟩ : ActiveTimer) ∉ s.activeTimers) :
    Synced { s with
      timers := (s.timers.insert ⟨t.expiration, a⟩).1
      activeTimers := (s.activeTimers.insert ⟨a, t.sequence⟩).1 } where
  entry_iff e := by
    simp only [OrdSet.mem_insert]
    refine ⟨?_, ?_⟩
    · rintro (rfl | he)
      · exact ⟨t, ht, rfl, .inl rfl⟩
      · obtain ⟨u, hu, hx, hp⟩ := (h.entry_iff e).mp he
        exact ⟨u, hu, hx, .inr hp⟩
    · rintro ⟨u, hu, hx, hp | hp⟩
      · obtain ⟨rfl, -⟩ : e.timer = a ∧ u.sequence = t.sequence := by simpa using hp
        rw [ht, Option.some.injEq] at hu
        exact .inl (by rw [hu, hx])
      · exact .inr ((h.entry_iff e).mpr ⟨u, hu, hx, hp⟩)
  active_live p hp := by
    rcases OrdSet.mem_insert.mp hp with rfl | hp
    · exact ⟨t, ht, rfl⟩
    · exact h.active_live p hp
  size_eq := by
    have hentry : (⟨t.expiration, a⟩ : Entry) ∉ s.timers := by
      intro he
      obtain ⟨u, hu, -, hp⟩ := (h.entry_iff _).mp he
      rw [ht, Option.some.injEq] at hu
      rw [← hu] at hp
      exact hn hp
    simp only [OrdSet.size_insert hentry, OrdSet.size_insert hn, h.size_eq]

/-- Both indexes lose an active timer, and the timer is deleted. -/
theorem erase (h : Synced s) (ht : s.heap a = some t)
    (hp : (⟨a, t.sequence⟩ : ActiveTimer) ∈ s.activeTimers) :
    Synced { s with
      heap := Function.update s.heap a none
      timers := (s.timers.erase ⟨t.expiration, a⟩).1
      activeTimers := (s.activeTimers.erase ⟨a, t.sequence⟩).1 } where
  entry_iff e := by
    simp only [OrdSet.mem_erase]
    by_cases he : e.timer = a
    · refine ⟨?_, ?_⟩
      · rintro ⟨hne, hmem⟩
        obtain ⟨u, hu, hx, -⟩ := (h.entry_iff e).mp hmem
        rw [he, ht, Option.some.injEq] at hu
        exact absurd (Entry.ext (by rw [← hx, ← hu]) he) hne
      · rintro ⟨u, hu, -⟩
        rw [he, Function.update_self] at hu
        cases hu
    · simp only [Function.update_of_ne he]
      have hne : e ≠ ⟨t.expiration, a⟩ := fun heq => he (congrArg Entry.timer heq)
      rw [h.entry_iff e]
      refine ⟨?_, ?_⟩
      · rintro ⟨-, u, hu, hx, hm⟩
        exact ⟨u, hu, hx, fun heq => he (congrArg ActiveTimer.timer heq), hm⟩
      · rintro ⟨u, hu, hx, -, hm⟩
        exact ⟨hne, u, hu, hx, hm⟩
  active_live p hm := by
    obtain ⟨hne, hm⟩ := OrdSet.mem_erase.mp hm
    obtain ⟨u, hu, hseq⟩ := h.active_live p hm
    refine ⟨u, (Function.update_of_ne ?_ ..).trans hu, hseq⟩
    intro heq
    rw [heq, ht, Option.some.injEq] at hu
    exact hne (ActiveTimer.ext heq (by rw [← hseq, hu]))
  size_eq := by
    have he : (⟨t.expiration, a⟩ : Entry) ∈ s.timers := (h.entry_iff _).mpr ⟨t, ht, rfl, hp⟩
    have h1 := OrdSet.size_erase he
    have h2 := OrdSet.size_erase hp
    have h3 := h.size_eq
    simp only
    omega

end Synced

/-! ## `insert`, `addTimerInLoop`, `cancelInLoop` -/

theorem insert_spec (h : Synced s) (ht : s.heap a = some t)
    (hn : (⟨a, t.sequence⟩ : ActiveTimer) ∉ s.activeTimers) :
    s.insert a = .ok ({ s with
      timers := (s.timers.insert ⟨t.expiration, a⟩).1
      activeTimers := (s.activeTimers.insert ⟨a, t.sequence⟩).1 }, s.isEarliest t.expiration) := by
  have hs := h.insert ht hn
  have hentry : (⟨t.expiration, a⟩ : Entry) ∉ s.timers := by
    intro he
    obtain ⟨u, hu, -, hp⟩ := (h.entry_iff _).mp he
    rw [ht, Option.some.injEq] at hu
    rw [← hu] at hp
    exact hn hp
  have hnew : (s.timers.insert ⟨t.expiration, a⟩).2 = true := by simp [hentry]
  have hnew' : (s.activeTimers.insert ⟨a, t.sequence⟩).2 = true := by simp [hn]
  unfold State.insert
  rw [check_bind _ h.size_eq, deref_eq ht, ok_bind]
  simp only []
  rw [check_bind _ hnew, check_bind _ hnew', check_bind _ hs.size_eq, pure_eq_ok]

/-- `addTimerInLoop` inserts a detached timer, and arms the timerfd for it if it is the earliest. -/
theorem addTimerInLoop_spec (h : Synced s) (ht : s.heap a = some t)
    (hn : (⟨a, t.sequence⟩ : ActiveTimer) ∉ s.activeTimers) (now : ℕ) :
    s.addTimerInLoop a now = .ok { s with
      timers := (s.timers.insert ⟨t.expiration, a⟩).1
      activeTimers := (s.activeTimers.insert ⟨a, t.sequence⟩).1
      timerfd :=
        if s.isEarliest t.expiration then
          some ⟨t.expiration, now, detail.howMuchTimeFromNow t.expiration now⟩
        else s.timerfd } := by
  unfold State.addTimerInLoop
  rw [insert_spec h ht hn, ok_bind]
  simp only []
  cases s.isEarliest t.expiration
  · rfl
  · simp only [if_true]
    rw [deref_eq (s := { s with
      timers := (s.timers.insert ⟨t.expiration, a⟩).1
      activeTimers := (s.activeTimers.insert ⟨a, t.sequence⟩).1 }) ht]
    rfl

/-- `cancelInLoop` on an active timer takes it out of both indexes and deletes it. -/
theorem cancelInLoop_active (h : Synced s) {id : TimerId} (hid : id ∈ s.activeTimers) :
    ∃ t, s.heap id.timer = some t ∧ t.sequence = id.sequence ∧
      s.cancelInLoop id = .ok { s with
        heap := Function.update s.heap id.timer none
        timers := (s.timers.erase ⟨t.expiration, id.timer⟩).1
        activeTimers := (s.activeTimers.erase id).1 } := by
  obtain ⟨t, ht, hseq⟩ := h.active_live id hid
  refine ⟨t, ht, hseq, ?_⟩
  have hid' : id = ⟨id.timer, t.sequence⟩ := ActiveTimer.ext rfl hseq.symm
  have hs := h.erase ht (hid' ▸ hid)
  rw [← hid'] at hs
  have hone : (s.timers.erase ⟨t.expiration, id.timer⟩).2 = 1 := by
    rw [OrdSet.erase_snd, if_pos ((h.entry_iff _).mpr ⟨t, ht, rfl, hid' ▸ hid⟩)]
  unfold State.cancelInLoop
  rw [check_bind _ h.size_eq, if_pos hid, deref_eq ht, ok_bind]
  simp only []
  rw [check_bind _ hone, delete_eq ht, ok_bind]
  simp only [pure_eq_ok, ok_bind]
  rw [check_bind _ hs.size_eq]

/-- `cancelInLoop` on any other id only notes it, while a batch is running. -/
theorem cancelInLoop_inactive (h : Synced s) {id : TimerId} (hid : id ∉ s.activeTimers) :
    s.cancelInLoop id = .ok { s with
      cancelingTimers :=
        if s.callingExpiredTimers then (s.cancelingTimers.insert id).1 else s.cancelingTimers } := by
  unfold State.cancelInLoop
  rw [check_bind _ h.size_eq, if_neg hid]
  by_cases hcall : s.callingExpiredTimers = true
  · simp only [if_pos hcall, pure_eq_ok, ok_bind]
    rw [check_bind _ h.size_eq]
  · simp only [if_neg hcall, pure_eq_ok, ok_bind]
    rw [check_bind _ h.size_eq]

/-! ## `getExpired` -/

/-- Taking the expired timers out of `activeTimers_` one by one. -/
theorem eraseActive_spec (l : List Entry) :
    ∀ s : State D, (∀ p ∈ s.activeTimers, ∃ t, s.heap p.timer = some t ∧ t.sequence = p.sequence) →
      (∀ e ∈ l, ∃ t, s.heap e.timer = some t ∧ (⟨e.timer, t.sequence⟩ : ActiveTimer) ∈ s.activeTimers) →
      (l.map Entry.timer).Nodup →
      ∃ A : OrdSet ActiveTimer, State.eraseActive l s = .ok { s with activeTimers := A } ∧
        (∀ p, p ∈ A ↔ p ∈ s.activeTimers ∧ p.timer ∉ l.map Entry.timer) ∧
        A.size + l.length = s.activeTimers.size := by
  induction l with
  | nil =>
    intro s _ _ _
    exact ⟨s.activeTimers, rfl, fun p => by simp, rfl⟩
  | cons e l ih =>
    intro s hlive hmem hnd
    obtain ⟨hne, hnd⟩ := List.nodup_cons.mp hnd
    obtain ⟨t, ht, hp⟩ := hmem e List.mem_cons_self
    -- the active timers at the address of `e` are this one timer
    have hother : ∀ q, q ∈ (s.activeTimers.erase ⟨e.timer, t.sequence⟩).1 ↔
        q ∈ s.activeTimers ∧ q.timer ≠ e.timer := by
      intro q
      rw [OrdSet.mem_erase, and_comm]
      refine and_congr_right fun hq => not_congr ⟨fun h => by rw [h], fun h => ?_⟩
      obtain ⟨u, hu, hseq⟩ := hlive q hq
      rw [h, ht, Option.some.injEq] at hu
      exact ActiveTimer.ext h (by rw [← hseq, hu])
    obtain ⟨A, hA, hmemA, hsize⟩ := ih
      { s with activeTimers := (s.activeTimers.erase ⟨e.timer, t.sequence⟩).1 }
      (fun q hq => hlive q ((hother q).mp hq).1)
      (by
        intro f hf
        obtain ⟨u, hu, hq⟩ := hmem f (List.mem_cons_of_mem _ hf)
        refine ⟨u, hu, (hother _).mpr ⟨hq, fun heq => hne ?_⟩⟩
        exact heq ▸ List.mem_map_of_mem hf)
      hnd
    refine ⟨A, ?_, fun q => ?_, ?_⟩
    · unfold State.eraseActive
      rw [deref_eq ht, ok_bind]
      simp only []
      rw [check_bind _ (by rw [OrdSet.erase_snd, if_pos hp]), hA]
    · rw [hmemA q, hother q, List.map_cons, List.mem_cons, not_or, and_assoc]
    · have hdec := OrdSet.size_erase hp
      simp only [List.length_cons] at hsize ⊢
      omega

/-- Entries of `timers_` at the same address are the same. -/
theorem Synced.entry_inj (h : Synced s) {e f : Entry} (he : e ∈ s.timers) (hf : f ∈ s.timers)
    (heq : e.timer = f.timer) : e = f := by
  obtain ⟨t, ht, hx, -⟩ := (h.entry_iff e).mp he
  obtain ⟨u, hu, hy, -⟩ := (h.entry_iff f).mp hf
  rw [heq, hu, Option.some.injEq] at ht
  exact Entry.ext (by rw [← hx, ← hy, ht]) heq

/-- An entry of a live timer is before the sentry when its expiration is not after `now`. -/
theorem lt_sentry {e : Entry} {now : ℕ} (ha : e.timer < UINTPTR_MAX) :
    e < ⟨now, UINTPTR_MAX⟩ ↔ e.expiration ≤ now := by
  rw [Entry.lt_iff]
  simp only [ha, and_true]
  omega

/-- **`getExpired`**: the timers that expire not after `now` leave both indexes. -/
theorem getExpired_spec (h : Synced s) (haddr : ∀ a t, s.heap a = some t → a < UINTPTR_MAX)
    (now : ℕ) :
    ∃ (expired : List Entry) (T : OrdSet Entry) (A : OrdSet ActiveTimer),
      s.getExpired now = .ok (expired, { s with timers := T, activeTimers := A }) ∧
      Synced { s with timers := T, activeTimers := A } ∧
      (∀ e, e ∈ expired ↔ e ∈ s.timers ∧ e.expiration ≤ now) ∧
      (∀ e, e ∈ T ↔ e ∈ s.timers ∧ now < e.expiration) ∧
      (∀ p, p ∈ A ↔ p ∈ s.activeTimers ∧ p.timer ∉ expired.map Entry.timer) ∧
      (expired.map Entry.timer).Nodup := by
  set sentry : Entry := ⟨now, UINTPTR_MAX⟩ with hsentry
  have hlt : ∀ e ∈ s.timers, (e < sentry ↔ e.expiration ≤ now) := by
    intro e he
    obtain ⟨t, ht, -⟩ := (h.entry_iff e).mp he
    exact lt_sentry (haddr _ t ht)
  have hexp : ∀ e, e ∈ s.timers.below sentry ↔ e ∈ s.timers ∧ e.expiration ≤ now := by
    intro e
    rw [OrdSet.mem_below]
    exact and_congr_right (hlt e)
  have hrest : ∀ e, e ∈ s.timers.eraseBelow sentry ↔ e ∈ s.timers ∧ now < e.expiration := by
    intro e
    rw [OrdSet.mem_eraseBelow]
    refine and_congr_right fun he => ?_
    rw [← not_lt, hlt e he, not_le]
  have hnd : ((s.timers.below sentry).map Entry.timer).Nodup := by
    refine List.Nodup.map_on ?_ ((OrdSet.below_sorted _ _).imp ne_of_lt)
    intro e he f hf heq
    exact h.entry_inj ((hexp e).mp he).1 ((hexp f).mp hf).1 heq
  obtain ⟨A, hA, hmemA, hsize⟩ := eraseActive_spec (s.timers.below sentry)
    { s with timers := s.timers.eraseBelow sentry } h.active_live
    (by
      intro e he
      obtain ⟨t, ht, -, hp⟩ := (h.entry_iff e).mp ((hexp e).mp he).1
      exact ⟨t, ht, hp⟩)
    hnd
  have hs : Synced { s with timers := s.timers.eraseBelow sentry, activeTimers := A } := by
    refine ⟨fun e => ?_, fun p hp => h.active_live p ((hmemA p).mp hp).1, ?_⟩
    · simp only [hrest e, hmemA]
      refine ⟨?_, ?_⟩
      · rintro ⟨he, hlate⟩
        obtain ⟨t, ht, hx, hp⟩ := (h.entry_iff e).mp he
        refine ⟨t, ht, hx, hp, fun hin => ?_⟩
        obtain ⟨f, hf, heq⟩ := List.mem_map.mp hin
        obtain ⟨hf, hearly⟩ := (hexp f).mp hf
        rw [h.entry_inj hf he heq] at hearly
        omega
      · rintro ⟨t, ht, hx, hp, hout⟩
        have he := (h.entry_iff e).mpr ⟨t, ht, hx, hp⟩
        refine ⟨he, ?_⟩
        by_contra hle
        exact hout (List.mem_map_of_mem ((hexp e).mpr ⟨he, by omega⟩))
    · have hsplit := OrdSet.size_eraseBelow s.timers sentry
      have := h.size_eq
      simp only at hsize ⊢
      omega
  have hlower : ∀ e ∈ s.timers.lowerBound? sentry, now < e.expiration := by
    intro e he
    obtain ⟨hmem, hle⟩ := OrdSet.lowerBound?_mem he
    by_contra hnot
    exact absurd ((hlt e hmem).mpr (by omega)) (not_lt.mpr hle)
  refine ⟨_, _, A, ?_, hs, hexp, hrest, hmemA, hnd⟩
  unfold State.getExpired
  rw [check_bind _ h.size_eq]
  simp only [← hsentry]
  rw [check_bind _ hlower, hA, ok_bind, check_bind _ hs.size_eq, pure_eq_ok]

/-! ## `reset` -/

section Reset

variable [Seconds D]

/-- `reset` restarts the timer: it repeats, and it was not canceled during the batch. -/
def Restarts (s : State D) (a : Addr) (t : Timer D) : Prop :=
  t.repeat_ = true ∧ (⟨a, t.sequence⟩ : ActiveTimer) ∉ s.cancelingTimers

instance (s : State D) (a : Addr) (t : Timer D) : Decidable (Restarts s a t) :=
  inferInstanceAs (Decidable (_ ∧ _))

/-- What the loop of `reset` over `l` makes of the heap `s.heap` and the active timers. -/
structure ResetBy (now : ℕ) (l : List Entry) (s : State D) (H : Addr → Option (Timer D))
    (A : OrdSet ActiveTimer) : Prop where
  other : ∀ a, a ∉ l.map Entry.timer → H a = s.heap a
  self : ∀ e ∈ l, ∀ t, s.heap e.timer = some t →
    H e.timer = if Restarts s e.timer t then some (t.restart now) else none
  active : ∀ p, p ∈ A ↔ p ∈ s.activeTimers ∨
    p.timer ∈ l.map Entry.timer ∧ ∃ t, H p.timer = some t ∧ t.sequence = p.sequence

/-- One more entry in front of a reset list, its timer being restarted. -/
theorem ResetBy.restart {now : ℕ} {l : List Entry} {e : Entry} {H : Addr → Option (Timer D)}
    {A T : _} (ht : s.heap e.timer = some t) (hr : Restarts s e.timer t)
    (hnew : e.timer ∉ l.map Entry.timer)
    (h : ResetBy now l { s with
      heap := Function.update s.heap e.timer (some (t.restart now))
      timers := T
      activeTimers := (s.activeTimers.insert ⟨e.timer, t.sequence⟩).1 } H A) :
    ResetBy now (e :: l) s H A := by
  have hself : H e.timer = some (t.restart now) :=
    (h.other _ hnew).trans (Function.update_self ..)
  refine ⟨fun a ha => ?_, fun f hf u hu => ?_, fun p => ?_⟩
  · rw [List.map_cons, List.mem_cons, not_or] at ha
    exact (h.other a ha.2).trans (Function.update_of_ne ha.1 ..)
  · rcases List.mem_cons.mp hf with rfl | hf
    · rw [ht, Option.some.injEq] at hu
      rw [← hu, hself, if_pos hr]
    · have hne : f.timer ≠ e.timer := fun heq => hnew (heq ▸ List.mem_map_of_mem hf)
      exact h.self f hf u ((Function.update_of_ne hne ..).trans hu)
  · rw [h.active p, OrdSet.mem_insert, List.map_cons, List.mem_cons]
    refine ⟨?_, ?_⟩
    · rintro ((rfl | hp) | ⟨hp, hu⟩)
      · exact .inr ⟨.inl rfl, _, hself, t.restart_sequence now⟩
      · exact .inl hp
      · exact .inr ⟨.inr hp, hu⟩
    · rintro (hp | ⟨hp | hp, u, hu, hseq⟩)
      · exact .inl (.inr hp)
      · rw [hp, hself, Option.some.injEq] at hu
        exact .inl (.inl (ActiveTimer.ext hp (by rw [← hseq, ← hu, t.restart_sequence])))
      · exact .inr ⟨hp, u, hu, hseq⟩

/-- One more entry in front of a reset list, its timer being deleted. -/
theorem ResetBy.delete {now : ℕ} {l : List Entry} {e : Entry} {H : Addr → Option (Timer D)}
    {A : OrdSet ActiveTimer} (ht : s.heap e.timer = some t) (hr : ¬ Restarts s e.timer t)
    (hnew : e.timer ∉ l.map Entry.timer)
    (h : ResetBy now l { s with heap := Function.update s.heap e.timer none } H A) :
    ResetBy now (e :: l) s H A := by
  have hself : H e.timer = none := (h.other _ hnew).trans (Function.update_self ..)
  refine ⟨fun a ha => ?_, fun f hf u hu => ?_, fun p => ?_⟩
  · rw [List.map_cons, List.mem_cons, not_or] at ha
    exact (h.other a ha.2).trans (Function.update_of_ne ha.1 ..)
  · rcases List.mem_cons.mp hf with rfl | hf
    · rw [ht, Option.some.injEq] at hu
      rw [← hu, hself, if_neg hr]
    · have hne : f.timer ≠ e.timer := fun heq => hnew (heq ▸ List.mem_map_of_mem hf)
      exact h.self f hf u ((Function.update_of_ne hne ..).trans hu)
  · rw [h.active p, List.map_cons, List.mem_cons]
    refine or_congr_right ⟨fun ⟨hp, hu⟩ => ⟨.inr hp, hu⟩, ?_⟩
    rintro ⟨hp | hp, u, hu, hseq⟩
    · rw [hp, hself] at hu
      cases hu
    · exact ⟨hp, u, hu, hseq⟩

/-- The loop of `reset` is made of its rounds. -/
theorem resetLoop_cons (now : ℕ) (e : Entry) (l : List Entry) (s : State D) :
    s.resetLoop now (e :: l) = s.resetLoop now [e] >>= State.resetLoop now l := by
  simp only [State.resetLoop]
  cases s.deref e.timer with
  | error f => rfl
  | ok t =>
    simp only [ok_bind]
    split
    · cases State.insert _ e.timer with
      | error f => rfl
      | ok r => rfl
    · cases s.delete e.timer with
      | error f => rfl
      | ok r => rfl

variable {e : Entry}

/-- A round of `reset` that restarts the timer inserts it again. -/
theorem resetLoop_restart (now : ℕ) (hs : Synced s) (ht : s.heap e.timer = some t)
    (hn : (⟨e.timer, t.sequence⟩ : ActiveTimer) ∉ s.activeTimers) (hr : Restarts s e.timer t) :
    s.resetLoop now [e] = .ok { s with
        heap := Function.update s.heap e.timer (some (t.restart now))
        timers := (s.timers.insert ⟨(t.restart now).expiration, e.timer⟩).1
        activeTimers := (s.activeTimers.insert ⟨e.timer, t.sequence⟩).1 } ∧
      Synced { s with
        heap := Function.update s.heap e.timer (some (t.restart now))
        timers := (s.timers.insert ⟨(t.restart now).expiration, e.timer⟩).1
        activeTimers := (s.activeTimers.insert ⟨e.timer, t.sequence⟩).1 } := by
  have hs₁ := hs.update_heap (fun p hp => hs.ne_of_detached ⟨t, ht, hn⟩ hp) (some (t.restart now))
  have ht₁ : ({ s with heap := Function.update s.heap e.timer (some (t.restart now)) } :
      State D).heap e.timer = some (t.restart now) := Function.update_self ..
  have hn₁ : (⟨e.timer, (t.restart now).sequence⟩ : ActiveTimer) ∉ s.activeTimers := by
    rw [t.restart_sequence]
    exact hn
  have hins := insert_spec hs₁ ht₁ hn₁
  have hs₂ := hs₁.insert ht₁ hn₁
  simp only [Timer.restart_sequence] at hins hs₂
  refine ⟨?_, hs₂⟩
  have hcond : t.repeat_ = true ∧ (⟨e.timer, t.sequence⟩ : ActiveTimer) ∉ s.cancelingTimers := hr
  unfold State.resetLoop
  rw [deref_eq ht, ok_bind, if_pos hcond]
  simp only []
  rw [hins, ok_bind]
  rfl

/-- Any other round deletes the timer. -/
theorem resetLoop_delete (now : ℕ) (hs : Synced s) (ht : s.heap e.timer = some t)
    (hn : (⟨e.timer, t.sequence⟩ : ActiveTimer) ∉ s.activeTimers) (hr : ¬ Restarts s e.timer t) :
    s.resetLoop now [e] = .ok { s with heap := Function.update s.heap e.timer none } ∧
      Synced { s with heap := Function.update s.heap e.timer none } := by
  refine ⟨?_, hs.update_heap (fun p hp => hs.ne_of_detached ⟨t, ht, hn⟩ hp) none⟩
  have hcond : ¬ (t.repeat_ = true ∧
      (⟨e.timer, t.sequence⟩ : ActiveTimer) ∉ s.cancelingTimers) := hr
  unfold State.resetLoop
  rw [deref_eq ht, ok_bind, if_neg hcond, delete_eq ht, ok_bind]
  rfl

/-- The loop of `reset` over detached timers. -/
theorem resetLoop_spec (now : ℕ) (l : List Entry) :
    ∀ s : State D, Synced s → (∀ e ∈ l, Detached s e.timer) → (l.map Entry.timer).Nodup →
      ∃ H T A, s.resetLoop now l =
          .ok { s with heap := H, timers := T, activeTimers := A } ∧
        Synced { s with heap := H, timers := T, activeTimers := A } ∧ ResetBy now l s H A := by
  induction l with
  | nil =>
    intro s hs _ _
    exact ⟨s.heap, s.timers, s.activeTimers, rfl, hs, fun _ _ => rfl, by simp, by simp⟩
  | cons e l ih =>
    intro s hs hdet hnd
    obtain ⟨hnew, hnd⟩ := List.nodup_cons.mp hnd
    obtain ⟨t, ht, hn⟩ := hdet e List.mem_cons_self
    have hne : ∀ f ∈ l, f.timer ≠ e.timer := fun f hf heq => hnew (heq ▸ List.mem_map_of_mem hf)
    have hdet' : ∀ f ∈ l, Detached s f.timer := fun f hf => hdet f (List.mem_cons_of_mem _ hf)
    rw [resetLoop_cons]
    by_cases hr : Restarts s e.timer t
    · obtain ⟨hround, hs₁⟩ := resetLoop_restart now hs ht hn hr
      obtain ⟨H, T, A, hloop, hs₂, hby⟩ := ih _ hs₁
        (fun f hf => (hdet' f hf).frame (Function.update_of_ne (hne f hf) ..) fun p hp heq => by
          rcases OrdSet.mem_insert.mp hp with rfl | hp
          · exact absurd heq.symm (hne f hf)
          · exact hp) hnd
      exact ⟨H, T, A, by rw [hround, ok_bind]; exact hloop, hs₂, .restart ht hr hnew hby⟩
    · obtain ⟨hround, hs₁⟩ := resetLoop_delete now hs ht hn hr
      obtain ⟨H, T, A, hloop, hs₂, hby⟩ := ih _ hs₁
        (fun f hf => (hdet' f hf).frame (Function.update_of_ne (hne f hf) ..) fun _ hp _ => hp) hnd
      exact ⟨H, T, A, by rw [hround, ok_bind]; exact hloop, hs₂, .delete ht hr hnew hby⟩

/-- The deadline for which `reset` arms the timerfd. -/
def nextExpire (T : OrdSet Entry) (garbage : ℕ) : ℕ := (T.begin?.map Entry.expiration).getD garbage

/-- `reset` after its loop: the arming for the least expiration. -/
theorem reset_nil (h : Synced s) (now clock garbage : ℕ) :
    s.reset [] now clock garbage = .ok { s with
      timerfd :=
        if Timestamp.valid (nextExpire s.timers garbage) then
          some ⟨nextExpire s.timers garbage, clock,
            detail.howMuchTimeFromNow (nextExpire s.timers garbage) clock⟩
        else s.timerfd } := by
  unfold State.reset
  rw [State.resetLoop, ok_bind]
  cases hb : s.timers.begin? with
  | none =>
    simp only [nextExpire, hb, pure_eq_ok, ok_bind, Option.map_none, Option.getD_none]
    cases Timestamp.valid garbage <;> rfl
  | some it =>
    obtain ⟨t, ht, hx, -⟩ := (h.entry_iff it).mp (OrdSet.begin?_mem hb)
    simp only [nextExpire, hb, pure_eq_ok, ok_bind, Option.map_some, Option.getD_some]
    rw [deref_eq ht, ok_bind, hx]
    cases Timestamp.valid it.expiration <;> rfl

/-- `reset` is its loop and what follows. -/
theorem reset_eq (expired : List Entry) (now clock garbage : ℕ) :
    s.reset expired now clock garbage =
      s.resetLoop now expired >>= fun t => t.reset [] now clock garbage := rfl

/-- **`reset`**: the loop, and the arming for the least expiration. -/
theorem reset_spec {expired : List Entry} (now clock garbage : ℕ) (h : Synced s)
    (hdet : ∀ e ∈ expired, Detached s e.timer) (hnd : (expired.map Entry.timer).Nodup) :
    ∃ H T A, s.reset expired now clock garbage =
        .ok { s with
          heap := H
          timers := T
          activeTimers := A
          timerfd :=
            if Timestamp.valid (nextExpire T garbage) then
              some ⟨nextExpire T garbage, clock,
                detail.howMuchTimeFromNow (nextExpire T garbage) clock⟩
            else s.timerfd } ∧
      Synced { s with heap := H, timers := T, activeTimers := A } ∧ ResetBy now expired s H A := by
  obtain ⟨H, T, A, hloop, hs, hby⟩ := resetLoop_spec now expired s h hdet hnd
  refine ⟨H, T, A, ?_, hs, hby⟩
  rw [reset_eq, hloop, ok_bind]
  exact reset_nil hs now clock garbage

end Reset

end MengSen.TimerQueue

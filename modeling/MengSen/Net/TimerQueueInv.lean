import MengSen.Net.TimerQueueSpec

/-!
# Net.TimerQueueInv — ownership of the timers over whole runs

A live timer is in the two indexes, in the expired batch, or created and not added yet (`Owned`).
This holds through half-finished batches: callbacks add and cancel while the timers of the batch are
in no index, and an id that is canceled meanwhile is noted, whatever address it names (`Inv`).
`Owned.effect` says what an action does, `Effect.owned` and `Effect.inv` are the step lemmas and
`reach_inv` is the run lemma.
-/

namespace MengSen.TimerQueue

open Machine (ok_bind pure_eq_ok guarded_eq anyAction)

variable {D : Type} {s t : State D} {a : Addr}

/-- The entries taken out by `getExpired`. -/
def Phase.batch : Phase → List Entry
  | .quiet => []
  | .running _ expired _ | .inCallback _ expired _ => expired

/-- The entries of the batch whose callbacks were not called yet. -/
def Phase.rest : Phase → List Entry
  | .quiet => []
  | .running _ _ rest | .inCallback _ _ rest => rest

/-- The addresses of the batch. -/
def State.batch (s : State D) : List Addr := s.phase.batch.map Entry.timer

theorem batch_of_running {now : ℕ} {expired rest : List Entry}
    (hp : s.phase = .running now expired rest) : s.batch = expired.map Entry.timer := by
  rw [State.batch, hp]
  rfl

theorem batch_of_quiet (hq : s.phase.isQuiet = true) : s.batch = [] := by
  cases hp : s.phase with
  | quiet =>
    rw [State.batch, hp]
    rfl
  | running | inCallback =>
    rw [hp] at hq
    cases hq

/-- The id names a live timer of the batch. -/
def InBatch (s : State D) (id : TimerId) : Prop :=
  id.timer ∈ s.batch ∧ ∃ t, s.heap id.timer = some t ∧ t.sequence = id.sequence

/-- Live timers have real addresses and sequence numbers of their own. -/
structure HeapOk (H : Addr → Option (Timer D)) (numCreated : ℕ) : Prop where
  addr_lt : ∀ a t, H a = some t → a < UINTPTR_MAX
  sequence_le : ∀ a t, H a = some t → t.sequence ≤ numCreated
  sequence_inj : ∀ a b t u, H a = some t → H b = some u → t.sequence = u.sequence → a = b

/-- Deleting and restarting timers is fine. -/
theorem HeapOk.sub {H H' : Addr → Option (Timer D)} {n : ℕ} (h : HeapOk H n)
    (hsub : ∀ a t, H' a = some t → ∃ u, H a = some u ∧ u.sequence = t.sequence) : HeapOk H' n where
  addr_lt a t ht := by
    obtain ⟨u, hu, -⟩ := hsub a t ht
    exact h.addr_lt a u hu
  sequence_le a t ht := by
    obtain ⟨u, hu, hseq⟩ := hsub a t ht
    exact hseq ▸ h.sequence_le a u hu
  sequence_inj a b t u ht hu heq := by
    obtain ⟨t', ht', hseq⟩ := hsub a t ht
    obtain ⟨u', hu', hseq'⟩ := hsub b u hu
    exact h.sequence_inj a b t' u' ht' hu' (by rw [hseq, hseq', heq])

/-- A new timer takes the next sequence number. -/
theorem HeapOk.fresh {H : Addr → Option (Timer D)} {n : ℕ} (h : HeapOk H n) {t : Timer D}
    (hlt : a < UINTPTR_MAX) (hseq : t.sequence = n + 1) :
    HeapOk (Function.update H a (some t)) (n + 1) where
  addr_lt b u hu := by
    by_cases hb : b = a
    · exact hb ▸ hlt
    · exact h.addr_lt b u ((Function.update_of_ne hb ..).symm.trans hu)
  sequence_le b u hu := by
    by_cases hb : b = a
    · rw [hb, Function.update_self, Option.some.injEq] at hu
      rw [← hu, hseq]
    · have := h.sequence_le b u ((Function.update_of_ne hb ..).symm.trans hu)
      omega
  sequence_inj b c u v hu hv heq := by
    by_cases hb : b = a <;> by_cases hc : c = a
    · rw [hb, hc]
    · rw [hb, Function.update_self, Option.some.injEq] at hu
      have := h.sequence_le c v ((Function.update_of_ne hc ..).symm.trans hv)
      rw [← hu, hseq] at heq
      omega
    · rw [hc, Function.update_self, Option.some.injEq] at hv
      have := h.sequence_le b u ((Function.update_of_ne hb ..).symm.trans hu)
      rw [← hv, hseq] at heq
      omega
    · rw [Function.update_of_ne hb] at hu
      rw [Function.update_of_ne hc] at hv
      exact h.sequence_inj b c u v hu hv heq

/-- The live timers and their places, whatever is canceled. -/
structure Owned (s : State D) : Prop where
  synced : Synced s
  heap : HeapOk s.heap s.numCreated
  batch_detached : ∀ a ∈ s.batch, Detached s a
  batch_nodup : s.batch.Nodup
  rest_subset : ∀ e ∈ s.phase.rest, e ∈ s.phase.batch
  unadded_detached : ∀ a ∈ s.unadded, Detached s a
  unadded_nodup : s.unadded.Nodup
  disjoint : ∀ a ∈ s.batch, a ∉ s.unadded
  /-- a live timer is in the indexes, waiting to be added, or in the batch -/
  owned : ∀ a t, s.heap a = some t →
    (⟨a, t.sequence⟩ : ActiveTimer) ∈ s.activeTimers ∨ a ∈ s.unadded ∨ a ∈ s.batch

/-- The invariant of the timer queue. -/
structure Inv (s : State D) : Prop extends Owned s where
  calling : s.callingExpiredTimers = !s.phase.isQuiet
  /-- an id canceled during the batch is noted, unless its timer was active -/
  canceled : ∀ id ∈ s.cancelCalls, InBatch s id → id ∈ s.cancelingTimers

/-- The timers of the batch are in no index. -/
theorem Owned.detached {now : ℕ} {expired rest : List Entry} (h : Owned s)
    (hp : s.phase = .running now expired rest) : ∀ e ∈ expired, Detached s e.timer := by
  intro e he
  refine h.batch_detached _ ?_
  rw [batch_of_running hp]
  exact List.mem_map_of_mem he

/-- A batch is out only while `callingExpiredTimers_` is set. -/
theorem Inv.calling_of_batch (h : Inv s) (ha : a ∈ s.batch) : s.callingExpiredTimers = true := by
  rw [h.calling]
  unfold State.batch at ha
  cases hp : s.phase with
  | quiet =>
    rw [hp] at ha
    cases ha
  | running now expired rest => rfl
  | inCallback now expired rest => rfl

theorem init_inv : Inv (init : State D) where
  synced := ⟨by simp [init], by simp [init], rfl⟩
  heap := ⟨by simp [init], by simp [init], by simp [init]⟩
  batch_detached := by simp [init, State.batch, Phase.batch]
  batch_nodup := List.nodup_nil
  rest_subset := by simp [init, Phase.rest]
  unadded_detached := by simp [init]
  unadded_nodup := List.nodup_nil
  disjoint := by simp [init, State.batch, Phase.batch]
  owned := by simp [init]
  calling := rfl
  canceled := by simp [init]

variable [Seconds D]

/-! ## What an action can do -/

/-- The effect of each action on a state whose timers are owned. -/
inductive Effect (s : State D) : Action D → State D → Prop
  | newTimer {timer when interval} (ha : s.heap timer = none) (hlt : timer < UINTPTR_MAX) :
    Effect s (.newTimer timer when interval) { s with
      heap := Function.update s.heap timer (some (Timer.make when interval s.numCreated))
      numCreated := s.numCreated + 1
      unadded := timer :: s.unadded
      asked := Function.update s.asked (s.numCreated + 1) when }
  | add {timer now t} (hcode : s.phase.inUserCode = true) (ha : timer ∈ s.unadded)
    (ht : s.heap timer = some t) (hn : (⟨timer, t.sequence⟩ : ActiveTimer) ∉ s.activeTimers) :
    Effect s (.addTimerInLoop timer now) { s with
      timers := (s.timers.insert ⟨t.expiration, timer⟩).1
      activeTimers := (s.activeTimers.insert ⟨timer, t.sequence⟩).1
      timerfd :=
        if s.isEarliest t.expiration then
          some ⟨t.expiration, now, detail.howMuchTimeFromNow t.expiration now⟩
        else s.timerfd
      unadded := s.unadded.erase timer }
  | cancelActive {id : TimerId} {t} (hcode : s.phase.inUserCode = true)
    (hid : id ∈ s.activeTimers) (ht : s.heap id.timer = some t) (hseq : t.sequence = id.sequence) :
    Effect s (.cancelInLoop id) { s with
      heap := Function.update s.heap id.timer none
      timers := (s.timers.erase ⟨t.expiration, id.timer⟩).1
      activeTimers := (s.activeTimers.erase id).1
      cancelCalls := id :: s.cancelCalls }
  | cancelOther {id : TimerId} (hcode : s.phase.inUserCode = true) (hid : id ∉ s.activeTimers) :
    Effect s (.cancelInLoop id) { s with
      cancelingTimers :=
        if s.callingExpiredTimers then (s.cancelingTimers.insert id).1 else s.cancelingTimers
      cancelCalls := id :: s.cancelCalls }
  | handleRead {now fired} (expired T A) (hq : s.phase = .quiet)
    (hs : Synced { s with timers := T, activeTimers := A })
    (hexp : ∀ e, e ∈ expired ↔ e ∈ s.timers ∧ e.expiration ≤ now)
    (hT : ∀ e, e ∈ T ↔ e ∈ s.timers ∧ now < e.expiration)
    (hA : ∀ p, p ∈ A ↔ p ∈ s.activeTimers ∧ p.timer ∉ expired.map Entry.timer)
    (hnd : (expired.map Entry.timer).Nodup) :
    Effect s (.handleRead now fired) { s with
      timers := T
      activeTimers := A
      callingExpiredTimers := true
      cancelingTimers := .empty
      timerfd := if fired then none else s.timerfd
      phase := .running now expired expired
      cancelCalls := []
      batchNo := s.batchNo + 1 }
  | run {now expired it rest t} (hp : s.phase = .running now expired (it :: rest))
    (ht : s.heap it.timer = some t) :
    Effect s .run { s with
      phase := .inCallback now expired rest
      ran := s.ran ++ [(s.batchNo, t.sequence)] }
  | callbackReturns {now expired rest} (hp : s.phase = .inCallback now expired rest) :
    Effect s .callbackReturns { s with phase := .running now expired rest }
  | reset {now expired clock garbage} (H T A) (hp : s.phase = .running now expired [])
    (hs : Synced { s with heap := H, timers := T, activeTimers := A })
    (hby : ResetBy now expired s H A) :
    Effect s (.reset clock garbage) { s with
      heap := H
      timers := T
      activeTimers := A
      callingExpiredTimers := false
      timerfd :=
        if Timestamp.valid (nextExpire T garbage) then
          some ⟨nextExpire T garbage, clock,
            detail.howMuchTimeFromNow (nextExpire T garbage) clock⟩
        else s.timerfd
      phase := .quiet }

/-- **Inversion**: an enabled action fails no assert, dereferences no deleted timer and deletes none
twice, and has its effect. -/
theorem Owned.effect {a : Action D} (h : Owned s) {r : Except Fault (State D)}
    (hr : act s a = some r) : ∃ u, r = .ok u ∧ Effect s a u := by
  cases a with
  | newTimer timer when interval =>
    simp only [act, guarded_eq] at hr
    obtain ⟨⟨ha, hlt⟩, rfl⟩ := hr
    exact ⟨_, rfl, .newTimer ha hlt⟩
  | addTimerInLoop timer now =>
    simp only [act, Option.ite_none_right_eq_some, Option.some.injEq] at hr
    obtain ⟨⟨ha, hcode⟩, rfl⟩ := hr
    obtain ⟨t, ht, hn⟩ := h.unadded_detached timer ha
    refine ⟨_, ?_, .add hcode ha ht hn⟩
    rw [addTimerInLoop_spec h.synced ht hn now, ok_bind, pure_eq_ok]
  | cancelInLoop id =>
    simp only [act, Option.ite_none_right_eq_some, Option.some.injEq] at hr
    obtain ⟨hcode, rfl⟩ := hr
    by_cases hid : id ∈ s.activeTimers
    · obtain ⟨t, ht, hseq, heq⟩ := cancelInLoop_active h.synced hid
      exact ⟨_, by rw [heq, ok_bind, pure_eq_ok], .cancelActive hcode hid ht hseq⟩
    · refine ⟨_, ?_, .cancelOther hcode hid⟩
      rw [cancelInLoop_inactive h.synced hid, ok_bind, pure_eq_ok]
  | handleRead now fired =>
    cases hp : s.phase <;> simp only [act, hp, Option.some.injEq, reduceCtorEq] at hr
    obtain ⟨expired, T, A, heq, hs, hexp, hT, hA, hnd⟩ :=
      getExpired_spec (s := s.readTimerfd fired)
        ⟨h.synced.entry_iff, h.synced.active_live, h.synced.size_eq⟩ h.heap.addr_lt now
    refine ⟨_, ?_, .handleRead expired T A hp ⟨hs.entry_iff, hs.active_live, hs.size_eq⟩ hexp hT hA
      hnd⟩
    rw [← hr, heq, ok_bind, pure_eq_ok]
    rfl
  | run =>
    cases hp : s.phase with
    | quiet => simp [act, hp] at hr
    | inCallback now expired rest => simp [act, hp] at hr
    | running now expired rest =>
      cases rest with
      | nil => simp [act, hp] at hr
      | cons it rest =>
        simp only [act, hp, Option.some.injEq] at hr
        have hit : it.timer ∈ s.batch := by
          have hsub := h.rest_subset
          rw [hp] at hsub
          rw [State.batch, hp]
          exact List.mem_map_of_mem (hsub it List.mem_cons_self)
        obtain ⟨t, ht, -⟩ := h.batch_detached _ hit
        exact ⟨_, by rw [← hr, deref_eq ht, ok_bind, pure_eq_ok], .run hp ht⟩
  | callbackReturns =>
    cases hp : s.phase <;> simp only [act, hp, Option.some.injEq, reduceCtorEq] at hr
    exact ⟨_, hr.symm, .callbackReturns hp⟩
  | reset clock garbage =>
    cases hp : s.phase with
    | quiet => simp [act, hp] at hr
    | inCallback now expired rest => simp [act, hp] at hr
    | running now expired rest =>
      cases rest with
      | cons it rest => simp [act, hp] at hr
      | nil =>
        simp only [act, hp, Option.some.injEq] at hr
        obtain ⟨H, T, A, heq, hs, hby⟩ := reset_spec (s := { s with callingExpiredTimers := false })
          now clock garbage ⟨h.synced.entry_iff, h.synced.active_live, h.synced.size_eq⟩
          (h.detached hp) (batch_of_running hp ▸ h.batch_nodup)
        refine ⟨_, ?_, .reset H T A hp ⟨hs.entry_iff, hs.active_live, hs.size_eq⟩
          ⟨hby.other, hby.self, hby.active⟩⟩
        rw [hp] at heq
        rw [← hr, heq, ok_bind, pure_eq_ok]

theorem Owned.act_ne_error (h : Owned s) (a : Action D) (e : Fault) :
    (machine D).act s a ≠ some (.error e) := by
  intro he
  obtain ⟨u, hu, -⟩ := h.effect (Option.ite_none_right_eq_some.mp he).2
  cases hu

/-! ## One lemma for each effect -/

section Effects

omit [Seconds D]

/-- The owners depend on the heap, the indexes and the batch only. -/
theorem Owned.congr (h : Owned s) (hheap : t.heap = s.heap) (hnum : t.numCreated = s.numCreated)
    (htimers : t.timers = s.timers) (hactive : t.activeTimers = s.activeTimers)
    (hunadded : t.unadded = s.unadded) (hb : t.phase.batch = s.phase.batch)
    (hrest : ∀ e ∈ t.phase.rest, e ∈ t.phase.batch) : Owned t := by
  have hbatch : t.batch = s.batch := by
    unfold State.batch
    rw [hb]
  have hdet : ∀ a, Detached s a → Detached t a := fun a ha =>
    ha.frame (by rw [hheap]) (by rw [hactive]; exact fun p hp _ => hp)
  exact {
    synced := ⟨by rw [htimers, hheap, hactive]; exact h.synced.entry_iff,
      by rw [hheap, hactive]; exact h.synced.active_live,
      by rw [htimers, hactive]; exact h.synced.size_eq⟩
    heap := by
      rw [hheap, hnum]
      exact h.heap
    batch_detached := fun a ha => hdet a (h.batch_detached a (hbatch ▸ ha))
    batch_nodup := hbatch ▸ h.batch_nodup
    rest_subset := hrest
    unadded_detached := fun a ha => hdet a (h.unadded_detached a (hunadded ▸ ha))
    unadded_nodup := hunadded ▸ h.unadded_nodup
    disjoint := by
      rw [hbatch, hunadded]
      exact h.disjoint
    owned := by
      rw [hheap, hactive, hunadded, hbatch]
      exact h.owned }

theorem Owned.add {t : Timer D} (h : Owned s) (ha : a ∈ s.unadded) (ht : s.heap a = some t)
    (hn : (⟨a, t.sequence⟩ : ActiveTimer) ∉ s.activeTimers) (fd : Option Arming) :
    Owned { s with
      timers := (s.timers.insert ⟨t.expiration, a⟩).1
      activeTimers := (s.activeTimers.insert ⟨a, t.sequence⟩).1
      timerfd := fd
      unadded := s.unadded.erase a } := by
  have hs := h.synced.insert ht hn
  have hact : ∀ b ≠ a, ∀ p ∈ (s.activeTimers.insert ⟨a, t.sequence⟩).1, p.timer = b →
      p ∈ s.activeTimers := by
    intro b hb p hp heq
    rcases OrdSet.mem_insert.mp hp with rfl | hp
    · exact absurd heq.symm hb
    · exact hp
  have hbatch : ∀ b ∈ s.batch, b ≠ a := fun b hb heq => h.disjoint b hb (heq ▸ ha)
  exact {
    synced := ⟨hs.entry_iff, hs.active_live, hs.size_eq⟩
    heap := h.heap
    batch_detached := fun b hb => (h.batch_detached b hb).frame rfl (hact b (hbatch b hb))
    batch_nodup := h.batch_nodup
    rest_subset := h.rest_subset
    unadded_detached := by
      intro b hb
      obtain ⟨hne, hb⟩ := h.unadded_nodup.mem_erase_iff.mp hb
      exact (h.unadded_detached b hb).frame rfl (hact b hne)
    unadded_nodup := h.unadded_nodup.erase a
    disjoint := fun b hb hin => h.disjoint b hb (List.mem_of_mem_erase hin)
    owned := by
      intro b u hu
      by_cases hb : b = a
      · rw [hb, ht, Option.some.injEq] at hu
        exact .inl (OrdSet.mem_insert.mpr (.inl (by rw [hb, hu])))
      · rcases h.owned b u hu with hp | hp | hp
        · exact .inl (OrdSet.mem_insert.mpr (.inr hp))
        · exact .inr (.inl (h.unadded_nodup.mem_erase_iff.mpr ⟨hb, hp⟩))
        · exact .inr (.inr hp) }

theorem Owned.cancelActive {id : TimerId} {t : Timer D} (h : Owned s) (hid : id ∈ s.activeTimers)
    (ht : s.heap id.timer = some t) (hseq : t.sequence = id.sequence) :
    Owned { s with
      heap := Function.update s.heap id.timer none
      timers := (s.timers.erase ⟨t.expiration, id.timer⟩).1
      activeTimers := (s.activeTimers.erase id).1
      cancelCalls := id :: s.cancelCalls } := by
  have hid' : id = ⟨id.timer, t.sequence⟩ := ActiveTimer.ext rfl hseq.symm
  have hs := h.synced.erase ht (hid' ▸ hid)
  rw [← hid'] at hs
  have hne : ∀ b, Detached s b → b ≠ id.timer := fun b hb heq =>
    h.synced.ne_of_detached hb hid heq.symm
  have hframe : ∀ b, Detached s b → Function.update s.heap id.timer none b = s.heap b :=
    fun b hb => Function.update_of_ne (hne b hb) ..
  have hlive : ∀ b u, Function.update s.heap id.timer none b = some u →
      b ≠ id.timer ∧ s.heap b = some u := by
    intro b u hu
    by_cases hb : b = id.timer
    · rw [hb, Function.update_self] at hu
      cases hu
    · exact ⟨hb, (Function.update_of_ne hb ..).symm.trans hu⟩
  exact {
    synced := ⟨hs.entry_iff, hs.active_live, hs.size_eq⟩
    heap := h.heap.sub fun b u hu => ⟨u, (hlive b u hu).2, rfl⟩
    batch_detached := fun b hb => (h.batch_detached b hb).frame
      (hframe b (h.batch_detached b hb)) fun p hp _ => (OrdSet.mem_erase.mp hp).2
    batch_nodup := h.batch_nodup
    rest_subset := h.rest_subset
    unadded_detached := fun b hb => (h.unadded_detached b hb).frame
      (hframe b (h.unadded_detached b hb)) fun p hp _ => (OrdSet.mem_erase.mp hp).2
    unadded_nodup := h.unadded_nodup
    disjoint := h.disjoint
    owned := by
      intro b u hu
      obtain ⟨hb, hu⟩ := hlive b u hu
      refine (h.owned b u hu).imp_left fun hp => ?_
      exact OrdSet.mem_erase.mpr ⟨fun heq => hb (congrArg ActiveTimer.timer heq), hp⟩ }

/-- `handleRead` moves the expired timers from the indexes to the batch. -/
theorem Owned.handleRead {now : ℕ} {expired : List Entry} {T : OrdSet Entry} {A : OrdSet ActiveTimer}
    (h : Owned s) (hq : s.phase = .quiet) (hs : Synced { s with timers := T, activeTimers := A })
    (hexp : ∀ e, e ∈ expired ↔ e ∈ s.timers ∧ e.expiration ≤ now)
    (hA : ∀ p, p ∈ A ↔ p ∈ s.activeTimers ∧ p.timer ∉ expired.map Entry.timer)
    (hnd : (expired.map Entry.timer).Nodup) (fd : Option Arming) :
    Owned { s with
      timers := T
      activeTimers := A
      callingExpiredTimers := true
      cancelingTimers := .empty
      timerfd := fd
      phase := .running now expired expired
      cancelCalls := []
      batchNo := s.batchNo + 1 } := by
  have hmem : ∀ a ∈ expired.map Entry.timer,
      ∃ t, s.heap a = some t ∧ (⟨a, t.sequence⟩ : ActiveTimer) ∈ s.activeTimers := by
    intro a ha
    obtain ⟨e, he, rfl⟩ := List.mem_map.mp ha
    obtain ⟨t, ht, -, hp⟩ := (h.synced.entry_iff e).mp ((hexp e).mp he).1
    exact ⟨t, ht, hp⟩
  have hsub : ∀ b, ∀ p ∈ A, p.timer = b → p ∈ s.activeTimers := fun b p hp _ => ((hA p).mp hp).1
  exact {
    synced := ⟨hs.entry_iff, hs.active_live, hs.size_eq⟩
    heap := h.heap
    batch_detached := by
      intro a ha
      obtain ⟨t, ht, -⟩ := hmem a ha
      exact ⟨t, ht, fun hp => ((hA _).mp hp).2 ha⟩
    batch_nodup := hnd
    rest_subset := fun e he => he
    unadded_detached := fun b hb => (h.unadded_detached b hb).frame rfl (hsub b)
    unadded_nodup := h.unadded_nodup
    disjoint := by
      intro a ha hin
      obtain ⟨t, ht, hp⟩ := hmem a ha
      exact h.synced.ne_of_detached (h.unadded_detached a hin) hp rfl
    owned := by
      intro a t ht
      by_cases ha : a ∈ expired.map Entry.timer
      · exact .inr (.inr ha)
      · rcases h.owned a t ht with hp | hp | hp
        · exact .inl ((hA _).mpr ⟨hp, ha⟩)
        · exact .inr (.inl hp)
        · rw [State.batch, hq] at hp
          cases hp }

end Effects

theorem Owned.newTimer (h : Owned s) (ha : s.heap a = none) (hlt : a < UINTPTR_MAX) (when : ℕ)
    (interval : D) :
    Owned { s with
      heap := Function.update s.heap a (some (Timer.make when interval s.numCreated))
      numCreated := s.numCreated + 1
      unadded := a :: s.unadded
      asked := Function.update s.asked (s.numCreated + 1) when } := by
  have hs := h.synced.update_heap (fun p hp => h.synced.ne_of_dead ha hp)
    (some (Timer.make when interval s.numCreated))
  -- the address is new, so nobody has it
  have hne : ∀ b, Detached s b → b ≠ a := by
    rintro b ⟨t, ht, -⟩ rfl
    rw [ha] at ht
    cases ht
  exact {
    synced := ⟨hs.entry_iff, hs.active_live, hs.size_eq⟩
    heap := h.heap.fresh hlt rfl
    batch_detached := fun b hb => (h.batch_detached b hb).frame
      (Function.update_of_ne (hne b (h.batch_detached b hb)) ..) fun p hp _ => hp
    batch_nodup := h.batch_nodup
    rest_subset := h.rest_subset
    unadded_detached := by
      intro b hb
      rcases List.mem_cons.mp hb with rfl | hb
      · exact ⟨_, Function.update_self .., fun hp => h.synced.ne_of_dead ha hp rfl⟩
      · exact (h.unadded_detached b hb).frame
          (Function.update_of_ne (hne b (h.unadded_detached b hb)) ..) fun p hp _ => hp
    unadded_nodup := by
      refine List.nodup_cons.mpr ⟨fun hin => ?_, h.unadded_nodup⟩
      exact hne a (h.unadded_detached a hin) rfl
    disjoint := by
      intro b hb hin
      rcases List.mem_cons.mp hin with rfl | hin
      · exact hne b (h.batch_detached b hb) rfl
      · exact h.disjoint b hb hin
    owned := by
      intro b t ht
      by_cases hb : b = a
      · exact .inr (.inl (hb ▸ List.mem_cons_self))
      · rcases h.owned b t ((Function.update_of_ne hb ..).symm.trans ht) with hp | hp | hp
        · exact .inl hp
        · exact .inr (.inl (List.mem_cons_of_mem _ hp))
        · exact .inr (.inr hp) }

/-- A timer of the batch that is live after the loop of `reset` was restarted. -/
theorem ResetBy.restarted {now : ℕ} {l : List Entry} {H : Addr → Option (Timer D)}
    {A : OrdSet ActiveTimer} (h : ResetBy now l s H A) (hdet : ∀ e ∈ l, Detached s e.timer)
    {t : Timer D} (ht : H a = some t) (ha : a ∈ l.map Entry.timer) :
    ∃ e ∈ l, e.timer = a ∧ ∃ u, s.heap a = some u ∧ Restarts s a u ∧ t = u.restart now := by
  obtain ⟨e, he, rfl⟩ := List.mem_map.mp ha
  obtain ⟨u, hu, -⟩ := hdet e he
  have hself := h.self e he u hu
  rw [ht] at hself
  by_cases hr : Restarts s e.timer u
  · rw [if_pos hr, Option.some.injEq] at hself
    exact ⟨e, he, rfl, u, hu, hr, hself⟩
  · rw [if_neg hr] at hself
    cases hself

/-- A timer that is live after the loop of `reset` was live before, under the same number. -/
theorem ResetBy.live {now : ℕ} {l : List Entry} {H : Addr → Option (Timer D)}
    {A : OrdSet ActiveTimer} (h : ResetBy now l s H A) (hdet : ∀ e ∈ l, Detached s e.timer)
    {t : Timer D} (ht : H a = some t) :
    ∃ u, s.heap a = some u ∧ u.sequence = t.sequence ∧ u.repeat_ = t.repeat_ := by
  by_cases ha : a ∈ l.map Entry.timer
  · obtain ⟨-, -, -, u, hu, -, rfl⟩ := h.restarted hdet ht ha
    exact ⟨u, hu, (u.restart_sequence now).symm, (u.restart_repeat_ now).symm⟩
  · exact ⟨t, (h.other a ha).symm.trans ht, rfl, rfl⟩

/-- `reset` puts the timers of the batch back into the indexes or deletes them. -/
theorem Owned.reset {now : ℕ} {expired : List Entry} {H : Addr → Option (Timer D)} {T : OrdSet Entry}
    {A : OrdSet ActiveTimer} (h : Owned s) (hp : s.phase = .running now expired [])
    (hs : Synced { s with heap := H, timers := T, activeTimers := A })
    (hby : ResetBy now expired s H A) (fd : Option Arming) :
    Owned { s with
      heap := H
      timers := T
      activeTimers := A
      callingExpiredTimers := false
      timerfd := fd
      phase := .quiet } := by
  have hbatch := batch_of_running hp
  exact {
    synced := ⟨hs.entry_iff, hs.active_live, hs.size_eq⟩
    heap := h.heap.sub fun a t ht => by
      obtain ⟨u, hu, hseq, -⟩ := hby.live (h.detached hp) ht
      exact ⟨u, hu, hseq⟩
    batch_detached := by simp [State.batch, Phase.batch]
    batch_nodup := List.nodup_nil
    rest_subset := by simp [Phase.rest]
    unadded_detached := by
      intro b hb
      have hout : b ∉ expired.map Entry.timer := fun hin => h.disjoint b (hbatch ▸ hin) hb
      refine (h.unadded_detached b hb).frame (hby.other b hout) fun p hp heq => ?_
      rcases (hby.active p).mp hp with hp | ⟨hp, -⟩
      · exact hp
      · exact absurd (heq ▸ hp) hout
    unadded_nodup := h.unadded_nodup
    disjoint := by simp [State.batch, Phase.batch]
    owned := by
      intro a t ht
      by_cases ha : a ∈ expired.map Entry.timer
      · exact .inl ((hby.active _).mpr (.inr ⟨ha, t, ht, rfl⟩))
      · rcases h.owned a t ((hby.other a ha).symm.trans ht) with hp | hp | hp
        · exact .inl ((hby.active _).mpr (.inl hp))
        · exact .inr (.inl hp)
        · exact absurd (hbatch ▸ hp) ha }

/-! ## Steps and runs -/

/-- **Step lemma of `Owned`**: every effect keeps the owners. -/
theorem Effect.owned {a : Action D} (h : Owned s) (he : Effect s a t) : Owned t := by
  cases he with
  | newTimer ha hlt => exact h.newTimer ha hlt _ _
  | add hcode ha ht hn => exact h.add ha ht hn _
  | cancelActive hcode hid ht hseq => exact h.cancelActive hid ht hseq
  | cancelOther hcode hid => exact h.congr rfl rfl rfl rfl rfl rfl h.rest_subset
  | handleRead expired T A hq hs hexp hT hA hnd => exact h.handleRead hq hs hexp hA hnd _
  | run hp ht =>
    have hsub := h.rest_subset
    rw [hp] at hsub
    exact h.congr rfl rfl rfl rfl rfl (by rw [hp]; rfl) fun e he =>
      hsub e (List.mem_cons_of_mem _ he)
  | callbackReturns hp =>
    have hsub := h.rest_subset
    rw [hp] at hsub
    exact h.congr rfl rfl rfl rfl rfl (by rw [hp]; rfl) hsub
  | reset H T A hp hs hby => exact h.reset hp hs hby _

/-- `callingExpiredTimers_` is set while the callbacks run. -/
theorem Effect.calling {a : Action D} (h : Inv s) (he : Effect s a t) :
    t.callingExpiredTimers = !t.phase.isQuiet := by
  cases he with
  | handleRead expired T A hq hs hexp hT hA hnd => rfl
  | run hp ht => exact h.calling.trans (by rw [hp]; rfl)
  | callbackReturns hp => exact h.calling.trans (by rw [hp]; rfl)
  | reset H T A hp hs hby => rfl
  | _ => exact h.calling

/-- Canceled ids are noted while their timers wait in the batch. -/
theorem Effect.canceled {a : Action D} (h : Inv s) (he : Effect s a t) :
    ∀ id ∈ t.cancelCalls, InBatch t id → id ∈ t.cancelingTimers := by
  -- a timer of the batch that is not written to was in the batch before
  have hold : ∀ {id : TimerId}, id.timer ∈ s.batch → t.heap id.timer = s.heap id.timer →
      InBatch t id → InBatch s id := by
    rintro id hb heq ⟨-, u, hu, hseq⟩
    exact ⟨hb, u, heq.symm.trans hu, hseq⟩
  cases he with
  | @newTimer timer when interval ha hlt =>
    intro id hid hb
    have hne : id.timer ≠ timer := fun heq => by
      obtain ⟨u, hu, -⟩ := h.batch_detached _ hb.1
      rw [heq, ha] at hu
      cases hu
    exact h.canceled id hid (hold hb.1 (Function.update_of_ne hne ..) hb)
  | add hcode ha ht hn => exact h.canceled
  | @cancelActive id' v hcode hid' hv hseq =>
    intro id hid hb
    have hne : id.timer ≠ id'.timer := fun heq =>
      h.synced.ne_of_detached (h.batch_detached _ hb.1) hid' heq.symm
    rcases List.mem_cons.mp hid with rfl | hid
    · exact absurd rfl hne
    · exact h.canceled id hid (hold hb.1 (Function.update_of_ne hne ..) hb)
  | cancelOther hcode hid' =>
    intro id hid hb
    simp only [if_pos (h.calling_of_batch hb.1), OrdSet.mem_insert]
    rcases List.mem_cons.mp hid with rfl | hid
    · exact .inl rfl
    · exact .inr (h.canceled id hid hb)
  | handleRead expired T A hq hs hexp hT hA hnd => exact fun id hid => absurd hid List.not_mem_nil
  | run hp ht =>
    rintro id hid ⟨hb, hlive⟩
    refine h.canceled id hid ⟨?_, hlive⟩
    rw [State.batch, hp]
    exact hb
  | callbackReturns hp =>
    rintro id hid ⟨hb, hlive⟩
    refine h.canceled id hid ⟨?_, hlive⟩
    rw [State.batch, hp]
    exact hb
  | reset H T A hp hs hby => exact fun id _ hb => absurd hb.1 List.not_mem_nil

/-- **Step lemma**: every effect keeps the invariant. -/
theorem Effect.inv {a : Action D} (h : Inv s) (he : Effect s a t) : Inv t where
  toOwned := he.owned h.toOwned
  calling := he.calling h
  canceled := he.canceled h

/-- A step has its effect. -/
theorem Owned.step {a : Action D} (h : Owned s) (hs : (machine D).Step s a t) :
    InRange a ∧ Effect s a t := by
  obtain ⟨hrange, hact⟩ := Option.ite_none_right_eq_some.mp hs
  obtain ⟨u, hu, he⟩ := h.effect hact
  cases hu
  exact ⟨hrange, he⟩

/-- **Run lemma**: every state reached meets the invariant. -/
theorem reach_inv {ok : State D → Action D → Prop} (h : (machine D).Reach ok s) : Inv s := by
  refine Machine.Reach.induct (I := Inv) ?_ ?_ h
  · rintro s rfl
    exact init_inv
  · exact fun s a t _ hi _ hs => (hi.step hs).2.inv hi

/-- **The two indexes never diverge**: in every state of every run they hold the same timers, each
entry under the current expiration; no action fails an assert, dereferences a deleted timer or
deletes one twice; and a timer canceled while it was in the expired batch is deleted by `reset`, not
inserted again. -/
theorem indexes_agree (h : (machine D).Reach anyAction s) :
    ((∀ a, (∃ x, (⟨x, a⟩ : Entry) ∈ s.timers) ↔ ∃ n, (⟨a, n⟩ : ActiveTimer) ∈ s.activeTimers) ∧
      (∀ e ∈ s.timers, ∃ t, s.heap e.timer = some t ∧ t.expiration = e.expiration) ∧
      s.timers.size = s.activeTimers.size) ∧
    (∀ a, ¬ (machine D).Faults s a) ∧
    ∀ clock garbage t, (machine D).Step s (.reset clock garbage) t →
      ∀ id ∈ s.cancelCalls, InBatch s id → t.heap id.timer = none ∧
        (∀ x, (⟨x, id.timer⟩ : Entry) ∉ t.timers) ∧
        ∀ n, (⟨id.timer, n⟩ : ActiveTimer) ∉ t.activeTimers := by
  have hi := reach_inv h
  refine ⟨⟨fun a => ?_, fun e he => ?_, hi.synced.size_eq⟩, ?_, ?_⟩
  · refine ⟨?_, ?_⟩
    · rintro ⟨x, hx⟩
      obtain ⟨t, -, -, hp⟩ := (hi.synced.entry_iff _).mp hx
      exact ⟨_, hp⟩
    · rintro ⟨n, hn⟩
      obtain ⟨t, ht, hseq⟩ := hi.synced.active_live _ hn
      refine ⟨t.expiration, (hi.synced.entry_iff _).mpr ⟨t, ht, rfl, ?_⟩⟩
      rw [hseq]
      exact hn
  · obtain ⟨t, ht, hx, -⟩ := (hi.synced.entry_iff e).mp he
    exact ⟨t, ht, hx⟩
  · rintro a ⟨e, he⟩
    exact hi.act_ne_error a e he
  · intro clock garbage t hs id hid hb
    have heff := (hi.step hs).2
    have ht := heff.inv hi
    have hnone : t.heap id.timer = none := by
      have hcancel := hi.canceled id hid hb
      obtain ⟨hmem, u, hu, hseq⟩ := hb
      cases heff with
      | reset H T A hp hsync hby =>
        rw [batch_of_running hp] at hmem
        obtain ⟨e, he, heq⟩ := List.mem_map.mp hmem
        have hid' : (⟨e.timer, u.sequence⟩ : ActiveTimer) = id := ActiveTimer.ext heq hseq
        have hself := hby.self e he u (heq ▸ hu)
        rw [if_neg fun hr => hr.2 (hid' ▸ hcancel), heq] at hself
        exact hself
    refine ⟨hnone, fun x hx => ?_, fun n hn => ?_⟩
    · obtain ⟨u, hu, -⟩ := (ht.synced.entry_iff _).mp hx
      rw [hnone] at hu
      cases hu
    · exact ht.synced.ne_of_dead hnone hn rfl

/-- A repeating timer at address 8 expires; its callback cancels it. -/
def cancelItself : List (Action ℕ) :=
  [.newTimer 8 100 1, .addTimerInLoop 8 50, .handleRead 200 true, .run, .cancelInLoop ⟨8, 1⟩,
    .callbackReturns]

theorem indexes_agree_cancelItself : ∃ s t : State ℕ, (machine ℕ).Reach anyAction s ∧
    (machine ℕ).Step s (.reset 300 0) t ∧ (s.heap 8).isSome ∧ t.heap 8 = none := by
  obtain ⟨s, t, hs, ht, hcalls, hlive, hbatch⟩ : ∃ s t : State ℕ,
      (machine ℕ).exec anyAction init cancelItself = some s ∧
        (machine ℕ).Step s (.reset 300 0) t ∧ s.cancelCalls = [⟨8, 1⟩] ∧
        (s.heap 8).map Timer.sequence = some 1 ∧ s.batch = [8] :=
    ⟨_, _, rfl, rfl, rfl, rfl, rfl⟩
  have hr : (machine ℕ).Reach anyAction s := .of_exec (.init rfl) hs
  obtain ⟨u, hu, hseq⟩ := Option.map_eq_some_iff.mp hlive
  have hin : InBatch s ⟨8, 1⟩ := ⟨by rw [hbatch]; exact List.mem_cons_self, u, hu, hseq⟩
  have hgone := (indexes_agree hr).2.2 300 0 t ht ⟨8, 1⟩ (by rw [hcalls]; exact List.mem_cons_self) hin
  exact ⟨s, t, hr, ht, by rw [hu]; rfl, hgone.1⟩

end MengSen.TimerQueue

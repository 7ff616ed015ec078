import MengSen.Net.TimerQueueCancel

/-!
# Net.TimerQueueBatch — what one expiry batch does

A batch begins with `handleRead`, which cuts the expired entries out of both indexes, and ends with
`reset`.  In between callbacks run, one for each entry, and add and cancel timers.  `Running` is the
invariant from the first to the last callback: the entries done are those whose callbacks were run,
and the timers of the batch are untouched.  `Kept` frames the timers of the indexes over the
callbacks and over `reset`.
-/

namespace MengSen.TimerQueue

open Machine (bind_eq_ok check_bind_eq_ok anyAction)

variable {D : Type}

/-- The sequence number of the timer at `a`. -/
def State.sequenceAt (s : State D) (a : Addr) : ℕ := ((s.heap a).map Timer.sequence).getD 0

/-- The id of the timer at `a`. -/
def State.idAt (s : State D) (a : Addr) : TimerId := ⟨a, s.sequenceAt a⟩

variable {s u v : State D} {a : Addr} {t : Timer D}

theorem sequenceAt_eq (ht : s.heap a = some t) : s.sequenceAt a = t.sequence := by
  rw [State.sequenceAt, ht]
  rfl

theorem idAt_eq (ht : s.heap a = some t) : s.idAt a = ⟨a, t.sequence⟩ := by
  rw [State.idAt, sequenceAt_eq ht]

theorem sequenceAt_congr (h : u.heap a = s.heap a) : u.sequenceAt a = s.sequenceAt a := by
  rw [State.sequenceAt, h, State.sequenceAt]

variable [Seconds D]

/-- The actions of a batch: all but the `reset` that ends it. -/
def Inside (_ : State D) : Action D → Prop
  | .reset .. => False
  | _ => True

instance : ∀ (s : State D) (a : Action D), Decidable (Inside s a)
  | _, .reset .. => inferInstanceAs (Decidable False)
  | _, .newTimer .. | _, .addTimerInLoop .. | _, .cancelInLoop _ | _, .handleRead .. | _, .run
  | _, .callbackReturns => inferInstanceAs (Decidable True)

/-! ## The expired entries -/

omit [Seconds D] in
/-- The vector that `getExpired` returns is cut out by the sentry. -/
theorem getExpired_fst {now : ℕ} {expired : List Entry} (h : s.getExpired now = .ok (expired, u)) :
    expired = s.timers.below ⟨now, UINTPTR_MAX⟩ := by
  unfold State.getExpired at h
  obtain ⟨-, h⟩ := check_bind_eq_ok.mp h
  obtain ⟨-, h⟩ := check_bind_eq_ok.mp h
  obtain ⟨w, -, h⟩ := bind_eq_ok.mp h
  obtain ⟨-, h⟩ := check_bind_eq_ok.mp h
  exact (congrArg Prod.fst (Except.ok.inj h)).symm

/-- It is ordered by expiration. -/
theorem handleRead_ordered {now : ℕ} {fired : Bool}
    (hs : (machine D).Step s (.handleRead now fired) u) :
    u.phase.batch.Pairwise fun e f => e.expiration ≤ f.expiration := by
  have hact : act s (.handleRead now fired) = some (.ok u) := (Option.ite_none_right_eq_some.mp hs).2
  cases hp : s.phase <;> simp only [act, hp, Option.some.injEq, reduceCtorEq] at hact
  obtain ⟨⟨expired, w⟩, hget, hu⟩ := bind_eq_ok.mp hact
  have hexp : expired = (s.readTimerfd fired).timers.below ⟨now, UINTPTR_MAX⟩ :=
    getExpired_fst hget
  have hbatch : u.phase.batch = expired := by
    rw [← Except.ok.inj hu]
    rfl
  rw [hbatch, hexp]
  exact (OrdSet.below_sorted _ _).imp fun hlt => Entry.expiration_le hlt.le

/-! ## From the first to the last callback -/

/-- The batch of `expired`, cut out of `s`, is running in `u`. -/
structure Running (s : State D) (now : ℕ) (expired : List Entry) (u : State D) : Prop where
  phase : u.phase = .running now expired u.phase.rest ∨ u.phase = .inCallback now expired u.phase.rest
  ran : ∃ done, done ++ u.phase.rest = expired ∧
    u.ran = s.ran ++ done.map fun e => (u.batchNo, s.sequenceAt e.timer)
  batchNo : u.batchNo = s.batchNo + 1
  heap : ∀ e ∈ expired, u.heap e.timer = s.heap e.timer
  /-- only ids that were canceled are noted -/
  noted : ∀ p ∈ u.cancelingTimers, p ∈ u.cancelCalls

namespace Running

omit [Seconds D]

variable {now : ℕ} {expired : List Entry}

theorem batch_eq (h : Running s now expired u) : u.batch = expired.map Entry.timer := by
  rcases h.phase with hp | hp
  · rw [State.batch, hp]
    rfl
  · rw [State.batch, hp]
    rfl

theorem detached (h : Running s now expired u) (hi : Inv u) : ∀ e ∈ expired, Detached u e.timer :=
  fun _ he => hi.batch_detached _ (h.batch_eq ▸ List.mem_map_of_mem he)

theorem phase_ne_quiet (h : Running s now expired u) : u.phase ≠ .quiet := by
  intro hq
  rcases h.phase with hp | hp
  · rw [hq] at hp
    cases hp
  · rw [hq] at hp
    cases hp

theorem of_running {now' : ℕ} {expired' rest : List Entry} (h : Running s now expired u)
    (hp : u.phase = .running now' expired' rest) : now' = now ∧ expired' = expired := by
  rcases h.phase with hp' | hp'
  · rw [hp] at hp'
    injection hp' with hnow hexp
    exact ⟨hnow, hexp⟩
  · rw [hp] at hp'
    cases hp'

theorem of_inCallback {now' : ℕ} {expired' rest : List Entry} (h : Running s now expired u)
    (hp : u.phase = .inCallback now' expired' rest) : now' = now ∧ expired' = expired := by
  rcases h.phase with hp' | hp'
  · rw [hp] at hp'
    cases hp'
  · rw [hp] at hp'
    injection hp' with hnow hexp
    exact ⟨hnow, hexp⟩

end Running

variable {now : ℕ} {expired : List Entry}

/-- `getExpired` starts the batch. -/
theorem Running.start {fired : Bool} (hi : Inv s)
    (hs : (machine D).Step s (.handleRead now fired) u) :
    Running s now u.phase.batch u ∧
      (∀ e, e ∈ u.phase.batch ↔ e ∈ s.timers ∧ e.expiration ≤ now) ∧
      (∀ e, e ∈ u.timers ↔ e ∈ s.timers ∧ now < e.expiration) ∧ u.heap = s.heap := by
  cases (hi.step hs).2 with
  | handleRead expired T A hq hsync hexp hT hA hnd =>
    have hstart : Running s now expired { s with
        timers := T
        activeTimers := A
        callingExpiredTimers := true
        cancelingTimers := .empty
        timerfd := if fired then none else s.timerfd
        phase := .running now expired expired
        cancelCalls := []
        batchNo := s.batchNo + 1 } := {
      phase := .inl rfl
      ran := ⟨[], rfl, (List.append_nil _).symm⟩
      batchNo := rfl
      heap := fun _ _ => rfl
      noted := fun p hp => absurd hp (OrdSet.notMem_empty p) }
    exact ⟨hstart, hexp, hT, rfl⟩

/-- **Step lemma of the batch**: callbacks run one after the other, and leave the batch alone. -/
theorem Running.effect {a : Action D} (h : Running s now expired u) (hi : Inv u)
    (ha : Inside u a) (he : Effect u a v) : Running s now expired v := by
  have hdet := h.detached hi
  cases he with
  | newTimer hdead hlt =>
    refine ⟨h.phase, h.ran, h.batchNo, fun e hin => ?_, h.noted⟩
    obtain ⟨t, ht, -⟩ := hdet e hin
    have hne : e.timer ≠ _ := fun heq => by
      rw [heq, hdead] at ht
      cases ht
    exact (Function.update_of_ne hne ..).trans (h.heap e hin)
  | add hcode hin ht hn => exact ⟨h.phase, h.ran, h.batchNo, h.heap, h.noted⟩
  | cancelActive hcode hid ht hseq =>
    refine ⟨h.phase, h.ran, h.batchNo, fun e hin => ?_, fun p hp => ?_⟩
    · have hne := (hi.synced.ne_of_detached (hdet e hin) hid).symm
      exact (Function.update_of_ne hne ..).trans (h.heap e hin)
    · exact List.mem_cons_of_mem _ (h.noted p hp)
  | cancelOther hcode hid =>
    refine ⟨h.phase, h.ran, h.batchNo, h.heap, fun p hp => ?_⟩
    by_cases hcall : u.callingExpiredTimers = true
    · simp only [if_pos hcall] at hp
      rcases OrdSet.mem_insert.mp hp with rfl | hp
      · exact List.mem_cons_self
      · exact List.mem_cons_of_mem _ (h.noted p hp)
    · simp only [if_neg hcall] at hp
      exact List.mem_cons_of_mem _ (h.noted p hp)
  | handleRead expired T A hq hs hexp hT hA hnd => exact absurd hq h.phase_ne_quiet
  | @run now' expired' it rest t hp ht =>
    obtain ⟨done, hdone, hran⟩ := h.ran
    obtain ⟨rfl, rfl⟩ := h.of_running hp
    rw [hp] at hdone
    have hit : it ∈ expired' := by
      rw [← hdone]
      exact List.mem_append_right _ List.mem_cons_self
    have hseq : s.sequenceAt it.timer = t.sequence := sequenceAt_eq ((h.heap it hit).symm.trans ht)
    refine ⟨.inr rfl, ⟨done ++ [it], ?_, ?_⟩, h.batchNo, h.heap, h.noted⟩
    · rw [← hdone, List.append_assoc]
      rfl
    · simp only [hran, List.map_append, List.map_cons, List.map_nil, hseq, List.append_assoc]
  | @callbackReturns now' expired' rest hp =>
    obtain ⟨done, hdone, hran⟩ := h.ran
    obtain ⟨rfl, rfl⟩ := h.of_inCallback hp
    rw [hp] at hdone
    exact ⟨.inl rfl, ⟨done, hdone, hran⟩, h.batchNo, h.heap, h.noted⟩
  | reset H T A hp hs hby => exact absurd ha id

/-- **Run lemma**: the batch stays as it was cut out, until `reset`. -/
theorem Running.path (h : Running s now expired u) (hr : (machine D).Reach anyAction u)
    (hp : (machine D).Path Inside u v) : (machine D).Reach anyAction v ∧ Running s now expired v := by
  induction hp with
  | refl => exact ⟨hr, h⟩
  | step hp ha hs ih =>
    have hi := reach_inv ih.1
    exact ⟨.step ih.1 trivial hs, ih.2.effect hi ha (hi.step hs).2⟩

/-! ## The timers outside the batch -/

/-- The timers in the indexes of `u` are still there in `v`, unless they were canceled. -/
def Kept (u v : State D) : Prop := ∀ e ∈ u.timers,
  u.idAt e.timer ∈ v.cancelCalls ∨ e ∈ v.timers ∧ v.heap e.timer = u.heap e.timer

omit [Seconds D] in
theorem Kept.refl : Kept u u := fun _ he => .inr ⟨he, rfl⟩

omit [Seconds D] in
theorem Kept.trans {w : State D} (h : Kept u v) (h' : Kept v w)
    (hcalls : ∀ p ∈ v.cancelCalls, p ∈ w.cancelCalls) : Kept u w := by
  intro e he
  rcases h e he with hc | ⟨hv, heap⟩
  · exact .inl (hcalls _ hc)
  · rcases h' e hv with hc | ⟨hw, heap'⟩
    · left
      rw [State.idAt, sequenceAt_congr heap] at hc
      exact hc
    · exact .inr ⟨hw, heap'.trans heap⟩

/-- **Step lemma outside the batch**: an action inside a batch takes a timer out of the indexes only
by canceling it. -/
theorem Kept.effect {a : Action D} (hi : Inv u) (hq : u.phase ≠ .quiet) (ha : Inside u a)
    (he : Effect u a v) : Kept u v ∧ ∀ p ∈ u.cancelCalls, p ∈ v.cancelCalls := by
  cases he with
  | newTimer hdead hlt =>
    refine ⟨fun e hin => .inr ⟨hin, ?_⟩, fun p hp => hp⟩
    obtain ⟨t, ht, -⟩ := (hi.synced.entry_iff e).mp hin
    have hne : e.timer ≠ _ := fun heq => by
      rw [heq, hdead] at ht
      cases ht
    exact Function.update_of_ne hne ..
  | add hcode hin ht hn =>
    exact ⟨fun e hin => .inr ⟨OrdSet.mem_insert.mpr (.inr hin), rfl⟩, fun p hp => hp⟩
  | @cancelActive id t hcode hid ht hseq =>
    refine ⟨fun e hin => ?_, fun p hp => List.mem_cons_of_mem _ hp⟩
    by_cases heq : e.timer = id.timer
    · -- the timer canceled
      left
      have hmem : u.idAt e.timer = id := by
        rw [heq, idAt_eq ht, hseq]
      rw [hmem]
      exact List.mem_cons_self
    · refine .inr ⟨OrdSet.mem_erase.mpr ⟨fun hsame => ?_, hin⟩, Function.update_of_ne heq ..⟩
      exact heq (congrArg Entry.timer hsame)
  | cancelOther hcode hid =>
    exact ⟨fun e hin => .inr ⟨hin, rfl⟩, fun p hp => List.mem_cons_of_mem _ hp⟩
  | handleRead expired T A hq' hs hexp hT hA hnd => exact absurd hq' hq
  | run hp ht => exact ⟨fun e hin => .inr ⟨hin, rfl⟩, fun p hp => hp⟩
  | callbackReturns hp => exact ⟨fun e hin => .inr ⟨hin, rfl⟩, fun p hp => hp⟩
  | reset H T A hp hs hby => exact absurd ha id

/-- **Run lemma**: meanwhile a timer leaves the indexes only by a cancel. -/
theorem Kept.path (h : Running s now expired u) (hr : (machine D).Reach anyAction u)
    (hp : (machine D).Path Inside u v) : Kept u v ∧ ∀ p ∈ u.cancelCalls, p ∈ v.cancelCalls := by
  induction hp with
  | refl => exact ⟨.refl, fun p hp => hp⟩
  | step hp ha hs ih =>
    obtain ⟨hr', h'⟩ := h.path hr hp
    have hi := reach_inv hr'
    obtain ⟨hkept, hcalls⟩ := Kept.effect hi h'.phase_ne_quiet ha (hi.step hs).2
    exact ⟨ih.1.trans hkept hcalls, fun p hin => hcalls p (ih.2 p hin)⟩

/-! ## The end of the batch -/

/-- What `reset` makes of the batch. -/
structure Merged (s v w : State D) (now : ℕ) (expired : List Entry) : Prop where
  quiet : w.phase = .quiet
  ran : w.ran = s.ran ++ expired.map fun e => (w.batchNo, s.sequenceAt e.timer)
  batchNo : w.batchNo = s.batchNo + 1
  cancelCalls : w.cancelCalls = v.cancelCalls
  kept : Kept v w
  again : ∀ e ∈ expired, ∀ t, s.heap e.timer = some t → t.repeat_ = true →
    s.idAt e.timer ∉ w.cancelCalls → w.heap e.timer = some (t.restart now) ∧
      ⟨Timestamp.addTime now t.interval, e.timer⟩ ∈ w.timers
  gone : ∀ e ∈ expired, ∀ t, s.heap e.timer = some t →
    t.repeat_ = false ∨ s.idAt e.timer ∈ w.cancelCalls → w.heap e.timer = none

/-- **The end of `handleRead`**: `reset` finds all callbacks run, restarts the repeating timers of
the batch that were not canceled, deletes the others, and touches no other timer. -/
theorem Running.reset {clock garbage : ℕ} {w : State D} (h : Running s now expired v) (hi : Inv v)
    (hs : (machine D).Step v (.reset clock garbage) w) : Merged s v w now expired := by
  have heff := (hi.step hs).2
  have hiw := heff.inv hi
  have hdet := h.detached hi
  cases heff with
  | @reset now' expired' clock garbage H T A hp hsync hby =>
    obtain ⟨rfl, rfl⟩ := h.of_running hp
    -- an id of the batch is noted exactly when it was canceled
    have hnoted : ∀ e ∈ expired', ∀ t, s.heap e.timer = some t →
        ((⟨e.timer, t.sequence⟩ : ActiveTimer) ∈ v.cancelingTimers ↔
          s.idAt e.timer ∈ v.cancelCalls) := by
      intro e hin t ht
      rw [idAt_eq ht]
      refine ⟨h.noted _, fun hc => hi.canceled _ hc ⟨?_, t, (h.heap e hin).trans ht, rfl⟩⟩
      rw [h.batch_eq]
      exact List.mem_map_of_mem hin
    refine ⟨rfl, ?_, h.batchNo, rfl, fun e hin => .inr ?_, fun e hin t ht hrep hc => ?_,
      fun e hin t ht hor => ?_⟩
    · obtain ⟨done, hdone, hran⟩ := h.ran
      rw [hp, Phase.rest, List.append_nil] at hdone
      rw [← hdone]
      exact hran
    · obtain ⟨t, ht, hx, hact⟩ := (hi.synced.entry_iff e).mp hin
      have hout : e.timer ∉ expired'.map Entry.timer := fun hin' => by
        obtain ⟨f, hf, heq⟩ := List.mem_map.mp hin'
        exact hi.synced.ne_of_detached (hdet f hf) hact heq.symm
      have hH : H e.timer = v.heap e.timer := hby.other _ hout
      refine ⟨(hsync.entry_iff e).mpr ⟨t, hH.trans ht, hx, (hby.active _).mpr (.inl hact)⟩, hH⟩
    · have hself := hby.self e hin t ((h.heap e hin).trans ht)
      rw [if_pos ⟨hrep, fun hc' => hc ((hnoted e hin t ht).mp hc')⟩] at hself
      refine ⟨hself, (hsync.entry_iff _).mpr ⟨_, hself, ?_, ?_⟩⟩
      · rw [Timer.restart, if_pos hrep]
      · exact (hby.active _).mpr (.inr ⟨List.mem_map_of_mem hin, _, hself, rfl⟩)
    · have hself := hby.self e hin t ((h.heap e hin).trans ht)
      refine hself.trans (if_neg ?_)
      rintro ⟨hrep, hc'⟩
      rcases hor with hone | hc
      · rw [hone] at hrep
        cases hrep
      · exact hc' ((hnoted e hin t ht).mpr hc)

omit [Seconds D] in
/-- A timer that waits to be added while the batch runs is not one of the batch. -/
theorem Running.sequenceAt_ne (h : Running s now expired u) (hi : Inv u) (ha : a ∈ u.unadded) :
    ∀ e ∈ expired, s.sequenceAt e.timer ≠ u.sequenceAt a := by
  intro e he heq
  obtain ⟨t, ht, -⟩ := hi.unadded_detached a ha
  obtain ⟨t', ht', -⟩ := h.detached hi e he
  have hseq : t'.sequence = t.sequence := by
    rw [← sequenceAt_eq ht', ← sequenceAt_eq ht, sequenceAt_congr (h.heap e he), heq]
  have haddr : e.timer = a := hi.heap.sequence_inj _ _ t' t ht' ht hseq
  refine hi.disjoint a ?_ ha
  rw [h.batch_eq, ← haddr]
  exact List.mem_map_of_mem he

/-- The batch from `handleRead` in `s` over the callbacks, from `s₁` to `s₂`, to its end in `s₃` did
exactly its work. -/
structure ExactBatch (s s₁ s₂ s₃ : State D) (now : ℕ) (expired : List Entry) : Prop where
  expired_iff : ∀ e, e ∈ expired ↔ e ∈ s.timers ∧ e.expiration ≤ now
  ordered : expired.Pairwise fun e f => e.expiration ≤ f.expiration
  /-- each once: no two entries are the same timer -/
  once : (expired.map fun e => s.sequenceAt e.timer).Nodup
  ran : s₃.ran = s.ran ++ expired.map fun e => (s₃.batchNo, s.sequenceAt e.timer)
  /-- the callbacks before ran in other batches -/
  ran_before : ∀ p ∈ s.ran, p.1 < s₃.batchNo
  /-- a timer added by a callback is not run in this batch -/
  added : ∀ u v a clock, (machine D).Path Inside s₁ u →
    (machine D).Step u (.addTimerInLoop a clock) v → (s₃.batchNo, u.sequenceAt a) ∉ s₃.ran
  /-- a repeating timer of the batch that was not canceled is back -/
  again : ∀ e ∈ expired, ∀ t, s.heap e.timer = some t → t.repeat_ = true →
    s.idAt e.timer ∉ s₃.cancelCalls → s₃.heap e.timer = some (t.restart now) ∧
      ⟨Timestamp.addTime now t.interval, e.timer⟩ ∈ s₃.timers
  /-- every other timer of the batch is gone -/
  gone : ∀ e ∈ expired, ∀ t, s.heap e.timer = some t →
    t.repeat_ = false ∨ s.idAt e.timer ∈ s₃.cancelCalls →
    s₃.heap e.timer = none ∧ ∀ x, ⟨x, e.timer⟩ ∉ s₃.timers
  /-- a timer outside the batch is still there unless it was canceled -/
  outside : ∀ e ∈ s.timers, now < e.expiration →
    s.idAt e.timer ∈ s₃.cancelCalls ∨ e ∈ s₃.timers ∧ s₃.heap e.timer = s.heap e.timer
  /-- and so is a timer that came to the indexes while the batch was running -/
  outside_added : ∀ u, (machine D).Path Inside s₁ u → (machine D).Path Inside u s₂ → Kept u s₃

/-- **One expiry batch does exactly its work**, whatever its callbacks add and cancel. -/
theorem handleRead_exact {s₁ s₂ s₃ : State D} {fired : Bool} {clock garbage : ℕ}
    (hr : (machine D).Reach anyAction s) (hread : (machine D).Step s (.handleRead now fired) s₁)
    (hpath : (machine D).Path Inside s₁ s₂)
    (hend : (machine D).Step s₂ (.reset clock garbage) s₃) :
    ∃ expired, ExactBatch s s₁ s₂ s₃ now expired := by
  have hi := reach_inv hr
  have hr₁ : (machine D).Reach anyAction s₁ := .step hr trivial hread
  obtain ⟨hrun₁, hexp, hlater, hheap⟩ := Running.start hi hread
  obtain ⟨hr₂, hrun₂⟩ := hrun₁.path hr₁ hpath
  have hmerged := hrun₂.reset (reach_inv hr₂) hend
  have hr₃ : (machine D).Reach anyAction s₃ := .step hr₂ trivial hend
  have hi₃ : Inv s₃ := reach_inv hr₃
  have hbefore : ∀ p ∈ s.ran, p.1 < s₃.batchNo := by
    intro p hp
    have hle := reach_ran_le (reach_cut hr) p hp
    have hno := hmerged.batchNo
    omega
  have hkept : ∀ u, (machine D).Path Inside s₁ u → (machine D).Path Inside u s₂ → Kept u s₃ := by
    intro u hu hus
    obtain ⟨hru, hrunu⟩ := hrun₁.path hr₁ hu
    refine (Kept.path hrunu hru hus).1.trans hmerged.kept fun p hp => ?_
    rw [hmerged.cancelCalls]
    exact hp
  refine ⟨s₁.phase.batch, hexp, handleRead_ordered hread, ?_, hmerged.ran, hbefore, ?_,
    hmerged.again, ?_, ?_, hkept⟩
  · -- two timers of the batch have numbers of their own
    have hnd : (s₁.phase.batch.map Entry.timer).Nodup := (reach_inv hr₁).batch_nodup
    rw [List.nodup_map_iff_inj_on hnd.of_map]
    intro e he f hf heq
    obtain ⟨t, ht, -⟩ := (hi.synced.entry_iff e).mp ((hexp e).mp he).1
    obtain ⟨t', ht', -⟩ := (hi.synced.entry_iff f).mp ((hexp f).mp hf).1
    rw [sequenceAt_eq ht, sequenceAt_eq ht'] at heq
    exact hi.synced.entry_inj ((hexp e).mp he).1 ((hexp f).mp hf).1
      (hi.heap.sequence_inj _ _ t t' ht ht' heq)
  · intro u v a clock hu hadd hmem
    obtain ⟨hru, hrunu⟩ := hrun₁.path hr₁ hu
    have ha : a ∈ u.unadded := by
      cases ((reach_inv hru).step hadd).2 with
      | add hcode ha ht hn => exact ha
    rw [hmerged.ran] at hmem
    rcases List.mem_append.mp hmem with hmem | hmem
    · exact absurd (hbefore _ hmem) (lt_irrefl _)
    · obtain ⟨e, he, heq⟩ := List.mem_map.mp hmem
      exact hrunu.sequenceAt_ne (reach_inv hru) ha e he (congrArg Prod.snd heq)
  · intro e he t ht hor
    have hnone := hmerged.gone e he t ht hor
    refine ⟨hnone, fun x hx => ?_⟩
    obtain ⟨t', ht', -⟩ := (hi₃.synced.entry_iff _).mp hx
    rw [hnone] at ht'
    cases ht'
  · intro e he hlate
    have hkept₁ := hkept s₁ .refl hpath e ((hlater e).mpr ⟨he, hlate⟩)
    rw [State.idAt, sequenceAt_congr (congrFun hheap e.timer), congrFun hheap e.timer] at hkept₁
    exact hkept₁

/-- Two timers at times 100 and 200 repeat every second, a third one at time 9000 does not. -/
def threeTimers : List (Action ℕ) :=
  [.newTimer 8 200 1, .newTimer 16 100 1, .newTimer 24 9000 0, .addTimerInLoop 8 50,
    .addTimerInLoop 16 50, .addTimerInLoop 24 50]

/-- The callback of the timer at 100 cancels the other one, which expires with it, and the third
one, and adds a timer at time 1. -/
def cancelOthers : List (Action ℕ) :=
  [.run, .cancelInLoop ⟨8, 1⟩, .cancelInLoop ⟨24, 3⟩, .newTimer 32 1 0, .addTimerInLoop 32 60,
    .callbackReturns, .run, .callbackReturns]

theorem handleRead_exact_cancelOthers : ∃ s s₁ s₂ s₃ : State ℕ, (machine ℕ).Reach anyAction s ∧
    (∃ expired, ExactBatch s s₁ s₂ s₃ 300 expired) ∧ s₃.ran = [(1, 2), (1, 1)] ∧
    s₃.timers.toList = [⟨1, 32⟩, ⟨1000300, 16⟩] := by
  obtain ⟨s, s₁, s₂, s₃, hs, hread, hpath, hend, hran, htimers⟩ : ∃ s s₁ s₂ s₃ : State ℕ,
      (machine ℕ).exec anyAction init threeTimers = some s ∧
        (machine ℕ).Step s (.handleRead 300 true) s₁ ∧
        (machine ℕ).exec Inside s₁ cancelOthers = some s₂ ∧
        (machine ℕ).Step s₂ (.reset 400 0) s₃ ∧ s₃.ran = [(1, 2), (1, 1)] ∧
        s₃.timers.toList = [⟨1, 32⟩, ⟨1000300, 16⟩] := ⟨_, _, _, _, rfl, rfl, rfl, rfl, rfl, rfl⟩
  have hr : (machine ℕ).Reach anyAction s := .of_exec (.init rfl) hs
  exact ⟨s, s₁, s₂, s₃, hr, handleRead_exact hr hread (.of_exec .refl hpath) hend, hran, htimers⟩

end MengSen.TimerQueue

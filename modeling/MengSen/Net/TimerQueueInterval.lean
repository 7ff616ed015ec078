import MengSen.Net.TimerQueueBatch
import Mathlib.Data.List.Chain
import Mathlib.Data.Rat.Floor

/-!
# Net.TimerQueueInterval — the distance between two runs of a repeating timer

`Timestamp::now` counts nanoseconds, `addTime` adds microseconds.  So `restart` sets a timer of `k`
microseconds to expire `k` nanoseconds after the batch, and any batch that begins from then on runs
it.  The observer `watch` records for each timer its interval and the clock readings of the batches
that ran it.
-/

namespace MengSen

/-- Seconds as exact rationals. -/
instance : Seconds ℚ where
  isPos d := 0 < d
  micros d := ⌊d * (Timestamp.kMicroSecondsPerSecond : ℚ)⌋₊

theorem micros_div (k : ℕ) : Seconds.micros ((k : ℚ) / 10 ^ 6) = k := by
  have hmul : (k : ℚ) / 10 ^ 6 * (Timestamp.kMicroSecondsPerSecond : ℚ) = k := by
    norm_num [Timestamp.kMicroSecondsPerSecond]
  change ⌊(k : ℚ) / 10 ^ 6 * (Timestamp.kMicroSecondsPerSecond : ℚ)⌋₊ = k
  rw [hmul, Nat.floor_natCast]

namespace TimerQueue

open Machine (anyAction)

variable {D : Type} {s t : State D} {n d : ℕ}

/-- Two consecutive readings, one later than the other, are `d` apart. -/
def Spaced (d : ℕ) (l : List ℕ) : Prop := l.IsChain fun now₁ now₂ => now₁ < now₂ → now₁ + d ≤ now₂

theorem Spaced.concat {l : List ℕ} {now : ℕ} (h : Spaced d l)
    (hlast : ∀ last ∈ l.getLast?, last < now → last + d ≤ now) : Spaced d (l ++ [now]) := by
  refine List.IsChain.append h (List.isChain_singleton now) fun last hl x hx => ?_
  obtain rfl : now = x := by simpa using hx
  exact hlast last hl

/-! ## The observer -/

/-- The clock reading of the batch. -/
def Phase.reading : Phase → ℕ
  | .quiet => 0
  | .running now _ _ | .inCallback now _ _ => now

/-- A timer queue that is watched. -/
structure Watched (D : Type) where
  queue : State D
  /-- the interval with which the timer with a given sequence number was created -/
  interval : ℕ → Option D
  /-- the clock readings of the batches that ran its callback, in order -/
  runs : ℕ → List ℕ

variable [Seconds D]

/-- What the observer records of an action that led to `q`. -/
def Watched.record (w : Watched D) (q : State D) : Action D → Watched D
  | .newTimer _ _ interval =>
    ⟨q, Function.update w.interval q.numCreated (some interval), w.runs⟩
  | .run =>
    match w.queue.phase with
    | .running now _ (it :: _) =>
      let n := w.queue.sequenceAt it.timer
      ⟨q, w.interval, Function.update w.runs n (w.runs n ++ [now])⟩
    | _ => ⟨q, w.interval, w.runs⟩
  | _ => ⟨q, w.interval, w.runs⟩

def watch (D : Type) [Seconds D] : Machine (Watched D) (Action D) Fault where
  init w := w = ⟨init, fun _ => none, fun _ => []⟩
  act w a := ((machine D).act w.queue a).map (Except.map fun q => w.record q a)

variable {w w' : Watched D}

/-- An action of the watched queue is an action of the queue, and is recorded. -/
theorem watch_step {a : Action D} (h : (watch D).Step w a w') :
    ∃ q, (machine D).Step w.queue a q ∧ w' = w.record q a := by
  obtain ⟨r, hr, hmap⟩ := Option.map_eq_some_iff.mp h
  cases r with
  | error e => cases hmap
  | ok q => exact ⟨q, hr, (Except.ok.inj hmap).symm⟩

omit [Seconds D] in
@[simp] theorem record_queue (q : State D) (a : Action D) : (w.record q a).queue = q := by
  cases a with
  | run =>
    unfold Watched.record
    cases w.queue.phase with
    | running now expired rest => cases rest <;> rfl
    | _ => rfl
  | _ => rfl

/-- Watching changes nothing. -/
theorem watch_queue {ok : Watched D → Action D → Prop} (h : (watch D).Reach ok w) :
    (machine D).Reach anyAction w.queue := by
  refine Machine.Reach.map Watched.queue ?_ ?_ h
  · rintro w rfl
    rfl
  · intro w a w' _ _ hs
    obtain ⟨q, hq, rfl⟩ := watch_step hs
    rw [record_queue]
    exact .single trivial hq

/-! ## Where the last run is -/

/-- The timer `t` was last run in a batch that set it to its expiration, or was not run yet. -/
def Restarted (w : Watched D) (t : Timer D) : Prop :=
  ∀ last ∈ (w.runs t.sequence).getLast?, t.expiration = Timestamp.addTime last t.interval

/-- The invariant of the observer. -/
structure Watched.Inv (w : Watched D) : Prop where
  interval : ∀ a t, w.queue.heap a = some t → w.interval t.sequence = some t.interval
  created : ∀ n, w.queue.numCreated < n → w.runs n = []
  unadded : ∀ a ∈ w.queue.unadded, ∀ t, w.queue.heap a = some t → w.runs t.sequence = []
  active : ∀ p ∈ w.queue.activeTimers, ∀ t, w.queue.heap p.timer = some t → Restarted w t
  /-- the timers of the batch that were run were run at its reading -/
  done : ∀ e ∈ w.queue.phase.batch, e ∉ w.queue.phase.rest →
    ∀ t, w.queue.heap e.timer = some t →
      (w.runs t.sequence).getLast? = some w.queue.phase.reading
  rest_nodup : w.queue.phase.rest.Nodup

/-- A batch that begins at `now` is early for a timer last run at `last`: the expiration that
`addTime` computed is over, but the interval is not. -/
def Early (now : ℕ) (t : Timer D) (last : ℕ) : Prop :=
  Timestamp.addTime last t.interval ≤ now ∧ last < now ∧
    now < last + 1000 * Seconds.micros t.interval

instance (now : ℕ) (t : Timer D) (last : ℕ) : Decidable (Early now t last) :=
  inferInstanceAs (Decidable (_ ∧ _ ∧ _))

/-- No batch begins early for a timer in `timers_`.  As `addTime` adds the interval in a smaller unit,
this asks of the schedule that the loop does not come back for a batch in between: from the expiration
to the end of the interval the thread is elsewhere. -/
def OnTime (w : Watched D) : Action D → Prop
  | .handleRead now _ => ∀ e ∈ w.queue.timers.toList, ∀ t ∈ w.queue.heap e.timer,
    ∀ last ∈ (w.runs t.sequence).getLast?, ¬ Early now t last
  | _ => True

instance (w : Watched D) : ∀ a : Action D, Decidable (OnTime w a)
  | .handleRead now _ => inferInstanceAs (Decidable (∀ e ∈ w.queue.timers.toList,
      ∀ t ∈ w.queue.heap e.timer, ∀ last ∈ (w.runs t.sequence).getLast?, ¬ Early now t last))
  | .newTimer .. | .addTimerInLoop .. | .cancelInLoop _ | .run | .callbackReturns | .reset .. =>
    inferInstanceAs (Decidable True)

theorem Watched.Inv.newTimer {a : Addr} {when : ℕ} {interval : D} {q : State D} (h : w.Inv)
    (hi : TimerQueue.Inv w.queue) (he : Effect w.queue (.newTimer a when interval) q) :
    (w.record q (.newTimer a when interval)).Inv := by
  cases he with
  | newTimer hdead hlt =>
    -- the new timer has a number of its own
    have hcases : ∀ b u,
        Function.update w.queue.heap a (some (Timer.make when interval w.queue.numCreated)) b =
          some u → b = a ∧ u = Timer.make when interval w.queue.numCreated ∨
            b ≠ a ∧ w.queue.heap b = some u := by
      intro b u hu
      by_cases hb : b = a
      · rw [hb, Function.update_self, Option.some.injEq] at hu
        exact .inl ⟨hb, hu.symm⟩
      · exact .inr ⟨hb, (Function.update_of_ne hb ..).symm.trans hu⟩
    have hne : ∀ b, Detached w.queue b ∨ (∃ p ∈ w.queue.activeTimers, p.timer = b) → b ≠ a := by
      rintro b (⟨u, hu, -⟩ | ⟨p, hp, rfl⟩) rfl
      · rw [hdead] at hu
        cases hu
      · exact hi.synced.ne_of_dead hdead hp rfl
    refine ⟨fun b u hu => ?_, fun m hm => ?_, fun b hb u hu => ?_, fun p hp u hu => ?_,
      fun e hin hout u hu => ?_, h.rest_nodup⟩
    · rcases hcases b u hu with ⟨-, rfl⟩ | ⟨-, hu⟩
      · exact Function.update_self ..
      · have hle := hi.heap.sequence_le b u hu
        have hseq : u.sequence ≠ w.queue.numCreated + 1 := by omega
        exact (Function.update_of_ne hseq ..).trans (h.interval b u hu)
    · exact h.created m (lt_trans (Nat.lt_succ_self _) hm)
    · rcases hcases b u hu with ⟨-, rfl⟩ | ⟨hba, hu⟩
      · exact h.created _ (Nat.lt_succ_self _)
      · rcases List.mem_cons.mp hb with rfl | hb
        · exact absurd rfl hba
        · exact h.unadded b hb u hu
    · rcases hcases _ u hu with ⟨hpa, -⟩ | ⟨-, hu⟩
      · exact absurd hpa (hne _ (.inr ⟨p, hp, rfl⟩))
      · exact h.active p hp u hu
    · rcases hcases _ u hu with ⟨hea, -⟩ | ⟨-, hu⟩
      · exact absurd hea (hne _ (.inl (hi.batch_detached _ (List.mem_map_of_mem hin))))
      · exact h.done e hin hout u hu

omit [Seconds D] in
/-- What is recorded of a callback. -/
theorem record_run {now : ℕ} {expired rest : List Entry} {it : Entry} {t : Timer D}
    (hp : w.queue.phase = .running now expired (it :: rest)) (ht : w.queue.heap it.timer = some t)
    (q : State D) : w.record q .run =
      ⟨q, w.interval, Function.update w.runs t.sequence (w.runs t.sequence ++ [now])⟩ := by
  have hseq : w.queue.sequenceAt it.timer = t.sequence := sequenceAt_eq ht
  simp only [Watched.record, hp, hseq]

omit [Seconds D] in
/-- A callback is recorded for the timer at its address only. -/
theorem runs_other {a b : Addr} {t u : Timer D} (hi : TimerQueue.Inv w.queue)
    (ht : w.queue.heap a = some t) (hu : w.queue.heap b = some u) (hb : b ≠ a) (l : List ℕ) :
    Function.update w.runs t.sequence l u.sequence = w.runs u.sequence := by
  refine Function.update_of_ne (fun heq => hb ?_) ..
  exact hi.heap.sequence_inj _ _ u t hu ht heq

theorem Watched.Inv.run {q : State D} (h : w.Inv) (hi : TimerQueue.Inv w.queue)
    (he : Effect w.queue .run q) : (w.record q .run).Inv := by
  cases he with
  | @run now expired it rest t hp ht =>
    have hnd := h.rest_nodup
    have hdone := h.done
    have hit := hi.rest_subset it (by rw [hp]; exact List.mem_cons_self)
    rw [hp] at hnd hdone hit
    have hdet := hi.detached hp it hit
    rw [record_run hp ht]
    refine ⟨h.interval, fun m hm => ?_, fun b hb u hu => ?_, fun p hp' u hu last hlast => ?_,
      fun e hin hout u hu => ?_, (List.nodup_cons.mp hnd).2⟩
    · have hle := hi.heap.sequence_le _ t ht
      have hne : m ≠ t.sequence := by
        rintro rfl
        exact absurd hm (not_lt.mpr hle)
      exact (Function.update_of_ne hne ..).trans (h.created m hm)
    · refine (runs_other hi ht hu (fun heq => ?_) _).trans (h.unadded b hb u hu)
      refine hi.disjoint b ?_ hb
      rw [batch_of_running hp, heq]
      exact List.mem_map_of_mem hit
    · have hsame := runs_other hi ht hu (hi.synced.ne_of_detached hdet hp')
        (w.runs t.sequence ++ [now])
      exact h.active p hp' u hu last (hsame ▸ hlast)
    · by_cases heq : e.timer = it.timer
      · obtain rfl := Option.some.inj ((heq ▸ ht).symm.trans hu)
        change (Function.update w.runs t.sequence (w.runs t.sequence ++ [now])
          t.sequence).getLast? = some now
        rw [Function.update_self, List.getLast?_concat]
      · have hsame := runs_other hi ht hu heq (w.runs t.sequence ++ [now])
        refine (congrArg List.getLast? hsame).trans (hdone e hin (fun hmem => ?_) u hu)
        rcases List.mem_cons.mp hmem with rfl | hmem
        · exact heq rfl
        · exact hout hmem

theorem Watched.Inv.reset {clock garbage : ℕ} {q : State D} (h : w.Inv)
    (hi : TimerQueue.Inv w.queue) (he : Effect w.queue (.reset clock garbage) q) :
    (w.record q (.reset clock garbage)).Inv := by
  cases he with
  | @reset now expired clock garbage H T A hp hs hby =>
    have hdone := h.done
    rw [hp] at hdone
    have hdet := hi.detached hp
    have hbatch := batch_of_running hp
    refine ⟨fun b u hu => ?_, h.created, fun b hb u hu => ?_, fun p hp' u hu => ?_, ?_,
      List.nodup_nil⟩
    · by_cases hb : b ∈ expired.map Entry.timer
      · obtain ⟨e, -, rfl, v, hv, hr, rfl⟩ := hby.restarted hdet hu hb
        have hint := h.interval _ v hv
        rw [Timer.restart_sequence, Timer.restart, if_pos hr.1]
        exact hint
      · exact h.interval b u ((hby.other b hb).symm.trans hu)
    · have hout : b ∉ expired.map Entry.timer := fun hin => hi.disjoint b (hbatch ▸ hin) hb
      exact h.unadded b hb u ((hby.other b hout).symm.trans hu)
    · rcases (hby.active p).mp hp' with hp' | ⟨hin, -⟩
      · have hout : p.timer ∉ expired.map Entry.timer := fun hin =>
          hi.synced.ne_of_detached (hi.batch_detached _ (hbatch ▸ hin)) hp' rfl
        exact h.active p hp' u ((hby.other _ hout).symm.trans hu)
      · -- a timer of the batch was run at `now` and restarted from there
        obtain ⟨e, he, heq, v, hv, hr, rfl⟩ := hby.restarted hdet hu hin
        intro last hlast
        rw [Timer.restart_sequence] at hlast
        have hrun : (w.runs v.sequence).getLast? = some now :=
          hdone e he List.not_mem_nil v (heq ▸ hv)
        obtain rfl : now = last := Option.some.inj (hrun.symm.trans hlast)
        rw [Timer.restart, if_pos hr.1]
    · intro e hin
      cases hin

/-- **Step lemma**: every effect keeps the invariant of the observer. -/
theorem Watched.Inv.step {a : Action D} {q : State D} (h : w.Inv) (hi : TimerQueue.Inv w.queue)
    (he : Effect w.queue a q) : (w.record q a).Inv := by
  cases a with
  | newTimer timer when interval => exact h.newTimer hi he
  | run => exact h.run hi he
  | reset clock garbage => exact h.reset hi he
  | addTimerInLoop timer now =>
    cases he with
    | add hcode hin ht hn =>
      refine ⟨h.interval, h.created, fun b hb => h.unadded b (List.mem_of_mem_erase hb),
        fun p hp u hu last hlast => ?_, h.done, h.rest_nodup⟩
      rcases OrdSet.mem_insert.mp hp with rfl | hp
      · -- it was not run yet
        have hlast' : last ∈ (w.runs u.sequence).getLast? := hlast
        rw [h.unadded _ hin u hu] at hlast'
        cases hlast'
      · exact h.active p hp u hu last hlast
  | cancelInLoop id =>
    cases he with
    | @cancelActive id t hcode hid ht hseq =>
      have hold : ∀ b u, Function.update w.queue.heap id.timer none b = some u →
          w.queue.heap b = some u := by
        intro b u hu
        by_cases hb : b = id.timer
        · rw [hb, Function.update_self] at hu
          cases hu
        · exact (Function.update_of_ne hb ..).symm.trans hu
      exact ⟨fun b u hu => h.interval b u (hold b u hu), h.created,
        fun b hb u hu => h.unadded b hb u (hold b u hu),
        fun p hp u hu => h.active p (OrdSet.mem_erase.mp hp).2 u (hold _ u hu),
        fun e hin hout u hu => h.done e hin hout u (hold _ u hu), h.rest_nodup⟩
    | cancelOther hcode hid =>
      exact ⟨h.interval, h.created, h.unadded, h.active, h.done, h.rest_nodup⟩
  | handleRead now fired =>
    cases he with
    | handleRead expired T A hq hs hexp hT hA hnd =>
      exact ⟨h.interval, h.created, h.unadded, fun p hp => h.active p ((hA p).mp hp).1,
        fun e hin hout => absurd hin hout, hnd.of_map⟩
  | callbackReturns =>
    cases he with
    | @callbackReturns now expired rest hp =>
      have hdone := h.done
      have hnd := h.rest_nodup
      rw [hp] at hdone hnd
      exact ⟨h.interval, h.created, h.unadded, h.active, hdone, hnd⟩

/-- **Run lemma**: it holds of every state watched. -/
theorem watch_inv {ok : Watched D → Action D → Prop} (h : (watch D).Reach ok w) : w.Inv := by
  refine Machine.Reach.induct (I := Watched.Inv) ?_ ?_ h
  · rintro w rfl
    exact ⟨by simp [init], by simp, by simp [init], by simp [init],
      by simp [init, Phase.batch], List.nodup_nil⟩
  · intro w a w' hr hinv _ hs
    obtain ⟨q, hq, rfl⟩ := watch_step hs
    have hi := reach_inv (watch_queue hr)
    exact hinv.step hi (hi.step hq).2

/-! ## Batches that are on time -/

/-- The runs so far are spaced, and the next runs of the batch will be. -/
structure Punctual (w : Watched D) : Prop where
  spaced : ∀ n d, w.interval n = some d → Spaced (1000 * Seconds.micros d) (w.runs n)
  pending : ∀ e ∈ w.queue.phase.rest, ∀ t, w.queue.heap e.timer = some t →
    ∀ last ∈ (w.runs t.sequence).getLast?, last < w.queue.phase.reading →
      last + 1000 * Seconds.micros t.interval ≤ w.queue.phase.reading

/-- **Step lemma**: while no batch begins early, the runs stay spaced. -/
theorem Punctual.step {a : Action D} {q : State D} (h : Punctual w) (hw : w.Inv)
    (hi : TimerQueue.Inv w.queue) (ha : OnTime w a) (he : Effect w.queue a q) :
    Punctual (w.record q a) := by
  cases he with
  | @newTimer timer when interval hdead hlt =>
    refine ⟨fun m d hd => ?_, fun e hin u hu => ?_⟩
    · by_cases hm : m = w.queue.numCreated + 1
      · have hnone : w.runs m = [] := hw.created m (by omega)
        change Spaced _ (w.runs m)
        rw [hnone]
        exact List.isChain_nil
      · exact h.spaced m d ((Function.update_of_ne hm ..).symm.trans hd)
    · have hdet := hi.batch_detached _ (List.mem_map_of_mem (hi.rest_subset e hin))
      obtain ⟨v, hv, -⟩ := hdet
      have hne : e.timer ≠ timer := fun heq => by
        rw [heq, hdead] at hv
        cases hv
      exact h.pending e hin u ((Function.update_of_ne hne ..).symm.trans hu)
  | add hcode hin ht hn => exact ⟨h.spaced, h.pending⟩
  | @cancelActive id t hcode hid ht hseq =>
    refine ⟨h.spaced, fun e hin u hu => ?_⟩
    have hdet := hi.batch_detached _ (List.mem_map_of_mem (hi.rest_subset e hin))
    have hne := (hi.synced.ne_of_detached hdet hid).symm
    exact h.pending e hin u ((Function.update_of_ne hne ..).symm.trans hu)
  | cancelOther hcode hid => exact ⟨h.spaced, h.pending⟩
  | @handleRead now fired expired T A hq hs hexp hT hA hnd =>
    refine ⟨h.spaced, fun e hin t ht last hlast hlt => ?_⟩
    -- the entry was in `timers_`, so the batch is not early for it
    obtain ⟨hmem, hle⟩ := (hexp e).mp hin
    obtain ⟨t', ht', hx, hact⟩ := (hi.synced.entry_iff e).mp hmem
    obtain rfl := Option.some.inj (ht.symm.trans ht')
    have hrestarted := hw.active _ hact t ht last hlast
    by_contra hearly
    exact ha e hmem t ht last hlast ⟨by omega, hlt, not_le.mp hearly⟩
  | @run now expired it rest t hp ht =>
    have hpending := h.pending
    have hnd := hw.rest_nodup
    have hsub := hi.rest_subset
    rw [hp] at hpending hnd hsub
    rw [record_run hp ht]
    refine ⟨fun m d hd => ?_, fun e hin u hu last hlast => ?_⟩
    · by_cases hm : m = t.sequence
      · subst hm
        obtain rfl := Option.some.inj (hd.symm.trans (hw.interval _ t ht))
        change Spaced _ (Function.update w.runs t.sequence (w.runs t.sequence ++ [now]) t.sequence)
        rw [Function.update_self]
        exact (h.spaced _ _ hd).concat (hpending it List.mem_cons_self t ht)
      · change Spaced _ (Function.update w.runs t.sequence (w.runs t.sequence ++ [now]) m)
        rw [Function.update_of_ne hm]
        exact h.spaced m d hd
    · -- the entries of the batch are different timers
      have hne : e.timer ≠ it.timer := by
        have hbatch := hi.batch_nodup
        rw [batch_of_running hp] at hbatch
        intro heq
        have hsame := List.inj_on_of_nodup_map hbatch (hsub e (List.mem_cons_of_mem _ hin))
          (hsub it List.mem_cons_self) heq
        exact (List.nodup_cons.mp hnd).1 (hsame ▸ hin)
      have hsame := runs_other hi ht hu hne (w.runs t.sequence ++ [now])
      exact hpending e (List.mem_cons_of_mem _ hin) u hu last (hsame ▸ hlast)
  | @callbackReturns now expired rest hp =>
    have hpending := h.pending
    rw [hp] at hpending
    exact ⟨h.spaced, hpending⟩
  | reset H T A hp hs hby => exact ⟨h.spaced, fun e hin => by cases hin⟩

/-- **Run lemma**: while all batches are on time, the runs are spaced. -/
theorem watch_punctual (h : (watch D).Reach OnTime w) : Punctual w := by
  refine Machine.Reach.induct (I := Punctual) ?_ ?_ h
  · rintro w rfl
    exact ⟨by simp, by simp [init, Phase.rest]⟩
  · intro w a w' hr hpunct ha hs
    obtain ⟨q, hq, rfl⟩ := watch_step hs
    have hi := reach_inv (watch_queue hr)
    exact hpunct.step (watch_inv hr) hi ha (hi.step hq).2

/-- **A batch that begins early runs the timer early**: it is in the batch, whatever happened
before. -/
theorem early_in_batch {ok : Watched D → Action D → Prop} {now last : ℕ} {fired : Bool} {e : Entry}
    {t : Timer D} (h : (watch D).Reach ok w) (hs : (watch D).Step w (.handleRead now fired) w')
    (he : e ∈ w.queue.timers) (ht : w.queue.heap e.timer = some t)
    (hlast : last ∈ (w.runs t.sequence).getLast?) (hearly : Early now t last) :
    e ∈ w'.queue.phase.batch := by
  obtain ⟨q, hq, rfl⟩ := watch_step hs
  have hi := reach_inv (watch_queue h)
  obtain ⟨-, hexp, -⟩ := Running.start hi hq
  obtain ⟨u, hu, hx, hact⟩ := (hi.synced.entry_iff e).mp he
  obtain rfl := Option.some.inj (ht.symm.trans hu)
  rw [record_queue]
  refine (hexp e).mpr ⟨he, ?_⟩
  rw [← hx, (watch_inv h).active _ hact t ht last hlast]
  exact hearly.1

/-- **A repeating timer keeps its interval while no batch begins early**: the clock readings of
consecutive runs of a timer of `k` microseconds are `1000 * k` nanoseconds apart. -/
theorem runEvery_spaced {w : Watched ℚ} (h : (watch ℚ).Reach OnTime w) (n k : ℕ)
    (hn : w.interval n = some ((k : ℚ) / 10 ^ 6)) : Spaced (1000 * k) (w.runs n) := by
  have hspaced := (watch_punctual h).spaced n _ hn
  rwa [micros_div] at hspaced

/-- A timer of a second and a timer of two milliseconds run in a batch at 100050, and again in a
batch that begins at `now`. -/
def runTwice (now : ℕ) : List (Action ℚ) :=
  [.newTimer 8 100 (1000000 / 10 ^ 6), .newTimer 16 100 (2000 / 10 ^ 6), .addTimerInLoop 8 50,
    .addTimerInLoop 16 60, .handleRead 100050 true, .run, .callbackReturns, .run, .callbackReturns,
    .reset 100150 0, .handleRead now true, .run, .callbackReturns, .run]

theorem runEvery_spaced_runTwice : ∃ w : Watched ℚ, (watch ℚ).Reach OnTime w ∧
    w.runs 1 = [100050, 1000100050] ∧ Spaced (1000 * 1000000) (w.runs 1) := by
  have hexec : ((watch ℚ).exec OnTime ⟨init, fun _ => none, fun _ => []⟩
      (runTwice 1000100050)).map (fun w => (w.interval 1, w.runs 1)) =
        some (some (1000000 / 10 ^ 6), [100050, 1000100050]) := by
    decide +kernel
  obtain ⟨w, hw, heq⟩ := Option.map_eq_some_iff.mp hexec
  obtain ⟨hinterval, hruns⟩ := Prod.mk.inj heq
  have hr : (watch ℚ).Reach OnTime w := .of_exec (.init rfl) hw
  exact ⟨w, hr, hruns, runEvery_spaced hr 1 1000000 hinterval⟩

/-- The timerfd is armed for the timer of two milliseconds, and the batch runs the timer of a second
as well. -/
theorem runEvery_early : ∃ w : Watched ℚ, (watch ℚ).Reach anyAction w ∧
    w.interval 1 = some (((1000000 : ℕ) : ℚ) / 10 ^ 6) ∧ w.runs 1 = [100050, 2000150] ∧
    ¬ Spaced (1000 * 1000000) (w.runs 1) := by
  have hexec : ((watch ℚ).exec anyAction ⟨init, fun _ => none, fun _ => []⟩
      (runTwice 2000150)).map (fun w => (w.interval 1, w.runs 1)) =
        some (some (1000000 / 10 ^ 6), [100050, 2000150]) := by
    decide +kernel
  obtain ⟨w, hw, heq⟩ := Option.map_eq_some_iff.mp hexec
  obtain ⟨hinterval, hruns⟩ := Prod.mk.inj heq
  refine ⟨w, .of_exec (.init rfl) hw, hinterval, hruns, ?_⟩
  rw [hruns]
  intro h
  have hgap := (List.isChain_cons_cons.mp h).1 (by decide)
  omega

end TimerQueue

end MengSen

import MengSen.Net.TimerQueueInv

/-!
# Net.TimerQueueReset — when `reset` arms the timerfd

`nextExpire` is assigned only when `timers_` is not empty after the loop, and looked at in any case;
a least expiration of 0, the invalid time, is not armed for.  `ResetExact` is what `reset` is for,
whatever the uninitialised variable holds; `Rearms` is when it does that.
-/

namespace MengSen.TimerQueue

open Machine (anyAction)

variable {D : Type} {s : State D}

/-- The timerfd that the set `T` asks for: armed for the least expiration, left alone when there is
none. -/
def armingFor (T : OrdSet Entry) (clock : ℕ) (timerfd : Option Arming) : Option Arming :=
  match T.begin? with
  | some e => some ⟨e.expiration, clock, detail.howMuchTimeFromNow e.expiration clock⟩
  | none => timerfd

variable [Seconds D] {now : ℕ} {expired : List Entry}

/-- `reset` arms the timerfd for what is in `timers_` after its loop, whatever the uninitialised
`nextExpire` holds and however the timerfd was armed. -/
def ResetExact (s : State D) (expired : List Entry) (now clock : ℕ) : Prop :=
  ∃ T : OrdSet Entry, ∀ fd, ∀ garbage < 2 ^ 64, ∃ t,
    { s with callingExpiredTimers := false, timerfd := fd }.reset expired now clock garbage =
      .ok t ∧ t.timers = T ∧ t.timerfd = armingFor T clock fd

/-- After the loop of `reset` there is a timer, and no timer at the invalid time. -/
structure Rearms (s : State D) (expired : List Entry) (now : ℕ) : Prop where
  /-- a timer is in `timers_`, or one of the batch repeats and was not canceled -/
  nonempty : (∃ e, e ∈ s.timers) ∨
    ∃ e ∈ expired, ∃ t, s.heap e.timer = some t ∧ Restarts s e.timer t
  timers : ∀ e ∈ s.timers, e.expiration ≠ Timestamp.invalid
  restarts : ∀ e ∈ expired, ∀ t, s.heap e.timer = some t → Restarts s e.timer t →
    Timestamp.addTime now t.interval ≠ Timestamp.invalid

/-- What is in `timers_` after the loop of `reset`: what was there before, and what restarted. -/
theorem ResetBy.mem_timers {H : Addr → Option (Timer D)} {T : OrdSet Entry} {A : OrdSet ActiveTimer}
    (hs : Synced s) (hdet : ∀ e ∈ expired, Detached s e.timer)
    (hsync : Synced { s with heap := H, timers := T, activeTimers := A })
    (hby : ResetBy now expired s H A) (e : Entry) :
    e ∈ T ↔ e ∈ s.timers ∨ ∃ f ∈ expired, f.timer = e.timer ∧ ∃ t, s.heap e.timer = some t ∧
      Restarts s e.timer t ∧ Timestamp.addTime now t.interval = e.expiration := by
  have hout : ∀ {p : ActiveTimer}, p ∈ s.activeTimers → p.timer ∉ expired.map Entry.timer := by
    intro p hp hin
    obtain ⟨f, hf, heq⟩ := List.mem_map.mp hin
    exact hs.ne_of_detached (hdet f hf) hp heq.symm
  refine (hsync.entry_iff e).trans ⟨?_, ?_⟩
  · rintro ⟨t, ht, hx, hp⟩
    rcases (hby.active _).mp hp with hp | ⟨hin, -⟩
    · exact .inl ((hs.entry_iff e).mpr ⟨t, (hby.other _ (hout hp)).symm.trans ht, hx, hp⟩)
    · obtain ⟨f, hf, heq, u, hu, hr, rfl⟩ := hby.restarted hdet ht hin
      refine .inr ⟨f, hf, heq, u, hu, hr, ?_⟩
      rw [← hx, Timer.restart, if_pos hr.1]
  · rintro (he | ⟨f, hf, heq, t, ht, hr, hx⟩)
    · obtain ⟨t, ht, hx, hp⟩ := (hs.entry_iff e).mp he
      exact ⟨t, (hby.other _ (hout hp)).trans ht, hx, (hby.active _).mpr (.inl hp)⟩
    · have hself := hby.self f hf t (heq ▸ ht)
      rw [heq, if_pos hr] at hself
      refine ⟨_, hself, ?_, (hby.active _).mpr (.inr ⟨heq ▸ List.mem_map_of_mem hf, _, hself, rfl⟩)⟩
      rw [Timer.restart, if_pos hr.1]
      exact hx

/-- `Rearms` by the set that the loop leaves. -/
theorem rearms_iff {T : OrdSet Entry}
    (hT : ∀ e, e ∈ T ↔ e ∈ s.timers ∨ ∃ f ∈ expired, f.timer = e.timer ∧ ∃ t,
      s.heap e.timer = some t ∧ Restarts s e.timer t ∧
        Timestamp.addTime now t.interval = e.expiration) :
    Rearms s expired now ↔ (∃ e, e ∈ T) ∧ ∀ e ∈ T, e.expiration ≠ Timestamp.invalid := by
  have hmem : ∀ f ∈ expired, ∀ t, s.heap f.timer = some t → Restarts s f.timer t →
      ⟨Timestamp.addTime now t.interval, f.timer⟩ ∈ T := fun f hf t ht hr =>
    (hT _).mpr (.inr ⟨f, hf, rfl, t, ht, hr, rfl⟩)
  refine ⟨fun h => ⟨?_, fun e he => ?_⟩, fun ⟨hne, hval⟩ => ⟨?_, fun e he => ?_, ?_⟩⟩
  · rcases h.nonempty with ⟨e, he⟩ | ⟨f, hf, t, ht, hr⟩
    · exact ⟨e, (hT e).mpr (.inl he)⟩
    · exact ⟨_, hmem f hf t ht hr⟩
  · rcases (hT e).mp he with he | ⟨f, hf, heq, t, ht, hr, hx⟩
    · exact h.timers e he
    · rw [← hx]
      exact h.restarts f hf t (heq ▸ ht) (heq ▸ hr)
  · obtain ⟨e, he⟩ := hne
    rcases (hT e).mp he with he | ⟨f, hf, heq, t, ht, hr, -⟩
    · exact .inl ⟨e, he⟩
    · exact .inr ⟨f, hf, t, heq ▸ ht, heq ▸ hr⟩
  · exact hval e ((hT e).mpr (.inl he))
  · intro f hf t ht hr
    exact hval _ (hmem f hf t ht hr)

omit [Seconds D] in
/-- The end of `reset` arms as it should exactly for a least expiration that is valid. -/
theorem arming_eq_iff {T : OrdSet Entry} {clock : ℕ} :
    (∀ fd, ∀ garbage < 2 ^ 64,
      (if Timestamp.valid (nextExpire T garbage) then
        some ⟨nextExpire T garbage, clock, detail.howMuchTimeFromNow (nextExpire T garbage) clock⟩
      else fd) = armingFor T clock fd) ↔
      (∃ e, e ∈ T) ∧ ∀ e ∈ T, e.expiration ≠ Timestamp.invalid := by
  cases hb : T.begin? with
  | none =>
    have hempty := OrdSet.begin?_eq_none.mp hb
    refine ⟨fun h => ?_, ?_⟩
    · -- the uninitialised variable may hold a valid time
      have hone := h none 1 (by decide)
      simp [armingFor, nextExpire, hb, Timestamp.valid] at hone
    · rintro ⟨⟨e, he⟩, -⟩
      exact absurd he (hempty e)
  | some m =>
    have hm := OrdSet.begin?_mem hb
    have hnext : ∀ garbage, nextExpire T garbage = m.expiration := fun garbage => by
      simp only [nextExpire, hb, Option.map_some, Option.getD_some]
    have harm : ∀ fd, armingFor T clock fd =
        some ⟨m.expiration, clock, detail.howMuchTimeFromNow m.expiration clock⟩ := fun fd => by
      simp only [armingFor, hb]
    refine ⟨fun h => ⟨⟨m, hm⟩, fun e he hinv => ?_⟩, ?_⟩
    · have hle := Entry.expiration_le (OrdSet.begin?_le hb he)
      have hm0 : m.expiration = 0 := by
        simp only [Timestamp.invalid] at hinv
        omega
      have hzero := h none 0 (by decide)
      rw [harm, hnext, if_neg (by simp [Timestamp.valid, hm0])] at hzero
      cases hzero
    · rintro ⟨-, hval⟩ fd garbage -
      have hpos := hval m hm
      simp only [Timestamp.invalid] at hpos
      rw [harm, hnext, if_pos (by simp [Timestamp.valid]; omega)]

/-- **When `reset` arms the timerfd for a timer that exists**: in every state reached at the end of a
batch, `reset` decides on initialised values only, and arms the timerfd exactly when `timers_` is
not empty, for its least expiration, if and only if a timer is left or restarts and no timer is at
the invalid time. -/
theorem reset_exact_iff (h : (machine D).Reach anyAction s)
    (hp : s.phase = .running now expired []) (clock : ℕ) :
    ResetExact s expired now clock ↔ Rearms s expired now := by
  have hi := reach_inv h
  have hnd : (expired.map Entry.timer).Nodup := batch_of_running hp ▸ hi.batch_nodup
  -- the loop leaves the same set whatever the timerfd was
  have hreset : ∃ T : OrdSet Entry, (Rearms s expired now ↔
      (∃ e, e ∈ T) ∧ ∀ e ∈ T, e.expiration ≠ Timestamp.invalid) ∧ ∀ fd garbage, ∃ t,
      { s with callingExpiredTimers := false, timerfd := fd }.reset expired now clock garbage =
        .ok t ∧ t.timers = T ∧ t.timerfd =
          if Timestamp.valid (nextExpire T garbage) then
            some ⟨nextExpire T garbage, clock,
              detail.howMuchTimeFromNow (nextExpire T garbage) clock⟩
          else fd := by
    have hspec := fun fd garbage => reset_spec
      (s := { s with callingExpiredTimers := false, timerfd := fd }) now clock garbage
      ⟨hi.synced.entry_iff, hi.synced.active_live, hi.synced.size_eq⟩ (hi.detached hp) hnd
    have hmem : ∀ {H T A}, Synced { s with heap := H, timers := T, activeTimers := A } →
        ResetBy now expired s H A → ∀ e, e ∈ T ↔ _ := fun hsync hby =>
      hby.mem_timers hi.synced (hi.detached hp) hsync
    obtain ⟨H, T, A, -, hsync, hby⟩ := hspec none 0
    have hT := hmem (H := H) (A := A) ⟨hsync.entry_iff, hsync.active_live, hsync.size_eq⟩
      ⟨hby.other, hby.self, hby.active⟩
    refine ⟨T, rearms_iff hT, fun fd garbage => ?_⟩
    obtain ⟨H', T', A', heq, hsync', hby'⟩ := hspec fd garbage
    have hT' := hmem (H := H') (A := A') ⟨hsync'.entry_iff, hsync'.active_live, hsync'.size_eq⟩
      ⟨hby'.other, hby'.self, hby'.active⟩
    obtain rfl : T' = T := OrdSet.ext_mem fun e => (hT' e).trans (hT e).symm
    exact ⟨_, heq, rfl, rfl⟩
  obtain ⟨T, hiff, hT⟩ := hreset
  rw [hiff, ← @arming_eq_iff T clock]
  refine ⟨fun ⟨T', h'⟩ fd garbage hg => ?_, fun h' => ⟨T, fun fd garbage hg => ?_⟩⟩
  · obtain ⟨t, heq, htimers, hfd⟩ := h' fd garbage hg
    obtain ⟨t', heq', htimers', hfd'⟩ := hT fd garbage
    obtain rfl : t = t' := Except.ok.inj (heq.symm.trans heq')
    rw [← hfd', hfd, ← htimers, htimers']
  · obtain ⟨t, heq, htimers, hfd⟩ := hT fd garbage
    exact ⟨t, heq, htimers, hfd.trans (h' fd garbage hg)⟩

/-- A timer at address 8 runs in a batch of its own. -/
def runsAlone (interval : ℕ) : List (Action ℕ) :=
  [.newTimer 8 100 interval, .addTimerInLoop 8 50, .handleRead 200 true, .run, .callbackReturns]

/-- It repeats, so it restarts. -/
theorem reset_exact_repeating : ∃ s : State ℕ, (machine ℕ).Reach anyAction s ∧
    s.phase = .running 200 [⟨100, 8⟩] [] ∧ ResetExact s [⟨100, 8⟩] 200 300 := by
  obtain ⟨s, hs, hp, htimers, hheap, hnoted⟩ : ∃ s : State ℕ,
      (machine ℕ).exec anyAction init (runsAlone 1) = some s ∧
        s.phase = .running 200 [⟨100, 8⟩] [] ∧ s.timers = .empty ∧
        s.heap 8 = some ⟨100, 1, true, 1⟩ ∧ s.cancelingTimers = .empty := ⟨_, rfl, rfl, rfl, rfl, rfl⟩
  have hr : (machine ℕ).Reach anyAction s := .of_exec (.init rfl) hs
  refine ⟨s, hr, hp, (reset_exact_iff hr hp 300).mpr ⟨.inr ?_, ?_, ?_⟩⟩
  · exact ⟨_, List.mem_cons_self, _, hheap, rfl, hnoted ▸ OrdSet.notMem_empty _⟩
  · rw [htimers]
    exact fun e he => absurd he (OrdSet.notMem_empty e)
  · intro e he t ht _
    obtain rfl := List.mem_singleton.mp he
    obtain rfl := Option.some.inj (hheap.symm.trans ht)
    decide

/-- It does not repeat, so no timer is left, and what the uninitialised variable holds decides. -/
theorem reset_garbage : ∃ s : State ℕ, (machine ℕ).Reach anyAction s ∧
    s.phase = .running 200 [⟨100, 8⟩] [] ∧ ¬ ResetExact s [⟨100, 8⟩] 200 300 := by
  obtain ⟨s, t, u, hs, hp, ht, htfd, hu, hufd⟩ : ∃ s t u : State ℕ,
      (machine ℕ).exec anyAction init (runsAlone 0) = some s ∧
        s.phase = .running 200 [⟨100, 8⟩] [] ∧
        { s with callingExpiredTimers := false, timerfd := none }.reset [⟨100, 8⟩] 200 300 0 =
          .ok t ∧ t.timerfd = none ∧
        { s with callingExpiredTimers := false, timerfd := none }.reset [⟨100, 8⟩] 200 300 1 =
          .ok u ∧ u.timerfd.isSome := ⟨_, _, _, rfl, rfl, rfl, rfl, rfl, rfl⟩
  refine ⟨s, .of_exec (.init rfl) hs, hp, ?_⟩
  rintro ⟨T, h⟩
  obtain ⟨t', ht', -, htfd'⟩ := h none 0 (by decide)
  obtain ⟨u', hu', -, hufd'⟩ := h none 1 (by decide)
  obtain rfl := Except.ok.inj (ht.symm.trans ht')
  obtain rfl := Except.ok.inj (hu.symm.trans hu')
  rw [hufd', ← htfd', htfd] at hufd
  cases hufd

end MengSen.TimerQueue

import MengSen.Net.TimerQueueInv

/-!
# Net.TimerQueueExpiry — which timers expire

A time asked for passes through `runAt`, `addTimer`, the constructor of `Timer`, `insert` and the
lower bound of a sentry.  All of them carry 64 bits but the constructor, whose parameter has 16.  So
a timer expires at the low 16 bits of its time: never late, and early whenever `now` lies between
the two.
-/

namespace MengSen.TimerQueue

variable {D : Type} [Seconds D] {s t : State D}

/-- Timers are created and added only. -/
def OnlyAdds (_ : State D) : Action D → Prop
  | .newTimer .. | .addTimerInLoop .. => True
  | _ => False

instance : ∀ (s : State D) (a : Action D), Decidable (OnlyAdds s a)
  | _, .newTimer .. | _, .addTimerInLoop .. => inferInstanceAs (Decidable True)
  | _, .cancelInLoop _ | _, .handleRead .. | _, .run | _, .callbackReturns | _, .reset .. =>
    inferInstanceAs (Decidable False)

/-- While timers are only added, they all live, and expire at the low bits of their times. -/
structure Adding (s : State D) : Prop where
  quiet : s.phase = .quiet
  expiration : ∀ a t, s.heap a = some t → t.expiration = Word.wrap 16 (s.asked t.sequence)
  created : ∀ n, 0 < n → n ≤ s.numCreated → ∃ a t, s.heap a = some t ∧ t.sequence = n

theorem Adding.step {a : Action D} (h : Adding s) (hi : Inv s) (ha : OnlyAdds s a)
    (he : Effect s a t) : Adding t := by
  cases he with
  | newTimer hdead hlt =>
    rename_i timer when interval
    refine ⟨h.quiet, fun b u hu => ?_, fun n hpos hn => ?_⟩
    · by_cases hb : b = timer
      · rw [hb] at hu
        obtain rfl : Timer.make when interval s.numCreated = u := by
          simpa only [Function.update_self, Option.some.injEq] using hu
        exact (congrArg (Word.wrap 16) (Function.update_self ..)).symm
      · have hu' : s.heap b = some u := (Function.update_of_ne hb ..).symm.trans hu
        have hle := hi.heap.sequence_le b u hu'
        have hne : u.sequence ≠ s.numCreated + 1 := by omega
        exact (h.expiration b u hu').trans
          (congrArg (Word.wrap 16) (Function.update_of_ne hne ..)).symm
    · by_cases hnew : n = s.numCreated + 1
      · exact ⟨timer, _, Function.update_self .., hnew.symm⟩
      · obtain ⟨b, u, hu, hseq⟩ := h.created n hpos (by simp only at hn; omega)
        have hb : b ≠ timer := by
          rintro rfl
          rw [hdead] at hu
          cases hu
        exact ⟨b, u, (Function.update_of_ne hb ..).trans hu, hseq⟩
  | add hcode hin ht hn => exact ⟨h.quiet, h.expiration, h.created⟩
  | _ => exact absurd ha id

theorem reach_adding (h : (machine D).Reach OnlyAdds s) : Adding s := by
  refine Machine.Reach.induct (I := Adding) ?_ ?_ h
  · rintro s rfl
    exact ⟨rfl, by simp [init], fun n hpos hn => by simp only [init] at hn; omega⟩
  · exact fun s a t hr hadd ha hs => hadd.step (reach_inv hr) ha ((reach_inv hr).step hs).2

/-- The timer with the number `n` is among the expired ones. -/
def Reported (s : State D) (expired : List Entry) (n : ℕ) : Prop :=
  ∃ e ∈ expired, ∃ t, s.heap e.timer = some t ∧ t.sequence = n

/-- **When timers fire for the time that was asked for**: after any timers were created and added,
in any order and by any threads, `getExpired now` returns exactly the timers asked for a time up to
`now` if and only if `now` is for no timer between the low 16 bits of its time and its time. -/
theorem getExpired_exact_iff (h : (machine D).Reach OnlyAdds s) (hall : s.unadded = []) (now : ℕ) :
    ∃ expired u, s.getExpired now = .ok (expired, u) ∧
      ((∀ n, 0 < n → n ≤ s.numCreated → (Reported s expired n ↔ s.asked n ≤ now)) ↔
        ∀ n, 0 < n → n ≤ s.numCreated →
          ¬ (Word.wrap 16 (s.asked n) ≤ now ∧ now < s.asked n)) := by
  have hi := reach_inv h
  have hadd := reach_adding h
  obtain ⟨expired, T, A, heq, -, hexp, -, -, -⟩ := getExpired_spec hi.synced hi.heap.addr_lt now
  have hreported : ∀ n, 0 < n → n ≤ s.numCreated →
      (Reported s expired n ↔ Word.wrap 16 (s.asked n) ≤ now) := by
    intro n hpos hn
    refine ⟨?_, ?_⟩
    · rintro ⟨e, he, t, ht, rfl⟩
      obtain ⟨hmem, hle⟩ := (hexp e).mp he
      obtain ⟨u, hu, hx, -⟩ := (hi.synced.entry_iff e).mp hmem
      rw [ht, Option.some.injEq] at hu
      rw [← hadd.expiration _ t ht, hu, hx]
      exact hle
    · intro hle
      obtain ⟨a, t, ht, rfl⟩ := hadd.created n hpos hn
      have hactive : (⟨a, t.sequence⟩ : ActiveTimer) ∈ s.activeTimers := by
        rcases hi.owned a t ht with hp | hp | hp
        · exact hp
        · rw [hall] at hp
          cases hp
        · rw [State.batch, hadd.quiet] at hp
          cases hp
      have hmem : (⟨t.expiration, a⟩ : Entry) ∈ s.timers :=
        (hi.synced.entry_iff _).mpr ⟨t, ht, rfl, hactive⟩
      rw [← hadd.expiration a t ht] at hle
      exact ⟨_, (hexp _).mpr ⟨hmem, hle⟩, t, ht, rfl⟩
  refine ⟨expired, _, heq, forall_congr' fun n => forall_congr' fun hpos => forall_congr' fun hn => ?_⟩
  have hle := Word.wrap_le (w := 16) (s.asked n)
  rw [hreported n hpos hn]
  omega

/-- Two timers for times below 2 ^ 16. -/
def smallTimes : List (Action ℕ) :=
  [.newTimer 8 100 0, .newTimer 16 300 1, .addTimerInLoop 16 50, .addTimerInLoop 8 60]

theorem getExpired_exact_smallTimes : ∃ s : State ℕ, (machine ℕ).Reach OnlyAdds s ∧
    ∃ expired u, s.getExpired 200 = .ok (expired, u) ∧
      (Reported s expired 1 ↔ 100 ≤ 200) ∧ (Reported s expired 2 ↔ 300 ≤ 200) := by
  obtain ⟨s, hs, hall, hnum, h1, h2⟩ : ∃ s : State ℕ,
      (machine ℕ).exec OnlyAdds init smallTimes = some s ∧ s.unadded = [] ∧ s.numCreated = 2 ∧
        s.asked 1 = 100 ∧ s.asked 2 = 300 := ⟨_, rfl, rfl, rfl, rfl, rfl⟩
  have hr : (machine ℕ).Reach OnlyAdds s := .of_exec (.init rfl) hs
  obtain ⟨expired, u, heq, hiff⟩ := getExpired_exact_iff hr hall 200
  have hexact := hiff.mpr (by
    intro n hpos hn
    obtain rfl | rfl : n = 1 ∨ n = 2 := by omega
    · rw [h1]
      decide
    · rw [h2]
      decide)
  have h1' := hexact 1 (by omega) (by omega)
  have h2' := hexact 2 (by omega) (by omega)
  rw [h1] at h1'
  rw [h2] at h2'
  exact ⟨s, hr, expired, u, heq, h1', h2'⟩

/-- A timer is asked for one second, in nanoseconds, after the present time. -/
def inOneSecond : List (Action ℕ) :=
  [.newTimer 8 1600000001000000000 0, .addTimerInLoop 8 1600000000000000000]

/-- It expires at once. -/
theorem getExpired_early : ∃ s : State ℕ, (machine ℕ).Reach OnlyAdds s ∧ s.unadded = [] ∧
    ∃ expired u, s.getExpired 1600000000000000000 = .ok (expired, u) ∧ Reported s expired 1 ∧
      ¬ s.asked 1 ≤ 1600000000000000000 := by
  obtain ⟨s, expired, u, t, hs, hall, heq, hasked, hexp, ht, hseq⟩ :
      ∃ (s : State ℕ) (expired : List Entry) (u : State ℕ) (t : Timer ℕ),
        (machine ℕ).exec OnlyAdds init inOneSecond = some s ∧ s.unadded = [] ∧
          s.getExpired 1600000000000000000 = .ok (expired, u) ∧
          s.asked 1 = 1600000001000000000 ∧ expired.map Entry.timer = [8] ∧
          s.heap 8 = some t ∧ t.sequence = 1 :=
    ⟨_, _, _, _, rfl, rfl, rfl, rfl, rfl, rfl, rfl⟩
  refine ⟨s, .of_exec (.init rfl) hs, hall, expired, u, heq, ?_, by omega⟩
  obtain ⟨e, he, h8⟩ := List.mem_map.mp (hexp ▸ List.mem_cons_self : 8 ∈ expired.map Entry.timer)
  exact ⟨e, he, t, h8 ▸ ht, hseq⟩

end MengSen.TimerQueue

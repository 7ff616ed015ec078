import MengSen.Log.RingBufferInStep
import Mathlib.Data.Nat.Prime.Basic
import Mathlib.Data.Nat.Factorization.Basic

/-!
# Log.RingBufferRuns — runs of any length

`InStep` is what the ring is for: `try_pop` returns the pushed lines in the order of their write
indexes.  It holds in every run before `2 ^ 32` lines are popped, and in all runs exactly when the size
of the ring divides `2 ^ 32` (`inStep`): for any other size, a run is given in which the reader returns
to slot 0 while the next line is in another slot.
-/

namespace MengSen.Log.RingBuffer

open Machine (check_bind)

variable {τ α : Type} [DecidableEq τ] {size n : ℕ} {s u : State τ α}

/-! ## In step -/

/-- No push is under way. -/
def Quiet (s : State τ α) : Prop := ∀ p, s.calls p = .idle

/-- The lines that `try_pop` returned are the first ones of those pushed; when it returns none, and no
push is under way, all of them were returned; and no step is undefined. -/
structure InStep (size : ℕ) (s : State τ α) : Prop where
  order : s.popped = (s.history.claimed.take s.popped.length).map some
  drained : Quiet s → (s.readItem size).written = false → s.popped = s.history.claimed.map some
  noFault : ∀ a, ¬ (machine τ α size).Faults s a

theorem not_faults (hsize : size ≠ 0) (a : Action τ α) : ¬ (machine τ α size).Faults s a := by
  rintro ⟨e, he⟩
  simp only [machine] at he
  cases a with
  | call p x =>
    simp only [act] at he
    split at he <;> cases he
  | fetchAdd p =>
    simp only [act] at he
    split at he
    · rw [check_bind _ hsize] at he
      cases he
    · cases he
  | write p =>
    simp only [act] at he
    split at he <;> cases he
  | tryPop =>
    simp only [act] at he
    rw [check_bind _ hsize] at he
    cases he

/-- While no push is under way, the next line is where the reader looks. -/
theorem Slots.readItem_written (h : Slots size s) (hc : Counts size s)
    (hsync : Synced size s) (hq : Quiet s) (hlt : s.popped.length < s.history.claimed.length) :
    (s.readItem size).written = true := by
  have hslot : s.readIndex % size = s.popped.length % size := by rw [hc.read, wrap_slot hsync]
  rw [State.readItem, hslot]
  rcases h.kept _ ⟨Nat.le_refl _, hlt⟩ with hw | ⟨p, l, hp⟩
  · exact hw
  · rw [hq p] at hp
    cases hp

/-- **The reader is in step** as long as its counter gives the slot of the next line. -/
theorem inStep_of_synced (hsize : size < 2 ^ 32) (hpos : size ≠ 0)
    (h : (machine τ α size).Reach (Fits size) s) (hsync : Synced size s) : InStep size s := by
  have hi := reach_inv hsize h
  have hslots := hi.slots (hsync.imp_right Nat.le_of_lt)
  refine ⟨hslots.order, fun hq hfree => ?_, not_faults hpos⟩
  have hge : s.history.claimed.length ≤ s.popped.length := by
    by_contra hlt
    rw [hslots.readItem_written hi.toCounts hsync hq (Nat.lt_of_not_le hlt)] at hfree
    cases hfree
  have horder := hslots.order
  rwa [List.take_of_length_le hge] at horder

omit [DecidableEq τ] in
theorem Broken.not_order (h : Broken s) (hlen : 2 ^ 32 < s.popped.length) :
    s.popped ≠ (s.history.claimed.take s.popped.length).map some := by
  obtain ⟨o, l, ho, hl, hne⟩ := h
  intro horder
  rw [horder, List.getElem?_map, List.getElem?_take_of_lt hlen, hl] at ho
  exact hne (Option.some.inj ho).symm

/-! ## A run of `2 ^ 32` lines and more -/

/-- A producer can push a line, while no push is under way and there is room. -/
theorem push_path (p : τ) (x : α) (hpos : size ≠ 0) (hq : Quiet s)
    (hroom : s.history.claimed.length < s.popped.length + size) :
    ∃ u, (machine τ α size).Path (Fits size) s u ∧ Quiet u ∧
      u.history.claimed.length = s.history.claimed.length + 1 ∧ u.popped = s.popped := by
  have hcall : (machine τ α size).Step s (.call p x)
      { s.setCall p (.entered (s.history.line p x)) with history := s.history.call p x } := by
    simp only [Machine.Step, machine, act, hq p]
  have hself : ∀ (t : State τ α) c, (t.setCall p c).calls p = c := fun t c => Function.update_self ..
  obtain ⟨t, ht⟩ : ∃ t, { s.setCall p (.entered (s.history.line p x)) with
      history := s.history.call p x } = t := ⟨_, rfl⟩
  rw [ht] at hcall
  have htp : t.calls p = .entered (s.history.line p x) := by rw [← ht]; exact hself s _
  have hadd : (machine τ α size).Step t (.fetchAdd p)
      { t.setCall p (.writing (t.writeIndex % size) (s.history.line p x)) with
        writeIndex := Word.add 64 t.writeIndex 1
        history := t.history.claim (s.history.line p x) } := by
    simp only [Machine.Step, machine, act, htp, check_bind _ hpos]
    rfl
  obtain ⟨v, hv⟩ : ∃ v, { t.setCall p (.writing (t.writeIndex % size) (s.history.line p x)) with
      writeIndex := Word.add 64 t.writeIndex 1
      history := t.history.claim (s.history.line p x) } = v := ⟨_, rfl⟩
  rw [hv] at hadd
  have hvp : v.calls p = .writing (t.writeIndex % size) (s.history.line p x) := by
    rw [← hv]
    exact hself t _
  have hwrite : (machine τ α size).Step v (.write p)
      ((v.write (t.writeIndex % size) (s.history.line p x)).setCall p .idle) := by
    simp only [Machine.Step, machine, act, hvp]
  have hfree : ∀ w, Fits size w (.call p x) ∧ Fits size w (.write p) := fun w => ⟨⟨⟩, ⟨⟩⟩
  refine ⟨_, .step (.step (.step .refl (hfree s).1 hcall) ?_ hadd) (hfree v).2 hwrite,
    fun q => ?_, ?_, ?_⟩
  · show t.history.claimed.length < t.popped.length + size
    rw [← ht]
    exact hroom
  · show Function.update v.calls p .idle q = .idle
    by_cases hqp : q = p
    · rw [hqp, Function.update_self]
    · rw [Function.update_of_ne hqp, ← hv, ← ht]
      show Function.update (Function.update s.calls p _) p _ q = _
      rw [Function.update_of_ne hqp, Function.update_of_ne hqp]
      exact hq q
  · show v.history.claimed.length = _
    rw [← hv, ← ht]
    exact List.length_append
  · show v.popped = _
    rw [← hv, ← ht]
    rfl

/-- The consumer can pop an item that is written. -/
theorem pop_path (hpos : size ≠ 0) (hw : (s.readItem size).written = true) :
    ∃ u, (machine τ α size).Path (Fits size) s u ∧ u.calls = s.calls ∧ u.history = s.history ∧
      u.popped.length = s.popped.length + 1 := by
  have hstep : (machine τ α size).Step s .tryPop (s.tryPop size) := by
    simp only [Machine.Step, machine, act, check_bind _ hpos]
    rfl
  have hfits : Fits size s .tryPop := ⟨⟩
  refine ⟨_, .single hfits hstep, ?_⟩
  rw [State.tryPop, if_pos hw]
  exact ⟨rfl, rfl, List.length_append⟩

/-- Lines are pushed and popped in turn. -/
theorem exists_balanced (p : τ) (x : α) (hsize : size < 2 ^ 32) (hpos : size ≠ 0) (hn : n ≤ 2 ^ 32) :
    ∃ s : State τ α, (machine τ α size).Reach (Fits size) s ∧ Quiet s ∧
      s.popped.length = n ∧ s.history.claimed.length = n := by
  induction n with
  | zero => exact ⟨init, .init rfl, fun _ => rfl, rfl, rfl⟩
  | succ n ih =>
    obtain ⟨s, hr, hq, hpopped, hclaimed⟩ := ih (Nat.le_of_succ_le hn)
    obtain ⟨t, ht, hqt, hclaimedt, hpoppedt⟩ := push_path p x hpos hq (by omega)
    have hrt := hr.path ht
    have hi := reach_inv hsize hrt
    have hsync : Synced size t := .inr (by rw [hpoppedt]; omega)
    have hw := (hi.slots (hsync.imp_right Nat.le_of_lt)).readItem_written hi.toCounts hsync hqt
      (by rw [hpoppedt]; omega)
    obtain ⟨u, hu, hcalls, hhistory, hlen⟩ := pop_path hpos hw
    refine ⟨u, hrt.path hu, fun q => by rw [hcalls]; exact hqt q, ?_, ?_⟩
    · rw [hlen, hpoppedt, hpopped]
    · rw [hhistory, hclaimedt, hclaimed]

/-- Lines are pushed behind the `2 ^ 32` ones. -/
theorem exists_filled (p : τ) (x : α) (hsize : size < 2 ^ 32) (hpos : size ≠ 0) (hn : n ≤ size) :
    ∃ s : State τ α, (machine τ α size).Reach (Fits size) s ∧ Quiet s ∧
      s.popped.length = 2 ^ 32 ∧ s.history.claimed.length = 2 ^ 32 + n := by
  induction n with
  | zero => exact exists_balanced p x hsize hpos (Nat.le_refl _)
  | succ n ih =>
    obtain ⟨s, hr, hq, hpopped, hclaimed⟩ := ih (Nat.le_of_succ_le hn)
    obtain ⟨t, ht, hqt, hclaimedt, hpoppedt⟩ := push_path p x hpos hq (by omega)
    refine ⟨t, hr.path ht, hqt, ?_, ?_⟩
    · rw [hpoppedt, hpopped]
    · rw [hclaimedt, hclaimed]
      rfl

/-- **The reader falls out of step** after `2 ^ 32` lines: a full ring then gives it a later line than
the next one. -/
theorem exists_overtaken (p : τ) (x : α) (hsize : size < 2 ^ 32) (hpos : size ≠ 0)
    (hdvd : ¬ size ∣ 2 ^ 32) : ∃ s : State τ α, (machine τ α size).Reach (Fits size) s ∧
      s.popped.length = 2 ^ 32 + 1 ∧
        s.popped ≠ (s.history.claimed.take s.popped.length).map some := by
  obtain ⟨s, hr, hq, hpopped, hclaimed⟩ := exists_filled p x hsize hpos (Nat.le_refl size)
  have hi := reach_inv hsize hr
  have hslots := hi.slots (.inr hpopped.le)
  -- slot 0 holds the line that comes `size - 2 ^ 32 % size` lines too early
  obtain ⟨n, hn⟩ : ∃ n, 2 ^ 32 + (size - 2 ^ 32 % size) = n := ⟨_, rfl⟩
  have hmod : 2 ^ 32 % size ≠ 0 := fun h => hdvd (Nat.dvd_of_mod_eq_zero h)
  have hlt : 2 ^ 32 % size < size := Nat.mod_lt _ (Nat.pos_of_ne_zero hpos)
  have hzero : n % size = 0 := by
    have hdiv := Nat.div_add_mod (2 ^ 32) size
    have hmul : n = size * (2 ^ 32 / size + 1) := by
      rw [Nat.mul_add, Nat.mul_one]
      omega
    rw [hmul, Nat.mul_mod_right]
  have hw : (s.readItem size).written = true := by
    have hslot : s.readIndex % size = n % size := by
      rw [hi.read, hpopped, Word.wrap, Nat.mod_self, Nat.zero_mod, hzero]
    rw [State.readItem, hslot]
    rcases hslots.kept n ⟨by omega, by omega⟩ with hw | ⟨q, l, hql⟩
    · exact hw
    · rw [hq q] at hql
      cases hql
  obtain ⟨u, hu, -, -, hlen⟩ := pop_path hpos hw
  have hru := hr.path hu
  rw [hpopped] at hlen
  have hbroken := (reach_inv hsize hru).broken hdvd (by omega)
  exact ⟨u, hru, hlen, hbroken.not_order (by omega)⟩

/-! ## The rings of `Logger` -/

theorem ringSize_lt (mb : ℕ) : ringSize mb < 2 ^ 32 := Word.wrap_lt _

/-- The size divides `2 ^ 32` when the number of megabytes is a power of two, in its low 20 bits. -/
theorem ringSize_dvd_iff (mb : ℕ) : ringSize mb ∣ 2 ^ 32 ↔ ∃ k, max 1 mb % 2 ^ 20 = 2 ^ k := by
  have hmul : ringSize mb = max 1 mb % 2 ^ 20 * 2 ^ 12 := by
    rw [ringSize, Word.wrap, Nat.mul_assoc]
    exact Nat.mul_mod_mul_right (2 ^ 12) (max 1 mb) (2 ^ 20)
  have hpow : 2 ^ 32 = 2 ^ 20 * 2 ^ 12 := rfl
  rw [hmul, hpow, Nat.mul_dvd_mul_iff_right (by norm_num), Nat.dvd_prime_pow Nat.prime_two]
  refine ⟨?_, ?_⟩
  · rintro ⟨k, -, hk⟩
    exact ⟨k, hk⟩
  · rintro ⟨k, hk⟩
    have hlt : 2 ^ k < 2 ^ 20 := hk ▸ Nat.mod_lt _ (by norm_num)
    exact ⟨k, Nat.le_of_lt ((Nat.pow_lt_pow_iff_right (by norm_num)).mp hlt), hk⟩

/-- **The reader stays in step** in every run before `2 ^ 32` lines are popped, and in all runs exactly
when the size of the ring divides `2 ^ 32`. -/
theorem inStep [Nonempty τ] [Nonempty α] (mb : ℕ) :
    (∀ s : State τ α, (machine τ α (ringSize mb)).Reach (Fits (ringSize mb)) s →
      ringSize mb ≠ 0 → s.popped.length < 2 ^ 32 → InStep (ringSize mb) s) ∧
    ((∀ s : State τ α, (machine τ α (ringSize mb)).Reach (Fits (ringSize mb)) s →
      InStep (ringSize mb) s) ↔ ringSize mb ∣ 2 ^ 32) := by
  have hsize := ringSize_lt mb
  refine ⟨fun s hr hpos hlt => inStep_of_synced hsize hpos hr (.inr hlt), fun hall => ?_, ?_⟩
  · by_contra hdvd
    by_cases hpos : ringSize mb = 0
    · have hfault : (machine τ α (ringSize mb)).Faults init .tryPop := by
        refine ⟨.divisionByZero, ?_⟩
        simp only [machine, act, hpos]
        rfl
      exact (hall init (.init rfl)).noFault _ hfault
    · obtain ⟨p⟩ := ‹Nonempty τ›
      obtain ⟨x⟩ := ‹Nonempty α›
      obtain ⟨s, hr, -, hnot⟩ := exists_overtaken p x hsize hpos hdvd
      exact hnot (hall s hr).order
  · intro hdvd s hr
    have hpos : ringSize mb ≠ 0 := by
      intro hzero
      rw [hzero] at hdvd
      exact absurd (Nat.eq_zero_of_zero_dvd hdvd) (by norm_num)
    exact inStep_of_synced hsize hpos hr (.inl hdvd)

/-- With one megabyte, after `2 ^ 32` lines. -/
theorem inStep_oneMegabyte : ∃ s : State Unit Unit,
    (machine Unit Unit (ringSize 1)).Reach (Fits (ringSize 1)) s ∧
      s.popped.length = 2 ^ 32 ∧ InStep (ringSize 1) s := by
  have hdvd : ringSize 1 ∣ 2 ^ 32 := (ringSize_dvd_iff 1).mpr ⟨0, rfl⟩
  obtain ⟨s, hr, -, hpopped, -⟩ := exists_balanced () () (ringSize_lt 1)
    (Nat.pos_of_dvd_of_pos hdvd (by norm_num)).ne' (Nat.le_refl (2 ^ 32))
  exact ⟨s, hr, hpopped, (inStep 1).2.mpr hdvd s hr⟩

/-- With three megabytes and one producer, the line after `2 ^ 32` others is a wrong one. -/
theorem threeMegabytes_overtaken : ringSize 3 = 12288 ∧
    ∃ s : State Unit Unit, (machine Unit Unit (ringSize 3)).Reach (Fits (ringSize 3)) s ∧
      s.popped.length = 2 ^ 32 + 1 ∧
        s.popped ≠ (s.history.claimed.take s.popped.length).map some := by
  have hsize : ringSize 3 = 12288 := rfl
  refine ⟨hsize, exists_overtaken () () (ringSize_lt 3) ?_ ?_⟩
  · rw [hsize]
    decide
  · rw [hsize]
    decide

end MengSen.Log.RingBuffer

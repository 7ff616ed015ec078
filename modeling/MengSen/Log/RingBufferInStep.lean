import MengSen.Log.RingBuffer

/-!
# Log.RingBufferInStep — when the reader stays in step with the writers

`Counts`: what the counters are, in every state.  `Slots`: where each line is that has a write index
and was not popped, as long as the counter of the reader agrees with it modulo the size of the ring.
The reader is in step before `2 ^ 32` lines are popped, and for ever if the size divides `2 ^ 32`
(`Synced`); otherwise the line after these is a wrong one (`Broken`).
-/

namespace MengSen.Log.RingBuffer

/-! ## Slots -/

/-- Two indexes less than `size` apart have different slots. -/
theorem eq_of_slot_eq {size a m n : ℕ} (hm : a ≤ m) (hm' : m < a + size) (hn : a ≤ n)
    (hn' : n < a + size) (h : m % size = n % size) : m = n := by
  rcases Nat.le_total m n with hle | hle
  · have hdvd : size ∣ n - m := Nat.dvd_of_mod_eq_zero (Nat.sub_mod_eq_zero_of_mod_eq h.symm)
    have hzero := Nat.eq_zero_of_dvd_of_lt hdvd (by omega)
    omega
  · have hdvd : size ∣ m - n := Nat.dvd_of_mod_eq_zero (Nat.sub_mod_eq_zero_of_mod_eq h)
    have hzero := Nat.eq_zero_of_dvd_of_lt hdvd (by omega)
    omega

/-- A counter of `w` bits gives the slot of the number it counts. -/
theorem wrap_slot {w size n : ℕ} (h : size ∣ 2 ^ w ∨ n < 2 ^ w) : Word.wrap w n % size = n % size := by
  rcases h with hdvd | hlt
  · exact Nat.mod_mod_of_dvd n hdvd
  · rw [Word.wrap_of_lt hlt]

theorem wrap_add_one {w n : ℕ} : Word.add w (Word.wrap w n) 1 = Word.wrap w (n + 1) :=
  Nat.mod_add_mod n (2 ^ w) 1

variable {τ α : Type} [DecidableEq τ] {size i n : ℕ} {s u : State τ α} {p q : τ} {c d : Call τ α}
  {l m : LogLine τ α} {x : α}

/-! ## The counters -/

/-- The line of a producer without a write index. -/
def Call.waiting : Call τ α → Option (LogLine τ α)
  | .entered l => some l
  | .idle | .writing .. => none

structure Counts (size : ℕ) (s : State τ α) : Prop where
  legal : s.history.Legal fun p => (s.calls p).waiting
  capacity : s.history.claimed.length ≤ s.popped.length + size
  write : s.writeIndex = Word.wrap 64 s.history.claimed.length
  read : s.readIndex = Word.wrap 32 s.popped.length

theorem update_eq (h : Function.update s.calls p c q = d) :
    q = p ∧ c = d ∨ q ≠ p ∧ s.calls q = d := by
  by_cases hq : q = p
  · subst hq
    rw [Function.update_self] at h
    exact .inl ⟨rfl, h⟩
  · rw [Function.update_of_ne hq] at h
    exact .inr ⟨hq, h⟩

theorem waiting_update : (fun q => (Function.update s.calls p c q).waiting) =
    Function.update (fun q => (s.calls q).waiting) p c.waiting := by
  funext q
  exact Function.apply_update (fun _ => Call.waiting) s.calls p c q

theorem init_counts : Counts size (init : State τ α) where
  legal := History.legal_empty fun _ => rfl
  capacity := Nat.zero_le _
  write := rfl
  read := rfl

theorem legal_step {a : Action τ α} (h : s.history.Legal fun p => (s.calls p).waiting)
    (hs : (machine τ α size).Step s a u) : u.history.Legal fun p => (u.calls p).waiting := by
  cases effect hs with
  | @call p x hp =>
    show History.Legal (fun q => (Function.update s.calls p _ q).waiting) _
    rw [waiting_update]
    exact h.call (by rw [hp]; rfl)
  | @fetchAdd p l hp =>
    show History.Legal (fun q => (Function.update s.calls p _ q).waiting) _
    rw [waiting_update]
    exact h.claim (by rw [hp]; rfl)
  | @write p i l hp =>
    refine h.congr fun q => ?_
    show (Function.update s.calls p _ q).waiting = _
    by_cases hq : q = p
    · rw [hq, Function.update_self, hp]
      rfl
    · rw [Function.update_of_ne hq]
  | pop hw => exact h
  | miss hw => exact h

/-- **Step lemma** for the counters. -/
theorem Counts.step {a : Action τ α} (h : Counts size s) (hfits : Fits size s a)
    (hs : (machine τ α size).Step s a u) : Counts size u := by
  have hlegal := legal_step h.legal hs
  cases effect hs with
  | call hp => exact ⟨hlegal, h.capacity, h.write, h.read⟩
  | @fetchAdd p l hp =>
    refine ⟨hlegal, ?_, ?_, h.read⟩
    · show (s.history.claimed ++ [l]).length ≤ _
      rw [List.length_append]
      exact hfits
    · show Word.add 64 s.writeIndex 1 = Word.wrap 64 (s.history.claimed ++ [l]).length
      rw [h.write, wrap_add_one, List.length_append]
      rfl
  | write hp => exact ⟨hlegal, h.capacity, h.write, h.read⟩
  | pop hw =>
    refine ⟨h.legal, ?_, h.write, ?_⟩
    · have hcap := h.capacity
      show s.history.claimed.length ≤ (s.popped ++ [_]).length + size
      rw [List.length_append]
      omega
    · show Word.add 32 s.readIndex 1 = Word.wrap 32 (s.popped ++ [_]).length
      rw [h.read, wrap_add_one, List.length_append]
      rfl
  | miss hw => exact h

/-! ## The lines that are not popped -/

/-- The `n`-th line pushed was not popped. -/
def Open (s : State τ α) (n : ℕ) : Prop := s.popped.length ≤ n ∧ n < s.history.claimed.length

/-- Each open line is in its slot, or its producer is about to write it there. -/
structure Slots (size : ℕ) (s : State τ α) : Prop where
  order : s.popped = (s.history.claimed.take s.popped.length).map some
  writing : ∀ p i l, s.calls p = .writing i l →
    (s.ring i).written = false ∧ ∃ n, Open s n ∧ i = n % size ∧ s.history.claimed[n]? = some l
  alone : ∀ p q i l m, s.calls p = .writing i l → s.calls q = .writing i m → p = q
  stored : ∀ i, (s.ring i).written = true →
    ∃ n, Open s n ∧ i = n % size ∧ (s.ring i).logline = s.history.claimed[n]?
  kept : ∀ n, Open s n →
    (s.ring (n % size)).written = true ∨ ∃ p l, s.calls p = .writing (n % size) l

/-- The slot of the reader is that of the line it is to pop. -/
def Synced (size : ℕ) (s : State τ α) : Prop := size ∣ 2 ^ 32 ∨ s.popped.length < 2 ^ 32

omit [DecidableEq τ] in
theorem init_slots : Slots size (init : State τ α) where
  order := rfl
  writing p i l h := by cases h
  alone p q i l m h := by cases h
  stored i h := by cases h
  kept n h := absurd h.2 (Nat.not_lt_zero n)

namespace Slots

variable (h : Slots size s)

include h

omit [DecidableEq τ] in
theorem popped_le : s.popped.length ≤ s.history.claimed.length := by
  have hlen := congrArg List.length h.order
  rw [List.length_map, List.length_take] at hlen
  omega

omit [DecidableEq τ] in
/-- The slot of an index that is still to be taken is free. -/
theorem slot_ne (hfits : s.history.claimed.length < s.popped.length + size) (hn : Open s n) :
    s.history.claimed.length % size ≠ n % size := by
  intro heq
  have hle := h.popped_le
  obtain ⟨hge, hlt⟩ := hn
  have hsame := eq_of_slot_eq hle hfits hge (by omega) heq
  omega

/-- A producer calls `push`. -/
theorem call (hp : s.calls p = .idle) (hring : u.ring = s.ring)
    (hcalls : u.calls = Function.update s.calls p (.entered l))
    (hclaimed : u.history.claimed = s.history.claimed) (hpopped : u.popped = s.popped) :
    Slots size u := by
  have hopen : ∀ n, Open u n ↔ Open s n := fun n => by rw [Open, Open, hclaimed, hpopped]
  have hwriting : ∀ q j m, u.calls q = .writing j m ↔ s.calls q = .writing j m := by
    intro q j m
    rw [hcalls]
    by_cases hq : q = p
    · simp [hq, hp]
    · rw [Function.update_of_ne hq]
  refine ⟨by rw [hpopped, hclaimed]; exact h.order, ?_, ?_, ?_, ?_⟩
  · simpa only [hwriting, hopen, hclaimed, hring] using h.writing
  · simpa only [hwriting] using h.alone
  · simpa only [hopen, hclaimed, hring] using h.stored
  · simpa only [hwriting, hopen, hring] using h.kept

/-- A producer takes the next write index. -/
theorem fetchAdd (hfits : s.history.claimed.length < s.popped.length + size)
    (hp : s.calls p = .entered l) (hi : i = s.history.claimed.length % size)
    (hring : u.ring = s.ring) (hcalls : u.calls = Function.update s.calls p (.writing i l))
    (hclaimed : u.history.claimed = s.history.claimed ++ [l]) (hpopped : u.popped = s.popped) :
    Slots size u := by
  have hold : ∀ n, Open s n → Open u n ∧ u.history.claimed[n]? = s.history.claimed[n]? := by
    intro n hn
    refine ⟨⟨hpopped ▸ hn.1, ?_⟩, ?_⟩
    · rw [hclaimed, List.length_append]
      exact Nat.lt_add_right 1 hn.2
    · rw [hclaimed, List.getElem?_append_left hn.2]
  refine ⟨?_, ?_, ?_, ?_, ?_⟩
  · rw [hpopped, hclaimed, List.take_append_of_le_length h.popped_le]
    exact h.order
  · intro q j m hq
    rw [hcalls] at hq
    rw [hring]
    rcases update_eq hq with ⟨-, hnew⟩ | ⟨-, hq⟩
    · obtain ⟨rfl, rfl⟩ := Call.writing.inj hnew
      refine ⟨?_, s.history.claimed.length, ⟨hpopped ▸ h.popped_le, ?_⟩, hi, ?_⟩
      · by_contra hw
        rw [Bool.not_eq_false] at hw
        obtain ⟨n, hn, hslot, -⟩ := h.stored i hw
        exact h.slot_ne hfits hn (hi.symm.trans hslot)
      · rw [hclaimed, List.length_append]
        exact Nat.lt_succ_self _
      · rw [hclaimed, List.getElem?_concat_length]
    · obtain ⟨hfree, n, hn, hslot, hl⟩ := h.writing q j m hq
      exact ⟨hfree, n, (hold n hn).1, hslot, (hold n hn).2.trans hl⟩
  · have hother : ∀ q m, s.calls q ≠ .writing i m := by
      intro q m hq
      obtain ⟨-, n, hn, hslot, -⟩ := h.writing q i m hq
      exact h.slot_ne hfits hn (hi.symm.trans hslot)
    intro q r j m k hq hr
    rw [hcalls] at hq hr
    rcases update_eq hq with ⟨rfl, hnew⟩ | ⟨-, hqold⟩
    · obtain ⟨rfl, rfl⟩ := Call.writing.inj hnew
      rcases update_eq hr with ⟨rfl, -⟩ | ⟨-, hrold⟩
      · rfl
      · exact absurd hrold (hother r k)
    · rcases update_eq hr with ⟨rfl, hnew⟩ | ⟨-, hrold⟩
      · obtain ⟨rfl, rfl⟩ := Call.writing.inj hnew
        exact absurd hqold (hother q m)
      · exact h.alone q r j m k hqold hrold
  · intro j hw
    rw [hring] at hw ⊢
    obtain ⟨n, hn, hslot, hl⟩ := h.stored j hw
    exact ⟨n, (hold n hn).1, hslot, hl.trans (hold n hn).2.symm⟩
  · intro n hn
    rw [hring, hcalls]
    obtain ⟨hge, hlt⟩ := hn
    rw [hpopped] at hge
    rw [hclaimed, List.length_append, List.length_singleton] at hlt
    rcases Nat.lt_succ_iff_lt_or_eq.mp hlt with hlt | rfl
    · rcases h.kept n ⟨hge, hlt⟩ with hw | ⟨q, m, hq⟩
      · exact .inl hw
      · have hqp : q ≠ p := by
          rintro rfl
          rw [hp] at hq
          cases hq
        exact .inr ⟨q, m, by rw [Function.update_of_ne hqp]; exact hq⟩
    · exact .inr ⟨p, l, by rw [Function.update_self, hi]⟩

/-- A producer writes its line. -/
theorem write (hp : s.calls p = .writing i l)
    (hring : u.ring = Function.update s.ring i ⟨true, some l⟩)
    (hcalls : u.calls = Function.update s.calls p .idle) (hhistory : u.history = s.history)
    (hpopped : u.popped = s.popped) : Slots size u := by
  have hopen : ∀ n, Open u n ↔ Open s n := fun n => by rw [Open, Open, hhistory, hpopped]
  obtain ⟨-, k, hk, hik, hl⟩ := h.writing p i l hp
  refine ⟨by rw [hpopped, hhistory]; exact h.order, ?_, ?_, ?_, ?_⟩
  · intro q j m hq
    rw [hcalls] at hq
    rcases update_eq hq with ⟨-, hnew⟩ | ⟨hqp, hq⟩
    · cases hnew
    · have hji : j ≠ i := by
        rintro rfl
        exact hqp (h.alone q p j m l hq hp)
      rw [hring, Function.update_of_ne hji]
      simp only [hopen, hhistory]
      exact h.writing q j m hq
  · intro q r j m k hq hr
    rw [hcalls] at hq hr
    rcases update_eq hq with ⟨-, hnew⟩ | ⟨-, hq⟩
    · cases hnew
    · rcases update_eq hr with ⟨-, hnew⟩ | ⟨-, hr⟩
      · cases hnew
      · exact h.alone q r j m k hq hr
  · intro j hw
    simp only [hopen, hhistory]
    rw [hring] at hw ⊢
    by_cases hji : j = i
    · subst hji
      exact ⟨k, hk, hik, by rw [Function.update_self, hl]⟩
    · rw [Function.update_of_ne hji] at hw ⊢
      exact h.stored j hw
  · intro n hn
    rw [hopen] at hn
    rw [hring, hcalls]
    by_cases hni : n % size = i
    · rw [hni, Function.update_self]
      exact .inl rfl
    · rw [Function.update_of_ne hni]
      rcases h.kept n hn with hw | ⟨q, m, hq⟩
      · exact .inl hw
      · have hqp : q ≠ p := by
          rintro rfl
          rw [hp] at hq
          exact hni (Call.writing.inj hq).1.symm
        exact .inr ⟨q, m, by rw [Function.update_of_ne hqp]; exact hq⟩

/-- In step, the item that `try_pop` finds written is the next line. -/
theorem readItem_eq (hc : Counts size s) (hsync : Synced size s)
    (hw : (s.readItem size).written = true) :
    s.popped.length < s.history.claimed.length ∧
      s.readIndex % size = s.popped.length % size ∧
      (s.readItem size).logline = s.history.claimed[s.popped.length]? := by
  have hslot : s.readIndex % size = s.popped.length % size := by rw [hc.read, wrap_slot hsync]
  obtain ⟨n, hn, hmod, hl⟩ := h.stored _ hw
  obtain rfl : n = s.popped.length := by
    have hcap := hc.capacity
    obtain ⟨hge, hlt⟩ := hn
    exact eq_of_slot_eq hge (by omega) (Nat.le_refl _) (by omega) (hmod.symm.trans hslot)
  exact ⟨hn.2, hslot, hl⟩

/-- The consumer pops the next line. -/
theorem tryPop (hc : Counts size s) (hsync : Synced size s)
    (hw : (s.readItem size).written = true)
    (hring : u.ring = Function.update s.ring (s.readIndex % size) ⟨false, none⟩)
    (hcalls : u.calls = s.calls) (hhistory : u.history = s.history)
    (hpopped : u.popped = s.popped ++ [(s.readItem size).logline]) : Slots size u := by
  obtain ⟨hlt, hslot, hl⟩ := h.readItem_eq hc hsync hw
  have hw' : (s.ring (s.popped.length % size)).written = true := hslot ▸ hw
  have hlen : u.popped.length = s.popped.length + 1 := by rw [hpopped, List.length_append]; rfl
  rw [hslot] at hring
  have hopen : ∀ n, Open u n ↔ Open s n ∧ n ≠ s.popped.length := by
    intro n
    unfold Open
    rw [hlen, hhistory]
    omega
  -- no other open line has this slot
  have hother : ∀ n, Open s n → n ≠ s.popped.length → n % size ≠ s.popped.length % size := by
    intro n hn hne heq
    have hcap := hc.capacity
    obtain ⟨hge, hn⟩ := hn
    exact hne (eq_of_slot_eq hge (by omega) (Nat.le_refl _) (by omega) heq)
  refine ⟨?_, ?_, ?_, ?_, ?_⟩
  · rw [hlen, hpopped, hhistory, List.take_add_one, List.map_append, ← h.order, hl,
      List.getElem?_eq_getElem hlt]
    rfl
  · intro p j l hp
    rw [hcalls] at hp
    obtain ⟨hfree, n, hn, hj, hline⟩ := h.writing p j l hp
    have hne : j ≠ s.popped.length % size := by
      rintro rfl
      rw [hw'] at hfree
      cases hfree
    rw [hring, Function.update_of_ne hne]
    refine ⟨hfree, n, (hopen n).mpr ⟨hn, ?_⟩, hj, by rw [hhistory]; exact hline⟩
    rintro rfl
    exact hne hj
  · intro p q j l m hp hq
    rw [hcalls] at hp hq
    exact h.alone p q j l m hp hq
  · intro j hj
    rw [hring] at hj ⊢
    by_cases hne : j = s.popped.length % size
    · rw [hne, Function.update_self] at hj
      cases hj
    · rw [Function.update_of_ne hne] at hj ⊢
      obtain ⟨n, hn, hjn, hline⟩ := h.stored j hj
      refine ⟨n, (hopen n).mpr ⟨hn, ?_⟩, hjn, by rw [hhistory]; exact hline⟩
      rintro rfl
      exact hne hjn
  · intro n hn
    obtain ⟨hn, hne⟩ := (hopen n).mp hn
    rw [hring, hcalls, Function.update_of_ne (hother n hn hne)]
    exact h.kept n hn

end Slots

/-! ## Out of step -/

/-- The line popped after `2 ^ 32` others is not the one that was pushed after `2 ^ 32` others. -/
def Broken (s : State τ α) : Prop :=
  ∃ o l, s.popped[2 ^ 32]? = some o ∧ s.history.claimed[2 ^ 32]? = some l ∧ o ≠ some l

omit [DecidableEq τ] in
theorem Broken.mono {xs : List (Option (LogLine τ α))} {ls : List (LogLine τ α)} (h : Broken s)
    (hpopped : u.popped = s.popped ++ xs) (hclaimed : u.history.claimed = s.history.claimed ++ ls) :
    Broken u := by
  obtain ⟨o, l, ho, hl, hne⟩ := h
  refine ⟨o, l, ?_, ?_, hne⟩
  · rw [hpopped]
    exact List.getElem?_append_left (List.getElem?_eq_some_iff.mp ho).1 ▸ ho
  · rw [hclaimed]
    exact List.getElem?_append_left (List.getElem?_eq_some_iff.mp hl).1 ▸ hl

/-- After `2 ^ 32` lines the reader is at slot 0, where the next line is not. -/
theorem Slots.broken (h : Slots size s) (hc : Counts size s) (hsize : ¬ size ∣ 2 ^ 32)
    (hlen : s.popped.length = 2 ^ 32) (hw : (s.readItem size).written = true)
    (hhistory : u.history = s.history)
    (hpopped : u.popped = s.popped ++ [(s.readItem size).logline]) : Broken u := by
  obtain ⟨n, ⟨hge, hlt⟩, hmod, hl⟩ := h.stored _ hw
  have hzero : s.readIndex % size = 0 := by
    rw [hc.read, hlen, Word.wrap, Nat.mod_self, Nat.zero_mod]
  have hne : n ≠ 2 ^ 32 := by
    rintro rfl
    exact hsize (Nat.dvd_of_mod_eq_zero (hmod.symm.trans hzero))
  have hnext : 2 ^ 32 < s.history.claimed.length := by omega
  refine ⟨(s.readItem size).logline, s.history.claimed[2 ^ 32], ?_, ?_, ?_⟩
  · rw [hpopped, ← hlen]
    exact List.getElem?_concat_length
  · rw [hhistory]
    exact List.getElem?_eq_getElem hnext
  · intro heq
    rw [State.readItem, hl, ← List.getElem?_eq_getElem hnext] at heq
    exact hne ((List.getElem?_inj hlt hc.legal.nodup_claimed).mp heq)

/-! ## Runs -/

/-- The reader is in step for `2 ^ 32` lines at least. -/
structure Inv (size : ℕ) (s : State τ α) : Prop extends Counts size s where
  slots : size ∣ 2 ^ 32 ∨ s.popped.length ≤ 2 ^ 32 → Slots size s
  broken : ¬ size ∣ 2 ^ 32 → 2 ^ 32 < s.popped.length → Broken s

theorem init_inv : Inv size (init : State τ α) where
  toCounts := init_counts
  slots _ := init_slots
  broken _ h := absurd h (Nat.not_lt_zero _)

/-- The slot that `fetch_add` gives is that of the next line. -/
theorem Counts.writeIndex_slot (h : Counts size s) (hsize : size < 2 ^ 32)
    (hsync : size ∣ 2 ^ 32 ∨ s.popped.length ≤ 2 ^ 32) :
    s.writeIndex % size = s.history.claimed.length % size := by
  rw [h.write]
  refine wrap_slot (hsync.imp ?_ ?_)
  · intro hdvd
    exact hdvd.trans (pow_dvd_pow 2 (by decide))
  · intro hle
    have hcap := h.capacity
    omega

/-- **Step lemma**: every step that keeps the lines within the size of the ring. -/
theorem Inv.step {a : Action τ α} (hsize : size < 2 ^ 32) (h : Inv size s) (hfits : Fits size s a)
    (hs : (machine τ α size).Step s a u) : Inv size u := by
  have hcounts := h.toCounts.step hfits hs
  cases effect hs with
  | call hp => exact ⟨hcounts, fun hle => (h.slots hle).call hp rfl rfl rfl rfl, h.broken⟩
  | fetchAdd hp =>
    refine ⟨hcounts, fun hle => ?_, fun hdvd hlt => ?_⟩
    · exact (h.slots hle).fetchAdd hfits hp (h.writeIndex_slot hsize hle) rfl rfl rfl rfl
    · exact (h.broken hdvd hlt).mono (List.append_nil _).symm rfl
  | write hp => exact ⟨hcounts, fun hle => (h.slots hle).write hp rfl rfl rfl rfl, h.broken⟩
  | pop hw =>
    have hlen : (s.popped ++ [(s.readItem size).logline]).length = s.popped.length + 1 := by
      rw [List.length_append]
      rfl
    refine ⟨hcounts, fun hle => ?_, fun hdvd hlt => ?_⟩
    · have hsync : Synced size s := hle.imp_right fun hle => by
        have hsucc : (s.popped ++ [(s.readItem size).logline]).length ≤ 2 ^ 32 := hle
        rw [hlen] at hsucc
        exact hsucc
      have hslots := h.slots (hsync.imp_right Nat.le_of_lt)
      exact hslots.tryPop h.toCounts hsync hw rfl rfl rfl rfl
    · have hsucc : 2 ^ 32 < (s.popped ++ [(s.readItem size).logline]).length := hlt
      rw [hlen] at hsucc
      have hge : 2 ^ 32 ≤ s.popped.length := Nat.le_of_lt_succ hsucc
      rcases Nat.eq_or_lt_of_le hge with heq | hlt
      · exact (h.slots (.inr heq.symm.le)).broken h.toCounts hdvd heq.symm hw rfl rfl
      · exact (h.broken hdvd hlt).mono rfl (List.append_nil _).symm
  | miss hw => exact h

/-- **Run lemma**: the invariant holds of every state reached. -/
theorem reach_inv (hsize : size < 2 ^ 32) (h : (machine τ α size).Reach (Fits size) s) :
    Inv size s := by
  refine Machine.Reach.induct ?_ ?_ h
  · rintro s rfl
    exact init_inv
  · intro s a u _ hi hfits hs
    exact hi.step hsize hfits hs

end MengSen.Log.RingBuffer

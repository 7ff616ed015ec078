import MengSen.Log.LoggerFlush
import MengSen.Log.RingBufferRuns

/-!
# Log.LoggerRing — the ring as a buffer of the logger

`RingBuffer` with one more ghost, the lines that a `push` has written over.  No line is lost in any run,
also when the ring is full or its reader out of step: it was popped or written over, or it is in a slot
(`Kept`).
-/

namespace MengSen.Log.RingBuffer

variable {τ α : Type}

/-- The line of the call under way. -/
def Call.line : Call τ α → Option (LogLine τ α)
  | .idle => none
  | .entered l | .writing _ l => some l

/-- The line is in a slot that `try_pop` has still to find. -/
def Stored (s : State τ α) (l : LogLine τ α) : Prop :=
  ∃ i, (s.ring i).written = true ∧ (s.ring i).logline = some l

/-- The line that the step writes over. -/
def lost (s : State τ α) : Action τ α → List (Option (LogLine τ α))
  | .write p =>
    match s.calls p with
    | .writing i _ => if (s.ring i).written then [(s.ring i).logline] else []
    | _ => []
  | _ => []

structure Ledger (τ α : Type) where
  buffer : State τ α
  overwritten : List (Option (LogLine τ α))

variable [DecidableEq τ]

def base (τ α : Type) [DecidableEq τ] (size : ℕ) : BufferBase τ α where
  State := Ledger τ α
  Action := Action τ α
  Fault := Fault
  machine :=
    { init s := s = ⟨init, []⟩
      act s a := (act size s.buffer a).map fun r =>
        r.map fun t => ⟨t, s.overwritten ++ lost s.buffer a⟩ }
  Ok _ _ := True
  isPop
    | .tryPop => true
    | _ => false
  result s
    | .tryPop => some (s.buffer.readItem size).written
    | _ => none
  out s := s.buffer.popped
  Returned s := s.buffer.history.Returned fun p => (s.buffer.calls p).line
  Stored s := Stored s.buffer
  Overwritten s l := some l ∈ s.overwritten

variable {size i : ℕ} {s u : State τ α} {b c : Ledger τ α} {a : Action τ α} {p q : τ}
  {d : Call τ α} {l m : LogLine τ α}

/-- A step of the ring, and the line it writes over. -/
theorem base_step (h : (base τ α size).machine.Step b a c) :
    (machine τ α size).Step b.buffer a c.buffer ∧ c.overwritten = b.overwritten ++ lost b.buffer a := by
  obtain ⟨r, hr, heq⟩ := Option.map_eq_some_iff.mp h
  cases r with
  | error e => cases heq
  | ok t =>
    obtain rfl := Except.ok.inj heq
    exact ⟨hr, rfl⟩

/-! ## The calls under way -/

theorem line_update (h : (Function.update s.calls p d q).line = some l) :
    q = p ∧ d.line = some l ∨ q ≠ p ∧ (s.calls q).line = some l := by
  rcases update_eq (s := s) (d := Function.update s.calls p d q) rfl with ⟨hq, hd⟩ | ⟨hq, hd⟩
  · exact .inl ⟨hq, hd ▸ h⟩
  · exact .inr ⟨hq, hd ▸ h⟩

/-- The calls stay, and a line that gets under way is that of a new call. -/
theorem step_calls (hs : (machine τ α size).Step s a u) :
    (∀ q, s.history.calls q ⊆ u.history.calls q) ∧
      ∀ q m, (u.calls q).line = some m → (s.calls q).line = some m ∨ ∃ x, s.history.line q x = m := by
  cases effect hs with
  | @call p x hp =>
    refine ⟨s.history.subset_call p x, fun q m hm => ?_⟩
    rcases line_update hm with ⟨rfl, hl⟩ | ⟨-, hold⟩
    · exact .inr ⟨x, Option.some.inj hl⟩
    · exact .inl hold
  | @fetchAdd p l hp =>
    refine ⟨fun q => List.Subset.refl _, fun q m hm => .inl ?_⟩
    rcases line_update hm with ⟨rfl, hl⟩ | ⟨-, hold⟩
    · rw [hp]
      exact hl
    · exact hold
  | write hp =>
    refine ⟨fun q => List.Subset.refl _, fun q m hm => .inl ?_⟩
    rcases line_update (s := s) hm with ⟨-, hl⟩ | ⟨-, hold⟩
    · cases hl
    · exact hold
  | pop hw => exact ⟨fun q => List.Subset.refl _, fun q m hm => .inl hm⟩
  | miss hw => exact ⟨fun q => List.Subset.refl _, fun q m hm => .inl hm⟩

/-! ## Where the lines are -/

/-- The line was popped or written over, or it is in a slot. -/
def Found (b : Ledger τ α) (l : LogLine τ α) : Prop :=
  some l ∈ b.buffer.popped ∨ Stored b.buffer l ∨ some l ∈ b.overwritten

structure Kept (b : Ledger τ α) : Prop where
  legal : b.buffer.history.Legal fun p => (b.buffer.calls p).waiting
  found : ∀ p, ∀ l ∈ b.buffer.history.calls p, (b.buffer.calls p).line = some l ∨ Found b l

omit [DecidableEq τ] in
theorem Found.congr {ls : List (Option (LogLine τ α))} (h : Found b l) (hring : u.ring = b.buffer.ring)
    (hpopped : u.popped = b.buffer.popped) (hlost : ls = []) : Found ⟨u, b.overwritten ++ ls⟩ l := by
  unfold Found Stored
  rw [hring, hpopped, hlost, List.append_nil]
  exact h

/-- A producer writes its line: the line that was in the slot is written over. -/
theorem Found.write {ls : List (Option (LogLine τ α))} (hp : s.calls p = .writing i l)
    (h : Found ⟨s, ls⟩ m) : Found ⟨(s.write i l).setCall p .idle, ls ++ lost s (.write p)⟩ m := by
  rcases h with hpopped | ⟨j, hw, hm⟩ | hlost
  · exact .inl hpopped
  · by_cases hj : j = i
    · subst hj
      refine .inr (.inr (List.mem_append_right _ ?_))
      have hslot : lost s (.write p) = [(s.ring j).logline] := by
        simp only [lost, hp]
        exact if_pos hw
      have hmem : some m ∈ [(s.ring j).logline] := List.mem_singleton.mpr hm.symm
      exact hslot ▸ hmem
    · refine .inr (.inl ⟨j, ?_⟩)
      show (Function.update s.ring i _ j).written = true ∧ (Function.update s.ring i _ j).logline = _
      rw [Function.update_of_ne hj]
      exact ⟨hw, hm⟩
  · exact .inr (.inr (List.mem_append_left _ hlost))

omit [DecidableEq τ] in
/-- The consumer takes the line of its slot. -/
theorem Found.pop {ls : List (Option (LogLine τ α))} (h : Found ⟨s, ls⟩ m)
    (hring : u.ring = Function.update s.ring (s.readIndex % size) ⟨false, none⟩)
    (hpopped : u.popped = s.popped ++ [(s.readItem size).logline]) : Found ⟨u, ls⟩ m := by
  rcases h with hold | ⟨j, hw, hm⟩ | hlost
  · refine .inl ?_
    rw [hpopped]
    exact List.mem_append_left _ hold
  · by_cases hj : j = s.readIndex % size
    · subst hj
      refine .inl ?_
      rw [hpopped, State.readItem, hm]
      exact List.mem_append_right _ (List.mem_singleton_self _)
    · refine .inr (.inl ⟨j, ?_⟩)
      rw [hring, Function.update_of_ne hj]
      exact ⟨hw, hm⟩
  · exact .inr (.inr hlost)

/-- **Step lemma**: no line is lost. -/
theorem Kept.step (h : Kept b) (hs : (base τ α size).machine.Step b a c) : Kept c := by
  obtain ⟨hs, hlost⟩ := base_step hs
  refine ⟨legal_step h.legal hs, ?_⟩
  obtain ⟨t, ls⟩ := c
  obtain rfl : ls = b.overwritten ++ lost b.buffer a := hlost
  cases effect hs with
  | @call p x hp =>
    intro q l hl
    show (Function.update b.buffer.calls p _ q).line = some l ∨ _
    by_cases hq : q = p
    · subst hq
      have hmem : l ∈ b.buffer.history.calls q ++ [b.buffer.history.line q x] := by
        simpa [History.call] using hl
      rcases List.mem_append.mp hmem with hold | hnew
      · rcases h.found q l hold with hline | hfound
        · rw [hp] at hline
          cases hline
        · exact .inr (hfound.congr rfl rfl rfl)
      · rw [Function.update_self, List.mem_singleton.mp hnew]
        exact .inl rfl
    · have hold : l ∈ b.buffer.history.calls q := by
        simpa [History.call, Function.update_of_ne hq] using hl
      rw [Function.update_of_ne hq]
      exact (h.found q l hold).imp_right fun hfound => hfound.congr rfl rfl rfl
  | @fetchAdd p l hp =>
    intro q m hm
    show (Function.update b.buffer.calls p _ q).line = some m ∨ _
    refine (h.found q m hm).imp (fun hline => ?_) fun hfound => hfound.congr rfl rfl rfl
    by_cases hq : q = p
    · rw [hq, hp] at hline
      rw [hq, Function.update_self]
      exact hline
    · rw [Function.update_of_ne hq]
      exact hline
  | @write p i l hp =>
    intro q m hm
    show (Function.update b.buffer.calls p _ q).line = some m ∨ _
    rcases h.found q m hm with hline | hfound
    · by_cases hq : q = p
      · rw [hq, hp] at hline
        obtain rfl := Option.some.inj hline
        refine .inr (.inr (.inl ⟨i, ?_⟩))
        show (Function.update b.buffer.ring i _ i).written = true ∧ _
        rw [Function.update_self]
        exact ⟨rfl, congrArg Item.logline (Function.update_self i _ b.buffer.ring)⟩
      · rw [Function.update_of_ne hq]
        exact .inl hline
    · exact .inr (hfound.write hp)
  | pop hw =>
    intro q m hm
    refine (h.found q m hm).imp_right fun hfound => ?_
    rw [show lost b.buffer Action.tryPop = [] from rfl, List.append_nil]
    exact hfound.pop rfl rfl
  | miss hw =>
    intro q m hm
    exact (h.found q m hm).imp_right fun hfound => hfound.congr rfl rfl rfl

/-- **Run lemma**: no line is lost. -/
theorem base_kept (h : (base τ α size).machine.Reach (base τ α size).Ok b) : Kept b := by
  refine Machine.Reach.induct ?_ ?_ h
  · rintro s rfl
    exact ⟨History.legal_empty fun _ => rfl, fun p l hl => by cases hl⟩
  · intro s a u _ hi _ hs
    exact hi.step hs

/-! ## The laws -/

/-- A producer pops nothing. -/
theorem popped_push (hs : (machine τ α size).Step s a u) (ha : (base τ α size).isPop a = false) :
    u.popped = s.popped := by
  cases effect hs with
  | call _ | fetchAdd _ | write _ => rfl
  | pop _ | miss _ => cases ha

/-- `try_pop` puts out a line if it finds its slot written. -/
theorem popped_pop (hs : (machine τ α size).Step s a u) (ha : (base τ α size).isPop a = true) :
    a = .tryPop ∧ u.popped =
      if (s.readItem size).written then s.popped ++ [(s.readItem size).logline] else s.popped := by
  cases effect hs with
  | pop hw =>
    rw [if_pos hw]
    exact ⟨rfl, rfl⟩
  | miss hw =>
    rw [hw]
    exact ⟨rfl, rfl⟩
  | call _ | fetchAdd _ | write _ => cases ha

/-- **The ring** is a buffer of the logger, whatever its size. -/
theorem base_lawful (size : ℕ) : (base τ α size).Lawful where
  init b hb := by
    obtain rfl := hb
    rfl
  push b a c _ _ hs ha := popped_push (base_step hs).1 ha
  inside b a c _ _ hs ha hres := by
    obtain ⟨rfl, -⟩ := popped_pop (base_step hs).1 ha
    cases hres
  took b a c _ _ hs ha hres := by
    obtain ⟨rfl, hc⟩ := popped_pop (base_step hs).1 ha
    have hw : (b.buffer.readItem size).written = true := Option.some.inj hres
    rw [if_pos hw] at hc
    exact ⟨(b.buffer.readItem size).logline, hc⟩
  empty b a c hr _ hs ha hres := by
    obtain ⟨rfl, hc⟩ := popped_pop (base_step hs).1 ha
    have hfree : (b.buffer.readItem size).written = false := Option.some.inj hres
    rw [hfree] at hc
    refine ⟨hc, fun l hl => ?_⟩
    obtain ⟨p, hmem, hne⟩ := hl
    rcases ((base_kept hr).found p l hmem).resolve_left hne with hpopped | hstored | hlost
    · exact .inl (.inl hpopped)
    · exact .inr hstored
    · exact .inl (.inr hlost)
  returned b a c hr _ hs l hl := by
    obtain ⟨hcalls, hline⟩ := step_calls (base_step hs).1
    exact hl.mono (base_kept hr).legal hcalls hline
  overwritten b a c hs l hl := by
    show some l ∈ c.overwritten
    rw [(base_step hs).2]
    exact List.mem_append_left _ hl
  enabled b := ⟨.tryPop, rfl, Option.some_ne_none _⟩

/-! ## The end of the last loop -/

/-- **Nothing is left** where `try_pop` finds its slot unwritten, no push is under way and the reader is
in step. -/
theorem not_stored_of_quiet (hsize : size < 2 ^ 32) (h : (machine τ α size).Reach (Fits size) s)
    (hsync : Synced size s) (hq : Quiet s) (hw : (s.readItem size).written = false) :
    ¬ Stored s l := by
  have hi := reach_inv hsize h
  have hslots := hi.slots (hsync.imp_right Nat.le_of_lt)
  have hall : s.history.claimed.length ≤ s.popped.length := by
    by_contra hlt
    rw [hslots.readItem_written hi.toCounts hsync hq (Nat.lt_of_not_le hlt)] at hw
    cases hw
  rintro ⟨i, hwritten, -⟩
  obtain ⟨n, ⟨hge, hlt⟩, -⟩ := hslots.stored i hwritten
  omega

/-- A run of the ring that the logger writes to. -/
theorem reach_buffer {ok : State τ α → Action τ α → Prop}
    (h : (base τ α size).machine.Reach (fun (b : Ledger τ α) a => ok b.buffer a) b) :
    (machine τ α size).Reach ok b.buffer :=
  Machine.Reach.map Ledger.buffer (fun _ hb => congrArg Ledger.buffer hb)
    (fun _ _ _ _ hok hs => .single hok (base_step hs).1) h

/-- What the last loop leaves behind in a quiet ring whose reader is in step. -/
theorem base_quiet (hsize : size < 2 ^ 32)
    (h : (base τ α size).machine.Reach (fun (b : Ledger τ α) a => Fits size b.buffer a) b)
    (hs : (base τ α size).machine.Step b a c) (ha : (base τ α size).isPop a = true)
    (hres : (base τ α size).result b a = some false)
    (hquiet : Quiet b.buffer ∧ Synced size b.buffer) : ¬ Stored b.buffer l := by
  obtain ⟨rfl, -⟩ := popped_pop (base_step hs).1 ha
  exact not_stored_of_quiet hsize (reach_buffer h) hquiet.2 hquiet.1 (Option.some.inj hres)

end MengSen.Log.RingBuffer

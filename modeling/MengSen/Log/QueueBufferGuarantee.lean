import MengSen.Log.QueueBufferPush
import MengSen.Log.QueueBufferPop

/-!
# Log.QueueBufferGuarantee — what the guaranteed logger guarantees

`Ok` is what a run must meet: `_write_index` does not wrap, `_current_read_buffer` is null when it is
read unset, and no buffer is popped from the queue before its last slot is counted.  In such runs lines
are popped at most once and in the order of each producer, none is lost, and no destroyed buffer is
accessed (`guaranteed`); but the first `try_pop` always reads a member that was not set.  A buffer that
is popped too early is accessed by the producer that still has to count (`retired_early_faults`).
-/

namespace MengSen.Log.QueueBuffer

open Machine (check_bind guarded_eq)

variable {τ α : Type} [DecidableEq τ] {s u : State τ α} {e f b i : ℕ} {l : LogLine τ α} {p : τ}
  {garbage : Option ℕ}

/-! ## Runs -/

/-- All slots of the buffer at the front of the queue are counted. -/
def FrontCounted (s : State τ α) : Prop :=
  ∀ b ∈ s.buffers.head?, (s.heap b).count = Buffer.size

def Ok (s : State τ α) : Action τ α → Prop
  | .fetchAddIndex _ => s.writeIndex + 1 < 2 ^ 32
  | .tryPop => s.readAssigned = true ∨ s.currentRead = none
  | .retire => FrontCounted s
  | _ => True

instance (s : State τ α) : (a : Action τ α) → Decidable (Ok s a)
  | .fetchAddIndex _ => inferInstanceAs (Decidable (s.writeIndex + 1 < 2 ^ 32))
  | .tryPop => inferInstanceAs (Decidable (s.readAssigned = true ∨ s.currentRead = none))
  | .retire => inferInstanceAs (Decidable (∀ b ∈ s.buffers.head?, (s.heap b).count = Buffer.size))
  | .call .. | .retry _ | .loadBuffer _ | .place _ | .store _ | .fetchAddCount _ | .switch _
  | .publish _ | .fetch | .look | .move => inferInstanceAs (Decidable True)

omit [DecidableEq τ] in
theorem init_heap (b : ℕ) : (init garbage : State τ α).heap b = .fresh := by
  show Function.update (fun _ => Buffer.fresh) 0 Buffer.fresh b = _
  rw [Function.update_eq_self (0 : ℕ) (fun _ => (Buffer.fresh : Buffer τ α))]

theorem init_inv : Inv (init garbage : State τ α) 0 0 := by
  have hzero : ticket 0 0 = 0 := Nat.zero_mul _
  refine ⟨⟨fun _ => trivial, ?_, ?_, ?_, ?_, .inl ⟨rfl, fun _ => rfl⟩, ⟨0, rfl, rfl⟩⟩,
    ⟨History.legal_empty fun _ => rfl, ?_⟩, ⟨?_, ?_, ?_⟩,
    ⟨rfl, ⟨⟨hzero.symm, size_pos⟩, fun _ => rfl, ?_⟩, rfl, Nat.zero_le _, ?_, ?_⟩, ⟨?_, ?_, ?_⟩⟩
  · rw [init_heap]
    exact .init fun _ => rfl
  · show 0 = ticket 0 (min 0 Buffer.size)
    rw [Nat.zero_min, hzero]
  · intro b hb
    exact absurd hb (Nat.not_lt_zero b)
  · intro p q hp
    cases hp
  · intro p l hl
    cases hl
  · intro b i hw
    rw [init_heap] at hw
    cases hw
  · intro b i hw
    rw [init_heap] at hw
    cases hw
  · intro b i _ hlt
    exact absurd hlt (Nat.not_lt_zero _)
  · intro hassigned
    cases hassigned
  · intro hf
    exact absurd hf (Nat.succ_ne_zero 0).symm
  · intro b
    show Function.update (fun _ => false) 0 true b = true ↔ 0 ≤ b ∧ b < 1
    by_cases hb : b = 0
    · rw [hb, Function.update_self]
      simp
    · rw [Function.update_of_ne hb]
      simp only [Bool.false_eq_true, false_iff]
      omega
  · refine iff_of_false ?_ (not_not_intro rfl)
    intro hunset
    cases hunset
  · intro hassigned
    cases hassigned
  · intro hbusy
    exact absurd rfl hbusy

/-- **Step lemma**: every step of a run that meets `Ok`. -/
theorem Inv.step {a : Action τ α} (h : Inv s f e) (hok : Ok s a)
    (hs : (machine τ α garbage).Step s a u) : ∃ f' e', Inv u f' e' := by
  cases effect hs with
  | call hp => exact ⟨f, e, h.call hp⟩
  | fetchAddIndex hp hlt => exact ⟨f, e, h.fetchAddIndex hp hlt⟩
  | fetchAddIndex_full hp hle => exact ⟨f, e, h.fetchAddIndex_full hp hle hok⟩
  | retry hp => exact ⟨f, e, h.retry hp⟩
  | loadBuffer hp hb => exact ⟨f, e, h.loadBuffer hp hb⟩
  | place hp => exact ⟨f, e, h.place hp⟩
  | store hp => exact ⟨f, e, h.store hp⟩
  | fetchAddCount hp => exact ⟨f, e, h.fetchAddCount hp⟩
  | switch hp => exact ⟨f, e, h.switch hp⟩
  | publish hp => exact ⟨f, e + 1, h.publish hp⟩
  | tryPop hr => exact ⟨f, e, h.tryPop hr hok⟩
  | fetch hr => exact ⟨f, e, h.fetch hr⟩
  | look hr => exact ⟨f, e, h.look hr⟩
  | move hr hitem => exact ⟨f, e, h.move hr hitem⟩
  | @retire b rest hr hb =>
    have hfull : (s.heap b).count = Buffer.size := hok b (by rw [hb]; rfl)
    exact ⟨f + 1, e, h.retire hr hb hfull⟩

/-- **Run lemma**: the invariant holds of every state reached. -/
theorem reach_inv (h : (machine τ α garbage).Reach Ok s) : ∃ f e, Inv s f e := by
  refine Machine.Reach.induct (I := fun s => ∃ f e, Inv s f e) ?_ ?_ h
  · rintro s rfl
    exact ⟨0, 0, init_inv⟩
  · rintro s a u _ ⟨f, e, hi⟩ hok hs
    exact hi.step hok hs

/-! ## The guarantee -/

/-- A producer in a slot works in a buffer that is not destroyed. -/
theorem Inv.live_of_producing {p : τ} {b i : ℕ} {l : LogLine τ α} (h : Inv s f e)
    (hp : s.calls p = .placing b i l ∨ s.calls p = .storing b i l ∨ s.calls p = .counting b i l) :
    s.live b = true := by
  have hok := h.producers.ok p
  rcases hp with hp | hp | hp
  all_goals
    rw [hp] at hok
    obtain ⟨rfl, -, -⟩ := hok
    exact h.consumer.live_of_slot h.producers (i := i) (by rw [hp]; rfl)

/-- So does the consumer. -/
theorem Inv.live_of_reading {b : ℕ} (h : Inv s f e) (hr : s.reader = .looking b ∨ s.reader = .moving b) :
    s.live b = true := by
  have hok := h.consumer.reader
  rcases hr with hr | hr
  all_goals
    rw [hr] at hok
    obtain ⟨rfl, hf, -⟩ := hok
    refine (h.consumer.live b).mpr ⟨Nat.le_refl b, ?_⟩
    rcases h.producers.allocated with ⟨heq, -⟩ | ⟨heq, -⟩
    · omega
    · omega

/-- No step is undefined. -/
theorem Inv.not_faults (h : Inv s f e) (a : Action τ α) : ¬ (machine τ α garbage).Faults s a := by
  rintro ⟨err, he⟩
  simp only [machine] at he
  cases a with
  | call p x =>
    simp only [act] at he
    split at he <;> cases he
  | fetchAddIndex p =>
    simp only [act] at he
    split at he
    · split at he <;> cases he
    · cases he
  | retry p =>
    simp only [act] at he
    split at he
    · obtain ⟨-, heq⟩ := guarded_eq.mp he
      cases heq
    · cases he
  | loadBuffer p =>
    simp only [act] at he
    split at he
    · cases he
    · next hnull =>
      obtain ⟨b, hb, -⟩ := h.producers.current
      rw [hnull] at hb
      cases hb
    · cases he
  | place p =>
    simp only [act] at he
    split at he
    · next b i l hp =>
      rw [check_bind _ (h.live_of_producing (.inl hp))] at he
      cases he
    · cases he
  | store p =>
    simp only [act] at he
    split at he
    · next b i l hp =>
      rw [check_bind _ (h.live_of_producing (.inr (.inl hp)))] at he
      cases he
    · cases he
  | fetchAddCount p =>
    simp only [act] at he
    split at he
    · next b i l hp =>
      rw [check_bind _ (h.live_of_producing (.inr (.inr hp)))] at he
      cases he
    · cases he
  | switch p =>
    simp only [act] at he
    split at he <;> cases he
  | publish p =>
    simp only [act] at he
    split at he <;> cases he
  | tryPop =>
    simp only [act] at he
    split at he <;> cases he
  | fetch =>
    simp only [act] at he
    split at he <;> cases he
  | look =>
    simp only [act] at he
    split at he
    · next b hr =>
      rw [check_bind _ (h.live_of_reading (.inl hr))] at he
      cases he
    · cases he
  | move =>
    simp only [act] at he
    split at he
    · next b hr =>
      obtain ⟨l, hitem, -⟩ := h.item hr
      rw [check_bind _ (h.live_of_reading (.inr hr)), hitem] at he
      cases he
    · cases he
  | retire =>
    simp only [act] at he
    split at he
    · cases he
    · next hr hb =>
      have hok := h.consumer.reader
      rw [hr] at hok
      have hf : f ≤ e := hok.1
      rcases h.consumer.head with ⟨-, hfe⟩ | ⟨hhead, -⟩
      · omega
      · rw [hb] at hhead
        cases hhead
    · cases he

/-- The line is in a buffer of the queue. -/
def Stored (s : State τ α) (l : LogLine τ α) : Prop :=
  ∃ b ∈ s.buffers, s.live b = true ∧
    ∃ i, (s.heap b).written i = true ∧ (s.heap b).items i = some l

/-- Lines are popped at most once and in the order in which their producers pushed them; a line whose
`push` has returned was popped, or is in a buffer of the queue; no step is undefined, so that no thread
accesses a destroyed buffer. -/
structure Guarantee (s : State τ α) : Prop where
  once : s.popped.Nodup
  ordered : ∀ p, s.popped.filter (fun l => l.producer = p) <+: s.history.calls p
  kept : ∀ p, ∀ l ∈ s.history.calls p, (s.calls p).line ≠ some l → l ∈ s.popped ∨ Stored s l
  noFault : ∀ a, ¬ (machine τ α none).Faults s a

theorem Inv.guarantee (h : Inv s f e) : Guarantee s := by
  have hext : s.popped <+: s.history.claimed := by
    rw [h.consumer.order]
    exact List.take_prefix _ _
  refine ⟨hext.sublist.nodup h.journal.legal.nodup_claimed, h.journal.legal.prefix_calls hext,
    fun p l hl hreturned => ?_, h.not_faults⟩
  obtain ⟨b, i, howns, hw⟩ := h.journal.returned p l hl hreturned
  have hlt := (List.getElem?_eq_some_iff.mp howns.line).1
  rcases Nat.lt_or_ge (ticket b i) s.popped.length with hpopped | hopen
  · left
    have hget := howns.line
    obtain ⟨ls, hls⟩ := hext
    rw [← hls, List.getElem?_append_left hpopped] at hget
    exact List.mem_of_getElem? hget
  · right
    have hbe : b < e + 1 := lt_of_ticket_lt (Nat.lt_of_lt_of_le hlt h.producers.claimed_le)
    have hfb : f ≤ b := by
      by_contra hbf
      have hle : ticket f 0 ≤ s.popped.length := h.consumer.popped_ge
      have hbelow : ticket b i < ticket f 0 := ticket_lt_ticket howns.lt (Nat.lt_of_not_le hbf)
      omega
    refine ⟨b, ?_, ?_, i, hw, (h.content.items b i hw hopen).trans howns.line⟩
    · rw [h.consumer.buffers, List.mem_range'_1]
      omega
    · refine (h.consumer.live b).mpr ⟨hfb, ?_⟩
      rcases h.producers.allocated with ⟨heq, -⟩ | ⟨heq, -⟩
      · omega
      · omega

/-- **The guarantee holds** in runs that meet `Ok`, but for the member that is read before it is set:
that is so as soon as `try_pop` is called. -/
theorem guaranteed (h : (machine τ α garbage).Reach Ok s) :
    Guarantee s ∧ (s.readUnset = true ↔ s.popCalls ≠ 0) := by
  obtain ⟨f, e, hi⟩ := reach_inv h
  exact ⟨hi.guarantee, hi.unset.called⟩

/-- The producer with the second slot is faster; the consumer waits for the first slot. -/
def secondSlotFirst : List (Action Bool ℕ) :=
  [.call true 7, .call false 8, .fetchAddIndex true, .fetchAddIndex false, .loadBuffer false,
    .place false, .store false, .tryPop, .fetch, .look, .fetchAddCount false, .loadBuffer true,
    .place true, .store true, .tryPop, .look, .move, .tryPop, .look, .move, .fetchAddCount true]

theorem guaranteed_secondSlotFirst : ∃ s : State Bool ℕ, (machine Bool ℕ none).Reach Ok s ∧
    s.popped = [⟨true, 0, 7⟩, ⟨false, 0, 8⟩] ∧ s.readUnset = true ∧ Guarantee s := by
  obtain ⟨s, hs, hpopped, hcalls⟩ : ∃ s : State Bool ℕ,
      (machine Bool ℕ none).exec Ok (init none) secondSlotFirst = some s ∧
        s.popped = [⟨true, 0, 7⟩, ⟨false, 0, 8⟩] ∧ s.popCalls = 3 := ⟨_, rfl, rfl, rfl⟩
  have hr : (machine Bool ℕ none).Reach Ok s := .of_exec (.init rfl) hs
  obtain ⟨hguarantee, hunset⟩ := guaranteed hr
  refine ⟨s, hr, hpopped, hunset.mpr ?_, hguarantee⟩
  rw [hcalls]
  decide

end MengSen.Log.QueueBuffer

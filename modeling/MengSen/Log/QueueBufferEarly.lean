import MengSen.Log.QueueBufferGuarantee

/-!
# Log.QueueBufferEarly — a buffer that is popped too early

`Buffer::push` marks its slot before it counts it, so that the consumer may pop the last line of a
buffer, and then the buffer, while a producer is between the two.  This producer then accesses a
destroyed buffer (`retired_early_faults`), and such runs exist (`exists_dead_access`): one producer and
the consumer take turns, up to the last slot.
-/

namespace MengSen.Log.QueueBuffer

open Machine (check_bind anyAction)

variable {τ α : Type} [DecidableEq τ] {s u : State τ α} {b n : ℕ} {l : LogLine τ α} {p : τ} {x : α}
  {g : Option ℕ}

/-! ## The condition is sharp -/

/-- **A buffer that is popped before its slots are counted is accessed afterwards**, by a producer that
has still to count its slot. -/
theorem retired_early_faults (h : (machine τ α g).Reach Ok s)
    (hs : (machine τ α g).Step s .retire u) (hearly : ¬ FrontCounted s) :
    ∃ p, (machine τ α g).Faults u (.fetchAddCount p) := by
  obtain ⟨f, e, hi⟩ := reach_inv h
  cases effect hs with
  | @retire b rest hr hb =>
    have hok := hi.consumer.reader
    rw [hr] at hok
    obtain ⟨hf, hlen, -⟩ := hok
    obtain rfl : b = f := by
      rcases hi.consumer.head with ⟨-, hfe⟩ | ⟨hhead, -⟩
      · omega
      · rw [hb] at hhead
        exact Option.some.inj hhead
    have hcount : (s.heap b).count ≠ Buffer.size := by
      intro hfull
      refine hearly fun d hd => ?_
      rw [hb] at hd
      obtain rfl := Option.some.inj hd
      exact hfull
    obtain rfl : b = e := by
      by_contra hne
      exact hcount (hi.producers.older b (Nat.lt_of_le_of_ne hf hne))
    -- all slots were given away, and one of them is not counted
    have hmin : min s.writeIndex Buffer.size = Buffer.size := by
      have hle := congrArg List.length hi.consumer.order
      rw [List.length_take, hi.producers.length, hlen, ← ticket_size] at hle
      unfold ticket at hle
      omega
    have hlt : (s.heap b).count < min s.writeIndex Buffer.size := by
      obtain ⟨is, -, his⟩ := hi.producers.slots.counted
      omega
    obtain ⟨p, i, hp⟩ := hi.producers.slots.exists_slot hlt
    have hsize := (hi.producers.slots.below p i hp).2
    have hw : (s.heap b).written i = true := by
      refine hi.content.popped b i hsize ?_
      rw [hlen]
      exact ticket_lt_ticket hsize (Nat.lt_succ_self b)
    have hprod := hi.producers.ok p
    refine ⟨p, .deadBuffer, ?_⟩
    cases hc : s.calls p with
    | counting d j l =>
      rw [hc] at hprod
      obtain ⟨rfl, -, -⟩ := hprod
      have hdead : (s.retire d rest).live d = false := Function.update_self ..
      have hcall : (s.retire d rest).calls p = .counting d j l := hc
      simp only [machine, act, hcall, hdead]
      rfl
    | indexed j l =>
      rw [hc] at hp hprod
      obtain rfl := Option.some.inj hp
      rw [hprod.2] at hw
      cases hw
    | placing d j l =>
      rw [hc] at hp hprod
      obtain rfl := Option.some.inj hp
      rw [hprod.2.2] at hw
      cases hw
    | storing d j l =>
      rw [hc] at hp hprod
      obtain rfl := Option.some.inj hp
      rw [hprod.2.2.1] at hw
      cases hw
    | idle | entered _ | spinning _ | switching _ | publishing _ _ =>
      rw [hc] at hp
      cases hp

/-! ## A run that gets there -/

/-- A call of `push`, up to the count. -/
theorem exec_push (hp : s.calls p = .idle) (hlt : s.writeIndex < Buffer.size)
    (hb : s.currentWrite = some b) (hlive : s.live b = true) :
    (machine τ α g).exec Ok s
        [.call p x, .fetchAddIndex p, .loadBuffer p, .place p, .store p] =
      some { s with
        calls := Function.update s.calls p (.counting b s.writeIndex (s.history.line p x))
        heap := Function.update s.heap b
          (((s.heap b).place s.writeIndex (s.history.line p x)).store s.writeIndex)
        writeIndex := Word.add 32 s.writeIndex 1
        history := (s.history.call p x).claim (s.history.line p x) } := by
  have hwrap : s.writeIndex + 1 < 2 ^ 32 := by
    have hsize := size_lt
    omega
  simp only [Machine.exec, Ok, machine, act, hp, State.setCall, State.setBuffer, if_true, hwrap, hlt,
    hb, Function.update_self, Function.update_idem, check_bind _ hlive, Machine.pure_eq_ok]

/-- A call of `try_pop` that finds a line. -/
theorem exec_pop (hr : s.reader = .idle) (hset : s.readAssigned = true)
    (hcur : s.currentRead = some b) (hlive : s.live b = true)
    (hw : (s.heap b).written s.readIndex = true) (hitem : (s.heap b).items s.readIndex = some l) :
    (machine τ α g).exec Ok s [.tryPop, .look, .move] =
      some (State.move { s with
        readUnset := s.readUnset || !s.readAssigned
        popCalls := s.popCalls + 1
        reader := .moving b } b l) := by
  simp only [Machine.exec, Ok, machine, act, hr, hset, hcur, if_true, true_or, Option.elim,
    check_bind _ hlive, hw, hitem, Machine.pure_eq_ok]

/-- The buffer 0 after `n` lines were pushed and popped. -/
structure Balanced (s : State τ α) (p : τ) (n : ℕ) : Prop where
  call : s.calls p = .idle
  reader : s.reader = .idle
  writeIndex : s.writeIndex = n
  readIndex : s.readIndex = n
  currentWrite : s.currentWrite = some 0
  currentRead : s.currentRead = some 0
  assigned : s.readAssigned = true
  live : s.live 0 = true
  buffers : s.buffers = [0]
  count : (s.heap 0).count = n

/-- The next line is pushed and popped, but not counted. -/
structure Uncounted (s : State τ α) (p : τ) (n : ℕ) : Prop where
  call : ∃ l, s.calls p = .counting 0 n l
  reader : s.reader = if n + 1 = Buffer.size then .retiring else .idle
  writeIndex : s.writeIndex = n + 1
  readIndex : n + 1 ≠ Buffer.size → s.readIndex = n + 1 ∧ s.currentRead = some 0
  currentWrite : s.currentWrite = some 0
  assigned : s.readAssigned = true
  live : s.live 0 = true
  buffers : s.buffers = [0]
  count : (s.heap 0).count = n

theorem Balanced.uncounted (h : Balanced s p n) (x : α) (hlt : n < Buffer.size) :
    ∃ u, (machine τ α g).Path Ok s u ∧ Uncounted u p n := by
  obtain ⟨l, hl⟩ : ∃ l, s.history.line p x = l := ⟨_, rfl⟩
  have hpush := exec_push (g := g) (x := x) h.call (h.writeIndex ▸ hlt) h.currentWrite
    h.live
  rw [hl, h.writeIndex] at hpush
  obtain ⟨t, ht⟩ : ∃ t : State τ α, { s with
      calls := Function.update s.calls p (.counting 0 n l)
      heap := Function.update s.heap 0 (((s.heap 0).place n l).store n)
      writeIndex := Word.add 32 n 1
      history := (s.history.call p x).claim l } = t := ⟨_, rfl⟩
  rw [ht] at hpush
  have hheap : t.heap 0 = ((s.heap 0).place n l).store n := by
    rw [← ht]
    show Function.update s.heap 0 (((s.heap 0).place n l).store n) 0 = _
    rw [Function.update_self]
  have hindex : t.readIndex = n := by
    rw [← ht]
    exact h.readIndex
  have hw : (t.heap 0).written t.readIndex = true := by
    rw [hheap, hindex]
    exact Function.update_self ..
  have hitem : (t.heap 0).items t.readIndex = some l := by
    rw [hheap, hindex]
    exact Function.update_self ..
  have hadd : Word.add 32 n 1 = n + 1 := Word.add_of_lt (by have := size_lt; omega)
  have hpop := exec_pop (s := t) (g := g) (ht ▸ h.reader) (ht ▸ h.assigned)
    (ht ▸ h.currentRead) (ht ▸ h.live) hw hitem
  obtain ⟨u, hu⟩ : ∃ u, State.move { t with
      readUnset := t.readUnset || !t.readAssigned
      popCalls := t.popCalls + 1
      reader := .moving 0 } 0 l = u := ⟨_, rfl⟩
  rw [hu] at hpop
  have hpath : (machine τ α g).Path Ok s u := .of_exec (.of_exec .refl hpush) hpop
  have hcount : (((s.heap 0).place n l).store n).count = n := h.count
  refine ⟨u, hpath, ⟨l, ?_⟩, ?_, ?_, fun hne => ⟨?_, ?_⟩, ?_, ?_, ?_, ?_, ?_⟩
  · rw [← hu, State.move_calls, ← ht]
    exact Function.update_self ..
  · rw [← hu, State.move_reader, hindex, hadd]
  · rw [← hu, State.move_writeIndex, ← ht]
    exact hadd
  · rw [← hu, State.move_readIndex, hindex, hadd, if_neg hne]
  · rw [← hu, State.move_currentRead, hindex, hadd, if_neg hne, ← ht]
    exact h.currentRead
  · rw [← hu, State.move_currentWrite, ← ht]
    exact h.currentWrite
  · rw [← hu, State.move_readAssigned, ← ht]
    exact h.assigned
  · rw [← hu, State.move_live, ← ht]
    exact h.live
  · rw [← hu, State.move_buffers, ← ht]
    exact h.buffers
  · rw [← hu, State.move_heap, Function.update_self, hheap]
    exact hcount

/-- The producer counts its slot, which is not the last one. -/
theorem Uncounted.balanced (h : Uncounted s p n) (hlt : n + 1 < Buffer.size) :
    ∃ u, (machine τ α g).Path Ok s u ∧ Balanced u p (n + 1) := by
  obtain ⟨l, hl⟩ := h.call
  have hne : n + 1 ≠ Buffer.size := Nat.ne_of_lt hlt
  have hadd : (s.heap 0).fetchAdd.count = n + 1 := by
    show Word.add 32 (s.heap 0).count 1 = n + 1
    rw [h.count]
    exact Word.add_of_lt (by have := size_lt; omega)
  have hstep : (machine τ α g).Step s (.fetchAddCount p)
      ((s.setBuffer 0 (s.heap 0).fetchAdd).setCall p .idle) := by
    simp only [Machine.Step, machine, act, hl, check_bind _ h.live, hadd, if_neg hne]
    rfl
  have hok : Ok s (.fetchAddCount p) := ⟨⟩
  have hreader : s.reader = .idle := by rw [h.reader, if_neg hne]
  obtain ⟨hindex, hcur⟩ := h.readIndex hne
  refine ⟨_, .single hok hstep, ⟨Function.update_self .., hreader, h.writeIndex, hindex,
    h.currentWrite, hcur, h.assigned, h.live, h.buffers, ?_⟩⟩
  show (Function.update s.heap 0 (s.heap 0).fetchAdd 0).count = n + 1
  rw [Function.update_self, hadd]

theorem exists_balanced_zero (p : τ) : ∃ s : State τ α,
    (machine τ α none).Reach Ok s ∧ Balanced s p 0 := by
  obtain ⟨s, hs, hb⟩ : ∃ s : State τ α,
      (machine τ α none).exec Ok (init none) [.tryPop, .fetch, .look] = some s ∧ Balanced s p 0 :=
    ⟨_, rfl, ⟨rfl, rfl, rfl, rfl, rfl, rfl, rfl, rfl, rfl, rfl⟩⟩
  exact ⟨s, .of_exec (.init rfl) hs, hb⟩

/-- The producer and the consumer take turns. -/
theorem exists_balanced (p : τ) (x : α) (hlt : n < Buffer.size) : ∃ s : State τ α,
    (machine τ α none).Reach Ok s ∧ Balanced s p n := by
  induction n with
  | zero => exact exists_balanced_zero p
  | succ n ih =>
    obtain ⟨s, hs, hb⟩ := ih (Nat.lt_of_succ_lt hlt)
    obtain ⟨t, ht, hun⟩ := hb.uncounted x (Nat.lt_of_succ_lt hlt)
    obtain ⟨u, hu, hbal⟩ := hun.balanced hlt
    exact ⟨u, (hs.path ht).path hu, hbal⟩

/-- **Such runs exist**: the last line of a buffer is popped, and then the buffer, before its producer
has counted it. -/
theorem exists_dead_access (p : τ) (x : α) : ∃ s u : State τ α,
    (machine τ α none).Reach Ok s ∧ (machine τ α none).Step s .retire u ∧
      (machine τ α none).Faults u (.fetchAddCount p) := by
  obtain ⟨n, hn⟩ : ∃ n, n + 1 = Buffer.size := ⟨Buffer.size - 1, by have := size_pos; omega⟩
  have hlt : n < Buffer.size := hn ▸ Nat.lt_succ_self n
  obtain ⟨t, ht, hb⟩ := exists_balanced p x hlt
  obtain ⟨s, hs, hun⟩ := hb.uncounted x hlt
  obtain ⟨l, hl⟩ := hun.call
  have hreader : s.reader = .retiring := by rw [hun.reader, if_pos hn]
  have hstep : (machine τ α none).Step s .retire (s.retire 0 []) := by
    simp only [Machine.Step, machine, act, hreader, hun.buffers]
  have hdead : (s.retire 0 []).live 0 = false := by
    show Function.update s.live 0 false 0 = false
    rw [Function.update_self]
  have hcall : (s.retire 0 []).calls p = .counting 0 n l := hl
  refine ⟨s, _, ht.path hs, hstep, .deadBuffer, ?_⟩
  simp only [machine, act, hcall, hdead]
  rfl

/-- The first `try_pop` reads a pointer that was not set, and follows it; and where this pointer is null,
a destroyed buffer is accessed in a longer run. -/
theorem not_guaranteed :
    (∃ s : State Unit Unit, (machine Unit Unit (some 1)).Reach anyAction s ∧ s.readUnset = true ∧
      (machine Unit Unit (some 1)).Faults s .look) ∧
    ∃ s u : State Unit Unit, (machine Unit Unit none).Reach Ok s ∧
      (machine Unit Unit none).Step s .retire u ∧
        (machine Unit Unit none).Faults u (.fetchAddCount ()) := by
  refine ⟨?_, exists_dead_access () ()⟩
  obtain ⟨s, hs, hunset, hfault⟩ : ∃ s : State Unit Unit,
      (machine Unit Unit (some 1)).exec anyAction (init (some 1)) [.tryPop] = some s ∧
        s.readUnset = true ∧ (machine Unit Unit (some 1)).act s .look = some (.error .deadBuffer) :=
    ⟨_, rfl, rfl, rfl⟩
  exact ⟨s, .of_exec (.init rfl) hs, hunset, _, hfault⟩

end MengSen.Log.QueueBuffer

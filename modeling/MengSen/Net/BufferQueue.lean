import MengSen.Net.BufferSpec

/-!
# Net.BufferQueue — buffers refine byte queues

Abstract model: a family of byte queues, each a list; bytes enter at the back (`append`) or at the
front (`prepend`) and leave at the front (`drop`, `pop`, which also returns them) or at the back
(`unappend`).  Two queues may be exchanged.

Code model: a family of buffers under the methods of `net/Buffer.h`.  `Command.abs` names the
queue action a method stands for; `hasWritten` appends the bytes found in the write zone.
`World.act_spec` is the simulation step, `buffer_refines_byteQueue` its consequence for runs.
-/

namespace MengSen.Net

/-! ## Byte queues -/

namespace ByteQueue

variable {ι α : Type}

/-- Operations on one queue. -/
inductive Op (α : Type)
  | append (d : List α)
  | prepend (d : List α)
  | drop (n : ℕ)
  | pop (n : ℕ)
  | unappend (n : ℕ)
  | clear
  | nop

def Op.apply : Op α → List α → List α
  | .append d, c => c ++ d
  | .prepend d, c => d ++ c
  | .drop n, c => c.drop n
  | .pop n, c => c.drop n
  | .unappend n, c => c.take (c.length - n)
  | .clear, _ => []
  | .nop, c => c

/-- The strings an operation returns to its caller. -/
def Op.returns : Op α → List α → List (List α)
  | .pop n, c => [c.take n]
  | _, _ => []

/-- Actions on a family of queues. -/
inductive Action (ι α : Type)
  | op (i : ι) (o : Op α)
  | swap (i j : ι)

/-- The contents of the queues and the strings returned so far. -/
structure State (ι α : Type) where
  content : ι → List α
  out : List (List α)

def State.step [DecidableEq ι] (s : State ι α) : Action ι α → State ι α
  | .op i o =>
    { content := Function.update s.content i (o.apply (s.content i))
      out := s.out ++ o.returns (s.content i) }
  | .swap i j =>
    { s with content := Function.update (Function.update s.content i (s.content j)) j (s.content i) }

/-- Queues that start empty. -/
def machine (ι α : Type) [DecidableEq ι] : Machine (State ι α) (Action ι α) Empty where
  init s := (∀ i, s.content i = []) ∧ s.out = []
  act s a := some (.ok (s.step a))

end ByteQueue

/-! ## Buffers -/

namespace Buffer

variable {ι : Type}

/-- A method of one buffer with its arguments. -/
inductive Op
  | append (data : List UInt8)
  | retrieve (len : ℕ)
  | retrieveUntil (end_ : ℕ)
  | retrieveAll
  | retrieveAsString (len : ℕ)
  | prepend (data : List UInt8)
  | hasWritten (len : ℕ)
  | unwrite (len : ℕ)
  | ensureWritableBytes (len : ℕ)
  | shrink (reserve : ℕ)
  deriving DecidableEq

/-- The call on `b`: the buffer after it and the strings it returned. -/
def Op.run (b : Buffer) : Op → Except Failure (Buffer × List (List UInt8))
  | .append data => do return (← b.append data, [])
  | .retrieve len => do return (← b.retrieve len, [])
  | .retrieveUntil end_ => do return (← b.retrieveUntil end_, [])
  | .retrieveAll => return (b.retrieveAll, [])
  | .retrieveAsString len => do
    let (b, result) ← b.retrieveAsString len
    return (b, [result])
  | .prepend data => do return (← b.prepend data, [])
  | .hasWritten len => do return (← b.hasWritten len, [])
  | .unwrite len => do return (← b.unwrite len, [])
  | .ensureWritableBytes len => do return (← b.ensureWritableBytes len, [])
  | .shrink reserve => do return (← b.shrink reserve, [])

/-- The asserts a method makes on its own arguments, and lengths below `2 ^ 31`. -/
def Op.ArgsOk (b : Buffer) : Op → Prop
  | .append data => data.length < 2 ^ 31
  | .retrieve len => len ≤ b.readableBytes
  | .retrieveUntil end_ => b.readerIndex ≤ end_ ∧ end_ ≤ b.writerIndex
  | .retrieveAll => True
  | .retrieveAsString len => len ≤ b.readableBytes
  | .prepend data => data.length ≤ b.prependableBytes
  | .hasWritten len => len ≤ b.writableBytes
  | .unwrite len => len ≤ b.readableBytes
  | .ensureWritableBytes len => len < 2 ^ 31
  | .shrink reserve => reserve < 2 ^ 31

instance Op.decArgsOk (b : Buffer) : (o : Op) → Decidable (o.ArgsOk b)
  | .append data => inferInstanceAs (Decidable (data.length < 2 ^ 31))
  | .retrieve len => inferInstanceAs (Decidable (len ≤ b.readableBytes))
  | .retrieveUntil end_ => inferInstanceAs (Decidable (b.readerIndex ≤ end_ ∧ end_ ≤ b.writerIndex))
  | .retrieveAll => inferInstanceAs (Decidable True)
  | .retrieveAsString len => inferInstanceAs (Decidable (len ≤ b.readableBytes))
  | .prepend data => inferInstanceAs (Decidable (data.length ≤ b.prependableBytes))
  | .hasWritten len => inferInstanceAs (Decidable (len ≤ b.writableBytes))
  | .unwrite len => inferInstanceAs (Decidable (len ≤ b.readableBytes))
  | .ensureWritableBytes len => inferInstanceAs (Decidable (len < 2 ^ 31))
  | .shrink reserve => inferInstanceAs (Decidable (reserve < 2 ^ 31))

def Op.isPrepend : Op → Bool
  | .prepend _ => true
  | _ => false

/-- The room a method promises. -/
def Op.room : Op → ℕ
  | .ensureWritableBytes len => len
  | .shrink reserve => reserve
  | _ => 0

/-- The queue operation a method stands for. -/
def Op.abs (b : Buffer) : Op → ByteQueue.Op UInt8
  | .append data => .append data
  | .retrieve len => .drop len
  | .retrieveUntil end_ => .drop (end_ - b.readerIndex)
  | .retrieveAll => .clear
  | .retrieveAsString len => .pop len
  | .prepend data => .prepend data
  | .hasWritten len => .append (Mem.slice b.buffer b.writerIndex len)
  | .unwrite len => .unappend len
  | .ensureWritableBytes _ => .nop
  | .shrink _ => .nop

/-- A call in a family of buffers. -/
inductive Command (ι : Type)
  | op (i : ι) (o : Op)
  | swap (i j : ι)

/-- The buffers, the strings returned so far, and whether `prepend` was ever called. -/
structure World (ι : Type) where
  buffers : ι → Buffer
  out : List (List UInt8)
  prepended : Bool

section Machine

variable [DecidableEq ι]

def World.act (w : World ι) : Command ι → Option (Except Failure (World ι))
  | .op i o => some do
    let (b, result) ← o.run (w.buffers i)
    return { buffers := Function.update w.buffers i b
             out := w.out ++ result
             prepended := w.prepended || o.isPrepend }
  | .swap i j =>
    let (a, b) := (w.buffers i).swap (w.buffers j)
    some (.ok { w with buffers := Function.update (Function.update w.buffers i a) j b })

/-- Buffers built with any initial sizes. -/
def machine (ι : Type) [DecidableEq ι] : Machine (World ι) (Command ι) Failure where
  init w := (∀ i, ∃ initialSize < 2 ^ 31, make initialSize = .ok (w.buffers i)) ∧ w.out = [] ∧
    w.prepended = false
  act := World.act

end Machine

/-- The argument asserts hold and the sizes are below `2 ^ 31`. -/
def Admissible (w : World ι) : Command ι → Prop
  | .op i o => (w.buffers i).buffer.length < 2 ^ 31 ∧ o.ArgsOk (w.buffers i)
  | .swap _ _ => True

instance decAdmissible (w : World ι) : (c : Command ι) → Decidable (Admissible w c)
  | .op i o =>
    inferInstanceAs (Decidable ((w.buffers i).buffer.length < 2 ^ 31 ∧ o.ArgsOk (w.buffers i)))
  | .swap _ _ => inferInstanceAs (Decidable True)

/-- The queues a family of buffers stands for. -/
def World.abs (w : World ι) : ByteQueue.State ι UInt8 := ⟨fun i => (w.buffers i).content, w.out⟩

def Command.abs (w : World ι) : Command ι → ByteQueue.Action ι UInt8
  | .op i o => .op i (o.abs (w.buffers i))
  | .swap i j => .swap i j

/-- The room that the called method promised is there. -/
def Command.RoomIn (w : World ι) : Command ι → Prop
  | .op i o => o.room ≤ (w.buffers i).writableBytes
  | .swap _ _ => True

/-! ## The simulation -/

/-- **One call**: it does not fail, acts on the content as the queue operation, keeps the
invariant, leaves the promised room and, unless it prepends, keeps the reader out of the cheap
zone. -/
theorem Op.run_spec {b : Buffer} (h : b.Valid) (hs : b.buffer.length < 2 ^ 31) {o : Op}
    (ha : o.ArgsOk b) :
    ∃ b', o.run b = .ok (b', (o.abs b).returns b.content) ∧ b'.Valid ∧
      b'.content = (o.abs b).apply b.content ∧ o.room ≤ b'.writableBytes ∧
      (o.isPrepend = false → kCheapPrepend ≤ b.readerIndex → kCheapPrepend ≤ b'.readerIndex) := by
  have hs' : b.buffer.length < 2 ^ 63 := by omega
  have hwl := h.writer_le
  cases o with
  | append data =>
    have hd : data.length < 2 ^ 31 := ha
    obtain ⟨b', hb', hp⟩ := append_spec h (d := data) hs' (by omega)
    exact ⟨b', by rw [run, hb']; rfl, hp.valid, hp.content_eq, Nat.zero_le _, fun _ => hp.cheap⟩
  | retrieve len =>
    obtain ⟨b', hb', hp⟩ := retrieve_spec h hs' ha
    exact ⟨b', by rw [run, hb']; rfl, hp.valid, hp.content_eq, Nat.zero_le _, fun _ => hp.cheap⟩
  | retrieveUntil end_ =>
    obtain ⟨b', hb', hp⟩ := retrieveUntil_spec h hs' ha.1 ha.2
    exact ⟨b', by rw [run, hb']; rfl, hp.valid, hp.content_eq, Nat.zero_le _, fun _ => hp.cheap⟩
  | retrieveAll =>
    have hp := retrieveAll_spec h
    exact ⟨_, rfl, hp.valid, hp.content_eq, Nat.zero_le _, fun _ => hp.cheap⟩
  | retrieveAsString len =>
    obtain ⟨b', hb', hp⟩ := retrieveAsString_spec h hs' ha
    exact ⟨b', by rw [run, hb']; rfl, hp.valid, hp.content_eq, Nat.zero_le _, fun _ => hp.cheap⟩
  | prepend data =>
    obtain ⟨b', hb', hv, hc⟩ := prepend_spec h hs' ha
    exact ⟨b', by rw [run, hb']; rfl, hv, hc, Nat.zero_le _, fun hp => nomatch hp⟩
  | hasWritten len =>
    obtain ⟨b', hb', hp⟩ := hasWritten_spec h hs' _ ha
    exact ⟨b', by rw [run, hb']; rfl, hp.valid, hp.content_eq, Nat.zero_le _, fun _ => hp.cheap⟩
  | unwrite len =>
    obtain ⟨b', hb', hp⟩ := unwrite_spec h hs' ha
    exact ⟨b', by rw [run, hb']; rfl, hp.valid, hp.content_eq, Nat.zero_le _, fun _ => hp.cheap⟩
  | ensureWritableBytes len =>
    have hl : len < 2 ^ 31 := ha
    obtain ⟨b', hb', hp⟩ := ensureWritableBytes_spec h len hs' (by omega)
    exact ⟨b', by rw [run, hb']; rfl, hp.valid, hp.content_eq, hp.room, fun _ => hp.cheap⟩
  | shrink reserve =>
    have hr : reserve < 2 ^ 31 := ha
    obtain ⟨b', hb', hp, hroom, -⟩ := shrink_spec h hs reserve (by omega)
    exact ⟨b', by rw [run, hb']; rfl, hp.valid, hp.content_eq, hroom, fun _ => hp.cheap⟩

/-- What every reached family of buffers satisfies. -/
structure World.Inv (w : World ι) : Prop where
  valid : ∀ i, (w.buffers i).Valid
  cheap : w.prepended = false → ∀ i, kCheapPrepend ≤ (w.buffers i).prependableBytes

variable [DecidableEq ι]

/-- **The simulation step.** -/
theorem World.act_spec {w : World ι} (h : w.Inv) {c : Command ι} (ha : Admissible w c) :
    ∃ w', (machine ι).Step w c w' ∧ w'.abs = w.abs.step (c.abs w) ∧ c.RoomIn w' ∧ w'.Inv := by
  cases c with
  | op i o =>
    obtain ⟨hs, hargs⟩ := ha
    obtain ⟨b', hb', hv, hc, hroom, hcheap⟩ := Op.run_spec (h.valid i) hs hargs
    refine ⟨{ buffers := Function.update w.buffers i b'
              out := w.out ++ (o.abs (w.buffers i)).returns (w.buffers i).content
              prepended := w.prepended || o.isPrepend }, ?_, ?_, ?_, ?_, ?_⟩
    · simp only [Machine.Step, machine, World.act, hb', Machine.ok_bind, Machine.pure_eq_ok]
    · simp only [World.abs, Command.abs, ByteQueue.State.step, ByteQueue.State.mk.injEq, and_true]
      funext j
      by_cases hj : j = i
      · subst hj
        rw [Function.update_self, Function.update_self, hc]
      · rw [Function.update_of_ne hj, Function.update_of_ne hj]
    · simpa only [Command.RoomIn, Function.update_self] using hroom
    · intro j
      by_cases hj : j = i
      · subst hj
        simpa only [Function.update_self] using hv
      · simpa only [Function.update_of_ne hj] using h.valid j
    · intro hp j
      obtain ⟨hp1, hp2⟩ := Bool.or_eq_false_iff.mp hp
      by_cases hj : j = i
      · subst hj
        simpa only [Function.update_self, prependableBytes] using hcheap hp2 (h.cheap hp1 j)
      · simpa only [Function.update_of_ne hj] using h.cheap hp1 j
  | swap i j =>
    -- after the exchange every buffer is one of the buffers before it
    have hmem : ∀ k, ∃ l, Function.update (Function.update w.buffers i (w.buffers j)) j
        (w.buffers i) k = w.buffers l := by
      intro k
      by_cases hj : k = j
      · exact ⟨i, by rw [hj, Function.update_self]⟩
      · by_cases hi : k = i
        · exact ⟨j, by rw [Function.update_of_ne hj, hi, Function.update_self]⟩
        · exact ⟨k, by rw [Function.update_of_ne hj, Function.update_of_ne hi]⟩
    refine ⟨⟨Function.update (Function.update w.buffers i (w.buffers j)) j (w.buffers i), w.out,
      w.prepended⟩, rfl, ?_, trivial, ?_, ?_⟩
    · simp only [World.abs, Command.abs, ByteQueue.State.step, ByteQueue.State.mk.injEq, and_true]
      funext k
      by_cases hj : k = j
      · rw [hj, Function.update_self, Function.update_self]
      · rw [Function.update_of_ne hj, Function.update_of_ne hj]
        by_cases hi : k = i
        · rw [hi, Function.update_self, Function.update_self]
        · rw [Function.update_of_ne hi, Function.update_of_ne hi]
    · intro k
      obtain ⟨l, hl⟩ := hmem k
      simpa only [hl] using h.valid l
    · intro hp k
      obtain ⟨l, hl⟩ := hmem k
      simpa only [hl] using h.cheap hp l

theorem machine_init_inv {w : World ι} (h : (machine ι).init w) : w.Inv := by
  obtain ⟨hb, -, -⟩ := h
  have key : ∀ i, (w.buffers i).Valid ∧ (w.buffers i).readerIndex = kCheapPrepend := by
    intro i
    obtain ⟨n, hn, hmake⟩ := hb i
    obtain ⟨b, hb, hv, -, hr, -⟩ := make_spec n (by unfold kCheapPrepend; omega)
    rw [hmake, Except.ok.injEq] at hb
    exact hb ▸ ⟨hv, hr⟩
  exact ⟨fun i => (key i).1, fun _ i => (key i).2.ge⟩

theorem reach_inv {w : World ι} (h : (machine ι).Reach Admissible w) : w.Inv := by
  refine Machine.Reach.induct (I := World.Inv) (fun w hw => machine_init_inv hw) ?_ h
  intro w c w' _ hinv ha hstep
  obtain ⟨w'', hstep', -, -, hinv'⟩ := World.act_spec hinv ha
  exact hstep.det hstep' ▸ hinv'

/-- The queues that reached buffers stand for are reached by the queue operations. -/
theorem abs_reach {w : World ι} (h : (machine ι).Reach Admissible w) :
    (ByteQueue.machine ι UInt8).Reach Machine.anyAction w.abs := by
  refine h.map World.abs ?_ ?_
  · intro w hw
    refine ⟨fun i => ?_, hw.2.1⟩
    obtain ⟨n, hn, hmake⟩ := hw.1 i
    obtain ⟨b, hb, -, hc, -, -⟩ := make_spec n (by unfold kCheapPrepend; omega)
    rw [hmake, Except.ok.injEq] at hb
    subst hb
    exact hc
  · intro w c w' hr ha hstep
    obtain ⟨w'', hstep', habs, -, -⟩ := World.act_spec (reach_inv hr) ha
    obtain rfl := hstep.det hstep'
    exact .single trivial (by rw [habs]; rfl)

/-- **Buffers refine byte queues.**  In every state reached by admissible calls, from buffers of
any initial sizes: the index invariant holds; without `prepend` the cheap zone is intact; and every
admissible call succeeds (no assert fails, nothing is accessed outside the vector), acts on the
readable bytes as the queue operation it stands for, and leaves the room it promises.  The
constructor itself succeeds and gives an empty queue. -/
theorem buffer_refines_byteQueue {w : World ι} (h : (machine ι).Reach Admissible w) :
    (∀ i, (w.buffers i).readerIndex ≤ (w.buffers i).writerIndex ∧
      (w.buffers i).writerIndex ≤ (w.buffers i).buffer.length ∧
      kCheapPrepend ≤ (w.buffers i).buffer.length) ∧
    (w.prepended = false → ∀ i, kCheapPrepend ≤ (w.buffers i).prependableBytes) ∧
    (∀ c, Admissible w c → ∃ w', (machine ι).Step w c w' ∧ w'.abs = w.abs.step (c.abs w) ∧
      c.RoomIn w') ∧
    ∀ initialSize < 2 ^ 31, ∃ b, make initialSize = .ok b ∧ b.content = [] := by
  have hinv := reach_inv h
  refine ⟨fun i => ?_, hinv.cheap, fun c ha => ?_, fun n hn => ?_⟩
  · have hv := hinv.valid i
    exact ⟨hv.reader_le, hv.writer_le, hv.cheap_le⟩
  · obtain ⟨w', hstep, habs, hroom, -⟩ := World.act_spec hinv ha
    exact ⟨w', hstep, habs, hroom⟩
  · obtain ⟨b, hb, -, hc, -, -⟩ := make_spec n (by unfold kCheapPrepend; omega)
    exact ⟨b, hb, hc⟩

/-- A buffer of initial size 0 after `append` of three bytes. -/
def threeBytes : World Unit := ⟨fun _ => ⟨List.replicate 8 0 ++ [1, 2, 3], 8, 11⟩, [], false⟩

theorem threeBytes_reach : (machine Unit).Reach Admissible threeBytes := by
  have h0 : (machine Unit).Reach Admissible ⟨fun _ => ⟨List.replicate 8 0, 8, 8⟩, [], false⟩ :=
    .init ⟨fun _ => ⟨0, by decide, rfl⟩, rfl, rfl⟩
  refine .step (a := .op () (.append [1, 2, 3])) h0 (by decide) ?_
  simp only [Machine.Step, machine, World.act]
  rfl

theorem buffer_refines_byteQueue_threeBytes :
    ∃ w', (machine Unit).Step threeBytes (.op () (.retrieveAsString 2)) w' ∧
      w'.abs = threeBytes.abs.step (.op () (.pop 2)) := by
  obtain ⟨-, -, h, -⟩ := buffer_refines_byteQueue threeBytes_reach
  obtain ⟨w', hstep, habs, -⟩ := h (.op () (.retrieveAsString 2)) (by decide)
  exact ⟨w', hstep, habs⟩

end Buffer

end MengSen.Net

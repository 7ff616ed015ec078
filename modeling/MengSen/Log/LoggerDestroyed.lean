import MengSen.Log.LoggerRing
import MengSen.Log.LoggerQueue

/-!
# Log.LoggerDestroyed — the logger is destroyed

Both loggers of `example/log/Log.cpp`: every run that meets `Flushes` is flushed (`logger_flushes`).  The
code does not see to it: `~Logger` only stores `SHUTDOWN`, and `~Thread` detaches the thread
(`logger_not_flushed`).  A join alone would not do (`exists_stalled`); with producers that have returned
it would (`flushed_of_quiesces`).
-/

namespace MengSen.Log.Logger

open Machine (anyAction)

/-- **The logger is flushed**, with a ring of any size and with the queue, in every run that meets
`Flushes`. -/
theorem logger_flushes (τ α : Type) [DecidableEq τ] (mb : ℕ) (garbage : Option ℕ) :
    (∀ s : State (RingBuffer.base τ α (ringSize mb)), (machine _).Reach Flushes s → Flushed s) ∧
    ∀ s : State (QueueBuffer.base τ α garbage), (machine _).Reach Flushes s → Flushed s :=
  ⟨fun _ => flushed_of_reach (RingBuffer.base_lawful _),
    fun _ => flushed_of_reach (QueueBuffer.base_lawful garbage)⟩

/-! ## Runs -/

section Runs

variable {τ α : Type} {B : BufferBase τ α} {s : State B}

/-- `Flushes`, but for the step that ends the last loop. -/
def Goes (s : State B) : Action B → Prop
  | .add a => B.Ok s.buffer a
  | .tryPop a => B.Ok s.buffer a ∧ (B.result s.buffer a = some true → s.owner.holds .fileWriter = true) ∧
    B.result s.buffer a ≠ some false
  | .destroyFileWriter => ∀ draining, s.pop ≠ .writing draining
  | .destroyBufferBase => s.pop = .done
  | _ => True

instance [∀ b a, Decidable (B.Ok b a)] (s : State B) : (a : Action B) → Decidable (Goes s a)
  | .add a => inferInstanceAs (Decidable (B.Ok s.buffer a))
  | .tryPop a => inferInstanceAs (Decidable (B.Ok s.buffer a ∧
      (B.result s.buffer a = some true → s.owner.holds .fileWriter = true) ∧
        B.result s.buffer a ≠ some false))
  | .destroyFileWriter => inferInstanceAs (Decidable (∀ draining, s.pop ≠ .writing draining))
  | .destroyBufferBase => inferInstanceAs (Decidable (s.pop = .done))
  | .load | .write | .shutdown | .destroyThread => inferInstanceAs (Decidable True)

instance {size : ℕ} [DecidableEq τ] : ∀ b a, Decidable ((RingBuffer.base τ α size).Ok b a) :=
  fun _ _ => inferInstanceAs (Decidable True)

instance {garbage : Option ℕ} [DecidableEq τ] :
    ∀ b a, Decidable ((QueueBuffer.base τ α garbage).Ok b a) :=
  fun (b : QueueBuffer.State τ α) (a : QueueBuffer.Action τ α) =>
    inferInstanceAs (Decidable (QueueBuffer.Ok b a))

theorem Goes.flushes {a : Action B} (h : Goes s a) : Flushes s a := by
  cases a with
  | tryPop a => exact ⟨h.1, h.2.1, fun hres => absurd hres h.2.2⟩
  | add _ | load | write | shutdown | destroyThread | destroyFileWriter | destroyBufferBase => exact h

theorem Goes.reach (h : (machine B).Reach Goes s) : (machine B).Reach Flushes s :=
  Machine.Reach.map id (fun _ hs => hs) (fun _ _ _ _ hg hs => .single hg.flushes hs) h

end Runs

/-- The buffers of the runs below. -/
abbrev ring : BufferBase Unit Unit := RingBuffer.base Unit Unit (ringSize 1)

abbrev queue : BufferBase Unit Unit := QueueBuffer.base Unit Unit none

/-- A line is pushed. -/
def ringPush : List (Action ring) :=
  [.add (RingBuffer.Action.call () ()), .add (RingBuffer.Action.fetchAdd ()),
    .add (RingBuffer.Action.write ())]

def queuePush : List (Action queue) :=
  [.add (QueueBuffer.Action.call () ()), .add (QueueBuffer.Action.fetchAddIndex ()),
    .add (QueueBuffer.Action.loadBuffer ()), .add (QueueBuffer.Action.place ()),
    .add (QueueBuffer.Action.store ()), .add (QueueBuffer.Action.fetchAddCount ())]

/-- It is popped and written after `~Logger` has begun. -/
def ringDrain : List (Action ring) :=
  [.shutdown, .load, .load, .tryPop RingBuffer.Action.tryPop, .write, .destroyThread,
    .destroyFileWriter]

def queueDrain : List (Action queue) :=
  [.shutdown, .load, .load, .tryPop QueueBuffer.Action.tryPop, .tryPop QueueBuffer.Action.fetch,
    .tryPop QueueBuffer.Action.look, .tryPop QueueBuffer.Action.move, .write, .destroyThread,
    .destroyFileWriter, .tryPop QueueBuffer.Action.tryPop]

theorem logger_flushes_drained :
    (∃ s : State ring, (machine ring).Reach Flushes s ∧ s.owner = .finished ∧
      s.written = [some ⟨(), 0, ()⟩] ∧ Flushed s) ∧
    ∃ s : State queue, (machine queue).Reach Flushes s ∧ s.owner = .finished ∧
      s.written = [some ⟨(), 0, ()⟩] ∧ Flushed s := by
  obtain ⟨hring, hqueue⟩ := logger_flushes Unit Unit 1 none
  refine ⟨?_, ?_⟩
  · obtain ⟨s, t, u, hs, hempty, ht, hdone, hu, howner, hwritten⟩ : ∃ s t u : State ring,
        (machine ring).exec Goes (init ⟨RingBuffer.init, []⟩) (ringPush ++ ringDrain) = some s ∧
          Flushes s (.tryPop RingBuffer.Action.tryPop) ∧
          (machine ring).Step s (.tryPop RingBuffer.Action.tryPop) t ∧
          Flushes t .destroyBufferBase ∧ (machine ring).Step t .destroyBufferBase u ∧
            u.owner = .finished ∧ u.written = [some ⟨(), 0, ()⟩] := by
      refine ⟨_, _, _, rfl, ⟨⟨⟩, nofun, fun _ _ l _ => ?_⟩, rfl, rfl, rfl, rfl, rfl⟩
      rintro ⟨i, hw, -⟩
      by_cases hi : i = 0
      · subst hi
        cases hw
      · have hfree : (Function.update (Function.update (fun _ => RingBuffer.Item.mk false none) 0
            ⟨true, some (⟨(), 0, ()⟩ : LogLine Unit Unit)⟩) 0 ⟨false, none⟩ i).written = true := hw
        rw [Function.update_of_ne hi, Function.update_of_ne hi] at hfree
        cases hfree
    have hr : (machine ring).Reach Flushes s := Goes.reach (.of_exec (.init ⟨_, rfl, rfl⟩) hs)
    have hru : (machine ring).Reach Flushes u := (hr.step hempty ht).step hdone hu
    exact ⟨u, hru, howner, hwritten, hring u hru⟩
  · obtain ⟨s, t, u, hs, hempty, ht, hdone, hu, howner, hwritten⟩ : ∃ s t u : State queue,
        (machine queue).exec Goes (init (QueueBuffer.init none)) (queuePush ++ queueDrain) = some s ∧
          Flushes s (.tryPop QueueBuffer.Action.look) ∧
          (machine queue).Step s (.tryPop QueueBuffer.Action.look) t ∧
          Flushes t .destroyBufferBase ∧ (machine queue).Step t .destroyBufferBase u ∧
            u.owner = .finished ∧ u.written = [some ⟨(), 0, ()⟩] := by
      refine ⟨_, _, _, rfl, ⟨⟨⟩, nofun, fun _ _ l _ => ?_⟩, rfl, rfl, rfl, rfl, rfl⟩
      rintro ⟨b, hb, -, i, hw, hitem⟩
      obtain rfl : b = 0 := List.mem_singleton.mp hb
      by_cases hi : i = 0
      · subst hi
        cases hitem
      · have hfree : Function.update (fun _ => false) 0 true i = true := hw
        rw [Function.update_of_ne hi] at hfree
        cases hfree
    have hr : (machine queue).Reach Flushes s := Goes.reach (.of_exec (.init ⟨_, rfl, rfl⟩) hs)
    have hru : (machine queue).Reach Flushes u := (hr.step hempty ht).step hdone hu
    exact ⟨u, hru, howner, hwritten, hqueue u hru⟩

/-- The owner has finished while the pop thread is in `try_pop`. -/
def destroyedEarly {τ α : Type} {B : BufferBase τ α} : List (Action B) :=
  [.load, .load, .shutdown, .destroyThread, .destroyFileWriter, .destroyBufferBase]

/-- **The logger is not flushed** in every run: nothing waits for the pop thread.  The line is not
written, and the thread goes on to access `_buffer_base`. -/
theorem logger_not_flushed :
    (∃ s : State ring, (machine ring).Reach anyAction s ∧ ¬ Flushed s ∧ s.owner = .finished ∧
      (∃ l, s.due l ∧ some l ∉ s.written ∧ ¬ ring.Overwritten s.buffer l) ∧
        act s (.tryPop RingBuffer.Action.tryPop) = some (.error (.dead .bufferBase))) ∧
    ∃ s : State queue, (machine queue).Reach anyAction s ∧ ¬ Flushed s ∧ s.owner = .finished ∧
      (∃ l, s.due l ∧ some l ∉ s.written ∧ ¬ queue.Overwritten s.buffer l) ∧
        act s (.tryPop QueueBuffer.Action.tryPop) = some (.error (.dead .bufferBase)) := by
  refine ⟨?_, ?_⟩
  · obtain ⟨s, hs, howner, hdue, hdead⟩ : ∃ s : State ring,
        (machine ring).exec anyAction (init ⟨RingBuffer.init, []⟩) (ringPush ++ destroyedEarly) = some s ∧
          s.owner = .finished ∧ (∃ l, s.due l ∧ some l ∉ s.written ∧ ¬ ring.Overwritten s.buffer l) ∧
            act s (.tryPop RingBuffer.Action.tryPop) = some (.error (.dead .bufferBase)) := by
      refine ⟨_, rfl, rfl, ⟨⟨(), 0, ()⟩, ?_, List.not_mem_nil, List.not_mem_nil⟩, rfl⟩
      exact ⟨(), List.mem_singleton_self _, nofun⟩
    exact ⟨s, .of_exec (.init ⟨_, rfl, rfl⟩) hs, fun h => h.alive _ rfl _ hdead, howner, hdue, hdead⟩
  · obtain ⟨s, hs, howner, hdue, hdead⟩ : ∃ s : State queue,
        (machine queue).exec anyAction (init (QueueBuffer.init none)) (queuePush ++ destroyedEarly) =
            some s ∧
          s.owner = .finished ∧ (∃ l, s.due l ∧ some l ∉ s.written ∧ ¬ queue.Overwritten s.buffer l) ∧
            act s (.tryPop QueueBuffer.Action.tryPop) = some (.error (.dead .bufferBase)) := by
      refine ⟨_, rfl, rfl, ⟨⟨(), 0, ()⟩, ?_, List.not_mem_nil, not_false⟩, rfl⟩
      exact ⟨(), List.mem_singleton_self _, nofun⟩
    exact ⟨s, .of_exec (.init ⟨_, rfl, rfl⟩) hs, fun h => h.alive _ rfl _ hdead, howner, hdue, hdead⟩

/-! ## A join -/

/-- The members are destroyed when `pop` has returned. -/
def Joins {τ α : Type} {B : BufferBase τ α} (s : State B) : Action B → Prop
  | .destroyFileWriter | .destroyBufferBase => s.pop = .done
  | _ => True

instance {τ α : Type} {B : BufferBase τ α} (s : State B) : (a : Action B) → Decidable (Joins s a)
  | .destroyFileWriter | .destroyBufferBase => inferInstanceAs (Decidable (s.pop = .done))
  | .add _ | .load | .tryPop _ | .write | .shutdown | .destroyThread =>
    inferInstanceAs (Decidable True)

abbrev ringOfTwo : BufferBase Bool Unit := RingBuffer.base Bool Unit (ringSize 1)

/-- A producer that has its index is slower than the one behind it. -/
def stalled : List (Action ringOfTwo) :=
  [.add (RingBuffer.Action.call true ()), .add (RingBuffer.Action.fetchAdd true),
    .add (RingBuffer.Action.call false ()), .add (RingBuffer.Action.fetchAdd false),
    .add (RingBuffer.Action.write false), .shutdown, .load, .load, .tryPop RingBuffer.Action.tryPop,
    .destroyThread, .destroyFileWriter, .destroyBufferBase]

/-- **A join alone would not do**: the last loop ends at a slot whose producer is still in `push`, and
the line behind it is not written. -/
theorem exists_stalled : ∃ s : State ringOfTwo, (machine ringOfTwo).Reach Joins s ∧
    s.owner = .finished ∧ ∃ l, s.due l ∧ some l ∉ s.written ∧ ¬ ringOfTwo.Overwritten s.buffer l := by
  obtain ⟨s, hs, howner, hdue⟩ : ∃ s : State ringOfTwo,
      (machine ringOfTwo).exec Joins (init ⟨RingBuffer.init, []⟩) stalled = some s ∧
        s.owner = .finished ∧
          ∃ l, s.due l ∧ some l ∉ s.written ∧ ¬ ringOfTwo.Overwritten s.buffer l := by
    refine ⟨_, rfl, rfl, ⟨false, 0, ()⟩, ?_, List.not_mem_nil, List.not_mem_nil⟩
    exact ⟨false, List.mem_singleton_self _, nofun⟩
  exact ⟨s, .of_exec (.init ⟨_, rfl, rfl⟩) hs, howner, hdue⟩

/-- **Quiet producers and a join** would do: the logger is flushed when its members are destroyed after
`pop` has returned, and no push is under way when the last loop ends. -/
theorem flushed_of_quiesces (τ α : Type) [DecidableEq τ] (mb : ℕ) (garbage : Option ℕ) :
    (∀ s : State (RingBuffer.base τ α (ringSize mb)),
      (machine _).Reach (Quiesces
        (fun (b : RingBuffer.Ledger τ α) a => RingBuffer.Fits (ringSize mb) b.buffer a)
        fun (b : RingBuffer.Ledger τ α) =>
          RingBuffer.Quiet b.buffer ∧ RingBuffer.Synced (ringSize mb) b.buffer) s → Flushed s) ∧
    ∀ s : State (QueueBuffer.base τ α garbage),
      (machine _).Reach (Quiesces QueueBuffer.Ok QueueBuffer.Quiet) s → Flushed s := by
  refine ⟨fun s hr => ?_, fun s hr => ?_⟩
  · exact flushed_of_reach (RingBuffer.base_lawful _) (Quiesces.reach (fun _ _ _ => ⟨⟩)
      (fun _ _ _ hb hs ha hres hq _ =>
        RingBuffer.base_quiet (RingBuffer.ringSize_lt mb) hb hs ha hres hq) hr)
  · exact flushed_of_reach (QueueBuffer.base_lawful garbage) (Quiesces.reach (fun _ _ hok => hok)
      (fun _ _ _ hb _ _ hres hq _ => QueueBuffer.base_quiet hb hres hq) hr)

end MengSen.Log.Logger

import MengSen.Lib.Locked
import MengSen.Log.RingBufferRuns

/-!
# Log.RingBufferLock — the spin locks of the items

The sections of `push` and `try_pop` in `Log.RingBuffer` are single steps.  Here they are the
statements between the constructor of `SpinLock`, which spins on `test_and_set`, and its destructor,
which clears the flag; each item has its own flag.  As the statements under different flags commute,
all that holds of the runs with single steps holds here once the sections under way are completed.

The consumer is the thread `none`.
-/

namespace MengSen.Log.RingBuffer

open Machine (check check_bind_eq_ok)
open Locked (Code Statements Program)

/-- The statements of `push` under the lock; the last stands for the return. -/
inductive PushOp (τ α : Type)
  | moveLine (l : LogLine τ α)
  | setWritten
  | leave

/-- The statements of `try_pop` under the lock, behind its test. -/
inductive PopOp
  | moveLine
  | clearWritten
  | advance

/-- A statement under the lock of the item `i`. -/
inductive Stmt (τ α : Type)
  | push (p : τ) (i : ℕ) (op : PushOp τ α)
  | pop (i : ℕ) (op : PopOp)

/-- The test `item.written == 1`. -/
structure Test where
  item : ℕ

variable {τ α : Type}

def PushOp.onItem : PushOp τ α → Item τ α → Item τ α
  | .moveLine l, x => { x with logline := some l }
  | .setWritten, x => { x with written := true }
  | .leave, x => x

def PopOp.onItem : PopOp → Item τ α → Item τ α
  | .moveLine, x => { x with logline := none }
  | .clearWritten, x => { x with written := false }
  | .advance, x => x

/-- The line that the statement moves out. -/
def PopOp.moves : PopOp → Item τ α → List (Option (LogLine τ α))
  | .moveLine, x => [x.logline]
  | .clearWritten, _ | .advance, _ => []

def PopOp.onIndex : PopOp → ℕ → ℕ
  | .advance, n => Word.add 32 n 1
  | .moveLine, n | .clearWritten, n => n

namespace Stmt

def thread : Stmt τ α → Option τ
  | .push p _ _ => some p
  | .pop _ _ => none

def item : Stmt τ α → ℕ
  | .push _ i _ | .pop i _ => i

theorem ring_comm {i j : ℕ} (h : i ≠ j) (f g : Item τ α → Item τ α) (ring : ℕ → Item τ α) :
    Function.update (Function.update ring j (g (ring j))) i
        (f (Function.update ring j (g (ring j)) i)) =
      Function.update (Function.update ring i (f (ring i))) j
        (g (Function.update ring i (f (ring i)) j)) := by
  rw [Function.update_of_ne h, Function.update_of_ne h.symm]
  exact Function.update_comm h.symm _ _ _

variable [DecidableEq τ]

def onCalls (p : τ) : PushOp τ α → (τ → Call τ α) → τ → Call τ α
  | .leave, calls => Function.update calls p .idle
  | .moveLine _, calls | .setWritten, calls => calls

def apply : Stmt τ α → State τ α → State τ α
  | .push p i op, s => { s with
      ring := Function.update s.ring i (op.onItem (s.ring i)), calls := onCalls p op s.calls }
  | .pop i op, s => { s with
      ring := Function.update s.ring i (op.onItem (s.ring i))
      readIndex := op.onIndex s.readIndex
      popped := s.popped ++ op.moves (s.ring i) }

theorem onCalls_of_ne {p q : τ} (h : p ≠ q) (op : PushOp τ α) (calls : τ → Call τ α) :
    onCalls p op calls q = calls q := by
  cases op with
  | leave => exact Function.update_of_ne (Ne.symm h) _ _
  | moveLine l | setWritten => rfl

theorem onCalls_comm {p q : τ} (h : p ≠ q) (op op' : PushOp τ α) (calls : τ → Call τ α) :
    onCalls p op (onCalls q op' calls) = onCalls q op' (onCalls p op calls) := by
  cases op with
  | leave =>
    cases op' with
    | leave => exact Function.update_comm h.symm _ _ _
    | moveLine l | setWritten => rfl
  | moveLine l | setWritten => rfl

/-- Statements of different threads under different locks commute. -/
theorem apply_comm {u v : Stmt τ α} {s : State τ α} (ht : u.thread ≠ v.thread)
    (hi : u.item ≠ v.item) : u.apply (v.apply s) = v.apply (u.apply s) := by
  cases u with
  | push p i op =>
    cases v with
    | push q j op' =>
      replace hi : i ≠ j := hi
      have hne : p ≠ q := fun heq => ht (congrArg some heq)
      simp only [apply, ring_comm hi, onCalls_comm hne]
    | pop j op' =>
      replace hi : i ≠ j := hi
      simp only [apply, ring_comm hi, Function.update_of_ne hi.symm]
  | pop i op =>
    cases v with
    | push q j op' =>
      replace hi : i ≠ j := hi
      simp only [apply, ring_comm hi]
      rw [Function.update_of_ne hi]
    | pop j op' => exact absurd rfl ht

/-- A statement leaves the calls of the other producers, -/
theorem apply_calls {u : Stmt τ α} {p : τ} (h : u.thread ≠ some p) (s : State τ α) :
    (u.apply s).calls p = s.calls p := by
  cases u with
  | push q i op => exact onCalls_of_ne (fun heq => h (congrArg some heq)) op s.calls
  | pop i op => rfl

/-- those of the producers leave the read index, -/
theorem apply_readIndex {u : Stmt τ α} (h : u.thread ≠ none) (s : State τ α) :
    (u.apply s).readIndex = s.readIndex := by
  cases u with
  | push q i op => rfl
  | pop i op => exact absurd rfl h

theorem apply_history (u : Stmt τ α) (s : State τ α) : (u.apply s).history = s.history := by
  cases u with
  | push p i op | pop i op => rfl

theorem apply_writeIndex (u : Stmt τ α) (s : State τ α) :
    (u.apply s).writeIndex = s.writeIndex := by
  cases u with
  | push p i op | pop i op => rfl

/-- and a producer's call goes on under it. -/
theorem apply_setCall {u : Stmt τ α} {p : τ} (h : u.thread ≠ some p) (s : State τ α) (c : Call τ α)
    (f : ℕ → ℕ) (hist : History τ α) :
    u.apply { s.setCall p c with writeIndex := f s.writeIndex, history := hist } =
      { (u.apply s).setCall p c with writeIndex := f (u.apply s).writeIndex, history := hist } := by
  cases u with
  | push q i op =>
    have hne : q ≠ p := fun heq => h (congrArg some heq)
    cases op with
    | leave => simp only [apply, State.setCall, onCalls, Function.update_comm hne]
    | moveLine l | setWritten => rfl
  | pop i op => rfl

end Stmt

variable [DecidableEq τ]

def Test.eval (c : Test) (s : State τ α) : Bool := (s.ring c.item).written

omit [DecidableEq τ] in
theorem Test.eval_congr {c : Test} {s u : State τ α} (h : u.ring c.item = s.ring c.item) :
    c.eval u = c.eval s := congrArg Item.written h

def statements (τ α : Type) [DecidableEq τ] :
    Statements (State τ α) (Option τ) ℕ (Stmt τ α) Test where
  apply := Stmt.apply
  eval := Test.eval
  threadOf := Stmt.thread
  lockOf := Stmt.item
  testThread _ := none
  testLock := Test.item
  apply_comm := Stmt.apply_comm
  eval_apply := by
    intro u c s _ hi
    cases u with
    | push p i op => exact Test.eval_congr (Function.update_of_ne (Ne.symm hi) _ _)
    | pop i op => exact Test.eval_congr (Function.update_of_ne (Ne.symm hi) _ _)

/-- The statements of `push` under the lock. -/
def pushCode (p : τ) (i : ℕ) (l : LogLine τ α) : Code (Stmt τ α) Test :=
  .exec (.push p i (.moveLine l)) (.exec (.push p i .setWritten) (.exec (.push p i .leave) .done))

/-- The statements of `try_pop` under the lock. -/
def popCode (i : ℕ) : Code (Stmt τ α) Test :=
  .test ⟨i⟩
    (.exec (.pop i .moveLine) (.exec (.pop i .clearWritten) (.exec (.pop i .advance) .done))) .done

def Action.thread : Action τ α → Option τ
  | .call p _ | .fetchAdd p | .write p => some p
  | .tryPop => none

/-- The actions that are sections, with the item that they lock. -/
def sect (size : ℕ) (s : State τ α) : Action τ α → Option (ℕ × Code (Stmt τ α) Test)
  | .call .. | .fetchAdd _ => none
  | .write p =>
    match s.calls p with
    | .writing i l => some (i, pushCode p i l)
    | _ => none
  | .tryPop => if size = 0 then none else some (s.readIndex % size, popCode (s.readIndex % size))

theorem pushCode_run (p : τ) (i : ℕ) (l : LogLine τ α) (s : State τ α) :
    (pushCode p i l).run (statements τ α) s = (s.write i l).setCall p .idle := by
  simp only [pushCode, Code.run, statements, Stmt.apply, Stmt.onCalls, PushOp.onItem,
    Function.update_self, Function.update_idem, State.write, State.setCall]

theorem popCode_run (size : ℕ) (s : State τ α) :
    (popCode (s.readIndex % size)).run (statements τ α) s = s.tryPop size := by
  simp only [popCode, Code.run, statements, Stmt.apply, PopOp.onItem, PopOp.onIndex, PopOp.moves,
    Function.update_self, Function.update_idem, List.append_nil, State.tryPop, State.readItem,
    Test.eval]
  rfl

/-- The ring buffer with its sections spelled out. -/
def program (τ α : Type) [DecidableEq τ] (size : ℕ) :
    Program (State τ α) (Action τ α) Fault (Option τ) ℕ (Stmt τ α) Test where
  toStatements := statements τ α
  machine := machine τ α size
  thread := Action.thread
  sect := sect size
  sect_by := by
    intro s a i k h
    cases a with
    | call p x | fetchAdd p => cases h
    | write p =>
      simp only [sect] at h
      split at h
      · obtain ⟨rfl, rfl⟩ := Prod.mk.inj (Option.some.inj h)
        exact ⟨⟨rfl, rfl⟩, ⟨rfl, rfl⟩, ⟨rfl, rfl⟩, trivial⟩
      · cases h
    | tryPop =>
      simp only [sect] at h
      split at h
      · cases h
      · obtain ⟨rfl, rfl⟩ := Prod.mk.inj (Option.some.inj h)
        exact ⟨⟨rfl, rfl⟩, ⟨⟨rfl, rfl⟩, ⟨rfl, rfl⟩, ⟨rfl, rfl⟩, trivial⟩, trivial⟩
  act_sect := by
    intro s a i k h
    cases a with
    | call p x | fetchAdd p => cases h
    | write p =>
      simp only [sect] at h
      split at h
      · next i l hp =>
        obtain ⟨rfl, rfl⟩ := Prod.mk.inj (Option.some.inj h)
        rw [pushCode_run]
        simp only [machine, act, hp]
      · cases h
    | tryPop =>
      simp only [sect] at h
      split at h
      · cases h
      · next hsize =>
        obtain ⟨rfl, rfl⟩ := Prod.mk.inj (Option.some.inj h)
        rw [popCode_run]
        exact congrArg some (Machine.check_bind _ hsize _)
  sect_apply := by
    intro s a i k u ht hi h
    cases a with
    | call p x | fetchAdd p => cases h
    | write p =>
      have hcalls := Stmt.apply_calls ht s
      simp only [sect] at h ⊢
      rw [show (statements τ α).apply u s = u.apply s from rfl, hcalls]
      exact h
    | tryPop =>
      have hindex := Stmt.apply_readIndex ht s
      simp only [sect] at h ⊢
      rw [show (statements τ α).apply u s = u.apply s from rfl, hindex]
      exact h
  step_apply := by
    intro s a u ht h
    show sect size (u.apply s) a = none ∧
      act size (u.apply s) a = (act size s a).map (Except.map u.apply)
    cases a with
    | call p x =>
      refine ⟨rfl, ?_⟩
      simp only [act, Stmt.apply_calls ht s, u.apply_history s]
      cases hp : s.calls p with
      | idle => exact congrArg (fun t => some (Except.ok t)) (Stmt.apply_setCall ht s _ id _).symm
      | entered l | writing i l => rfl
    | fetchAdd p =>
      refine ⟨rfl, ?_⟩
      simp only [act, Stmt.apply_calls ht s, u.apply_history s, u.apply_writeIndex s]
      cases hp : s.calls p with
      | entered l =>
        by_cases hsize : size ≠ 0
        · have hset := Stmt.apply_setCall ht s (.writing (s.writeIndex % size) l) (Word.add 64 · 1)
            (s.history.claim l)
          rw [u.apply_writeIndex s] at hset
          simp only [Machine.check_bind _ hsize]
          exact congrArg (fun t => some (Except.ok t)) hset.symm
        · simp only [check, if_neg hsize]
          rfl
      | idle | writing i l => rfl
    | write p =>
      simp only [sect, act, Stmt.apply_calls ht s] at h ⊢
      cases hp : s.calls p with
      | writing i l =>
        rw [hp] at h
        cases h
      | idle | entered l => exact ⟨rfl, rfl⟩
    | tryPop =>
      have hsize : size = 0 := by
        by_contra hn
        simp only [sect, if_neg hn] at h
        cases h
      refine ⟨if_pos hsize, ?_⟩
      simp only [act, check, hsize]
      rfl
  eval_step := by
    intro s s' a c ht h hs
    refine Test.eval_congr ?_
    cases a with
    | call p x =>
      simp only [machine, act] at hs
      split at hs
      · rw [← Except.ok.inj (Option.some.inj hs)]
        rfl
      · cases hs
    | fetchAdd p =>
      simp only [machine, act] at hs
      split at hs
      · obtain ⟨-, hs⟩ := check_bind_eq_ok.mp (Option.some.inj hs)
        rw [← Except.ok.inj hs]
        rfl
      · cases hs
    | write p =>
      simp only [sect] at h
      simp only [machine, act] at hs
      split at hs
      · next i l hp =>
        rw [hp] at h
        cases h
      · cases hs
    | tryPop => exact absurd rfl ht

/-! ## Runs statement by statement -/

/-- Statements under a lock push no new line, and what was popped stays popped. -/
theorem Code.run_kept (k : Code (Stmt τ α) Test) (s : State τ α) :
    (k.run (statements τ α) s).history = s.history ∧
      s.popped <+: (k.run (statements τ α) s).popped := by
  induction k generalizing s with
  | done => exact ⟨rfl, List.prefix_rfl⟩
  | exec u k ih =>
    obtain ⟨hhist, hpop⟩ := ih (u.apply s)
    refine ⟨hhist.trans (u.apply_history s), List.IsPrefix.trans ?_ hpop⟩
    cases u with
    | push p i op => exact List.prefix_rfl
    | pop i op => exact List.prefix_append _ _
  | test c yes no ihy ihn =>
    simp only [Code.run]
    split
    · exact ihy s
    · exact ihn s

theorem finish_kept (size : ℕ) (s : Locked.State (State τ α) (Option τ) ℕ (Stmt τ α) Test) :
    ((program τ α size).finish s).history = s.shared.history ∧
      s.shared.popped <+: ((program τ α size).finish s).popped := by
  unfold Program.finish Program.finishAll
  generalize s.shared = shared
  induction s.running generalizing shared with
  | nil => exact ⟨rfl, List.prefix_rfl⟩
  | cons r R ih =>
    obtain ⟨hhist, hpop⟩ := Code.run_kept r.code shared
    obtain ⟨hhist', hpop'⟩ := ih (r.code.run (statements τ α) shared)
    exact ⟨hhist'.trans hhist, hpop.trans hpop'⟩

variable {size : ℕ} {s : Locked.State (State τ α) (Option τ) ℕ (Stmt τ α) Test}

/-- **The spin locks make the sections atomic**: in every interleaving of the single statements in
which the lines fit into the ring, the state with the sections under way completed is one that the
machine of the atomic sections reaches.  For as long as the reader's counter gives its slot, the lines
moved out are the first of those pushed, in the order of their write indexes, that state is in step,
and no statement is undefined.  An item is locked by one thread at a time, and its holder can always go
on. -/
theorem locked_inStep (hsize : size < 2 ^ 32) (hpos : size ≠ 0)
    (h : (program τ α size).fine.Reach ((program τ α size).lift (Fits size)) s)
    (hsync : Synced size ((program τ α size).finish s)) :
    (machine τ α size).Reach (Fits size) ((program τ α size).finish s) ∧
      s.shared.popped <+: s.shared.history.claimed.map some ∧
      InStep size ((program τ α size).finish s) ∧ (∀ a, ¬ (program τ α size).fine.Faults s a) ∧
      s.threads.Nodup ∧ s.locks.Nodup ∧ (∀ i, s.flag i = true ↔ i ∈ s.locks) ∧
      ∀ r ∈ s.running, ∃ u, (program τ α size).fine.Step s (.statement r.thread) u ∨
        (program τ α size).fine.Step s (.clear r.thread) u := by
  have hreach := Locked.reach_finish h
  have hin := inStep_of_synced hsize hpos hreach hsync
  have hi := Locked.reach_inv h
  obtain ⟨hhist, hpop⟩ := finish_kept size s
  refine ⟨hreach, hpop.trans ?_, hin, fun a hf => ?_, hi.threads, hi.locks, hi.flag,
    fun r hr => Locked.goes_on hr⟩
  · rw [hin.order, hhist]
    exact (List.take_prefix _ _).map some
  · obtain ⟨b, hb⟩ := hi.fault hf
    exact hin.noFault b hb

instance (size : ℕ) (s : State τ α) : (a : Action τ α) → Decidable (Fits size s a)
  | .fetchAdd _ => inferInstanceAs (Decidable (_ < _))
  | .call .. | .write _ | .tryPop => .isTrue trivial

/-- Two producers push; the second spins on no lock of the first, and the reader on that of the first
until its line is there. -/
def spinning : List (Locked.Action (Action ℕ ℕ) (Option ℕ)) :=
  [.step (.call 0 7), .step (.call 1 8), .step (.fetchAdd 0), .step (.fetchAdd 1),
    .testAndSet (.write 0), .statement (some 0), .testAndSet .tryPop, .testAndSet (.write 1),
    .statement (some 1), .statement (some 0), .statement (some 0), .clear (some 0),
    .testAndSet .tryPop, .statement none, .statement none]

theorem locked_inStep_spinning : ∃ s : Locked.State (State ℕ ℕ) (Option ℕ) ℕ (Stmt ℕ ℕ) Test,
    (program ℕ ℕ 2).fine.Reach ((program ℕ ℕ 2).lift (Fits 2)) s ∧ s.locks = [1, 0] ∧
      s.shared.popped = [some ⟨0, 0, 7⟩] ∧
      (machine ℕ ℕ 2).Reach (Fits 2) ((program ℕ ℕ 2).finish s) ∧
      s.shared.popped <+: s.shared.history.claimed.map some := by
  obtain ⟨s, hs, hlocks, hpopped⟩ : ∃ s : Locked.State (State ℕ ℕ) (Option ℕ) ℕ (Stmt ℕ ℕ) Test,
      (program ℕ ℕ 2).fine.exec ((program ℕ ℕ 2).lift (Fits 2)) ⟨init, fun _ => false, []⟩ spinning =
        some s ∧ s.locks = [1, 0] ∧ s.shared.popped = [some ⟨0, 0, 7⟩] := ⟨_, rfl, rfl, rfl⟩
  have hinit : (program ℕ ℕ 2).fine.init ⟨init, fun _ => false, []⟩ := ⟨rfl, fun _ => rfl, rfl⟩
  have hr : (program ℕ ℕ 2).fine.Reach ((program ℕ ℕ 2).lift (Fits 2)) s := .of_exec (.init hinit) hs
  obtain ⟨hreach, hprefix, -⟩ := locked_inStep (by decide) (by decide) hr (.inl (by decide))
  exact ⟨s, hr, hlocks, hpopped, hreach, hprefix⟩

end MengSen.Log.RingBuffer

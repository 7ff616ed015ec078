import MengSen.Lib.Machine
import Mathlib.Data.List.Nodup
import Mathlib.Logic.Function.Basic

/-!
# Lib.Locked — sections under locks are atomic

The actions of a machine are single statements of its threads or whole sections that hold a lock.
`Locked.fine` is the same program with the locks as flags: a thread spins on `test_and_set`, makes
the statements of its section one by one, and clears the flag.

Statements of sections under different locks commute.  So a section may be moved to the point where
its lock was taken: `State.finish` completes the sections under way, in the order in which they
began, and sends every run of the fine program to a run of the machine (`reach_finish`).
-/

namespace Locked

/-- What is left of a section: updates `υ`, and tests `κ` that choose what follows. -/
inductive Code (υ κ : Type)
  | done
  | exec (u : υ) (k : Code υ κ)
  | test (c : κ) (yes no : Code υ κ)

/-- The statements that sections are made of, with the thread and the lock of each. -/
structure Statements (σ τ ι υ κ : Type) where
  apply : υ → σ → σ
  eval : κ → σ → Bool
  threadOf : υ → τ
  lockOf : υ → ι
  testThread : κ → τ
  testLock : κ → ι
  apply_comm : ∀ {u v s}, threadOf u ≠ threadOf v → lockOf u ≠ lockOf v →
    apply u (apply v s) = apply v (apply u s)
  eval_apply : ∀ {u c s}, threadOf u ≠ testThread c → lockOf u ≠ testLock c →
    eval c (apply u s) = eval c s

section Code

variable {σ τ ι υ κ : Type} (S : Statements σ τ ι υ κ)

/-- The section is run to its end. -/
def Code.run : Code υ κ → σ → σ
  | .done, s => s
  | .exec u k, s => k.run (S.apply u s)
  | .test c yes no, s => if S.eval c s then yes.run s else no.run s

/-- All statements are those of the thread `t` under the lock `i`. -/
def Code.By (t : τ) (i : ι) : Code υ κ → Prop
  | .done => True
  | .exec u k => (S.threadOf u = t ∧ S.lockOf u = i) ∧ k.By t i
  | .test c yes no => (S.testThread c = t ∧ S.testLock c = i) ∧ yes.By t i ∧ no.By t i

variable {S} {t : τ} {i : ι} {k : Code υ κ} {u : υ} {c : κ}

theorem Code.By.eval_run (h : k.By S t i) (ht : t ≠ S.testThread c) (hi : i ≠ S.testLock c) (s : σ) :
    S.eval c (k.run S s) = S.eval c s := by
  induction k generalizing s with
  | done => rfl
  | exec u k ih =>
    obtain ⟨⟨rfl, rfl⟩, hk⟩ := h
    exact (ih hk _).trans (S.eval_apply ht hi)
  | test d yes no ihy ihn =>
    obtain ⟨-, hy, hn⟩ := h
    simp only [run]
    split
    · exact ihy hy s
    · exact ihn hn s

theorem Code.By.run_apply (h : k.By S t i) (ht : S.threadOf u ≠ t) (hi : S.lockOf u ≠ i) (s : σ) :
    k.run S (S.apply u s) = S.apply u (k.run S s) := by
  induction k generalizing s with
  | done => rfl
  | exec v k ih =>
    obtain ⟨⟨rfl, rfl⟩, hk⟩ := h
    simp only [run]
    rw [S.apply_comm (Ne.symm ht) (Ne.symm hi), ih hk]
  | test d yes no ihy ihn =>
    obtain ⟨⟨rfl, rfl⟩, hy, hn⟩ := h
    simp only [run, S.eval_apply ht hi]
    split
    · exact ihy hy s
    · exact ihn hn s

end Code

/-- A program: `sect` tells which actions are sections, of which lock, with which statements.  What
another thread does under another lock does not change an action. -/
structure Program (σ α ε τ ι υ κ : Type) extends Statements σ τ ι υ κ where
  machine : Machine σ α ε
  thread : α → τ
  sect : σ → α → Option (ι × Code υ κ)
  sect_by : ∀ {s a i k}, sect s a = some (i, k) → k.By toStatements (thread a) i
  act_sect : ∀ {s a i k}, sect s a = some (i, k) → machine.act s a = some (.ok (k.run toStatements s))
  sect_apply : ∀ {s a i k u}, threadOf u ≠ thread a → lockOf u ≠ i → sect s a = some (i, k) →
    sect (apply u s) a = some (i, k)
  step_apply : ∀ {s a u}, threadOf u ≠ thread a → sect s a = none → sect (apply u s) a = none ∧
    machine.act (apply u s) a = (machine.act s a).map (Except.map (apply u))
  eval_step : ∀ {s s' a c}, testThread c ≠ thread a → sect s a = none →
    machine.act s a = some (.ok s') → eval c s' = eval c s

/-! ## The fine program -/

/-- A section under way. -/
structure Running (τ ι υ κ : Type) where
  thread : τ
  lock : ι
  code : Code υ κ

structure State (σ τ ι υ κ : Type) where
  shared : σ
  flag : ι → Bool
  running : List (Running τ ι υ κ)

inductive Action (α τ : Type)
  /-- a single statement of a thread that is in no section -/
  | step (a : α)
  /-- one round of the loop that takes the lock of the section -/
  | testAndSet (a : α)
  /-- the next statement of the section of the thread -/
  | statement (t : τ)
  /-- the end of the section -/
  | clear (t : τ)

variable {σ α ε τ ι υ κ : Type}

namespace State

variable (s : State σ τ ι υ κ)

def threads : List τ := s.running.map Running.thread

def locks : List ι := s.running.map Running.lock

variable [DecidableEq τ]

def find (t : τ) : Option (Running τ ι υ κ) := s.running.find? fun r => r.thread = t

/-- The section of the thread goes on with `k`. -/
def advance (t : τ) (k : Code υ κ) : List (Running τ ι υ κ) :=
  s.running.map fun r => if r.thread = t then { r with code := k } else r

end State

namespace Program

variable (L : Program σ α ε τ ι υ κ)

/-- The sections `R` are completed one after the other. -/
def finishAll (R : List (Running τ ι υ κ)) (s : σ) : σ :=
  R.foldl (fun s r => r.code.run L.toStatements s) s

/-- The state in which every section under way is completed. -/
def finish (s : State σ τ ι υ κ) : σ := L.finishAll s.running s.shared

variable [DecidableEq τ] [DecidableEq ι]

def fineAct (s : State σ τ ι υ κ) : Action α τ → Option (Except ε (State σ τ ι υ κ))
  | .step a =>
    match L.sect s.shared a with
    | some _ => none
    | none =>
      if L.thread a ∈ s.threads then none
      else (L.machine.act s.shared a).map (Except.map fun t => { s with shared := t })
  | .testAndSet a =>
    match L.sect s.shared a with
    | none => none
    | some (i, k) =>
      if L.thread a ∈ s.threads then none
      else if s.flag i then some (.ok s)
      else some (.ok { s with
        flag := Function.update s.flag i true
        running := s.running ++ [⟨L.thread a, i, k⟩] })
  | .statement t =>
    match (s.find t).map Running.code with
    | some (.exec u k) => some (.ok { s with shared := L.apply u s.shared, running := s.advance t k })
    | some (.test c yes no) =>
      some (.ok { s with running := s.advance t (if L.eval c s.shared then yes else no) })
    | _ => none
  | .clear t =>
    match s.find t with
    | some ⟨_, i, .done⟩ => some (.ok { s with
        flag := Function.update s.flag i false
        running := s.running.filter fun r => r.thread ≠ t })
    | _ => none

/-- The program with its locks as flags. -/
def fine : Machine (State σ τ ι υ κ) (Action α τ) ε where
  init s := L.machine.init s.shared ∧ (∀ i, s.flag i = false) ∧ s.running = []
  act := L.fineAct

/-- A restriction on the actions of the machine, where they begin. -/
def lift (ok : σ → α → Prop) (s : State σ τ ι υ κ) : Action α τ → Prop
  | .step a | .testAndSet a => ok (L.finish s) a
  | .statement _ | .clear _ => True

instance (ok : σ → α → Prop) [∀ s a, Decidable (ok s a)] (s : State σ τ ι υ κ) :
    (a : Action α τ) → Decidable (L.lift ok s a)
  | .step a | .testAndSet a => inferInstanceAs (Decidable (ok (L.finish s) a))
  | .statement _ | .clear _ => .isTrue trivial

end Program

/-! ## Completing sections -/

section Finish

variable {L : Program σ α ε τ ι υ κ} {R : List (Running τ ι υ κ)} {a : α} {i : ι} {k : Code υ κ}

/-- The sections are the statements of their threads, and none is of the thread `t` or the lock `i`. -/
def Apart (L : Program σ α ε τ ι υ κ) (R : List (Running τ ι υ κ)) (t : τ) (i : ι) : Prop :=
  ∀ r ∈ R, r.code.By L.toStatements r.thread r.lock ∧ r.thread ≠ t ∧ r.lock ≠ i

theorem Apart.cons {r : Running τ ι υ κ} {t : τ} {i : ι} (h : Apart L (r :: R) t i) :
    (r.code.By L.toStatements r.thread r.lock ∧ r.thread ≠ t ∧ r.lock ≠ i) ∧ Apart L R t i :=
  ⟨h r List.mem_cons_self, fun q hq => h q (List.mem_cons_of_mem r hq)⟩

theorem Apart.eval {c : κ} (h : Apart L R (L.testThread c) (L.testLock c)) (s : σ) :
    L.eval c (L.finishAll R s) = L.eval c s := by
  induction R generalizing s with
  | nil => rfl
  | cons r R ih =>
    obtain ⟨⟨hby, ht, hi⟩, hR⟩ := h.cons
    exact (ih hR _).trans (hby.eval_run ht hi s)

theorem Apart.apply {u : υ} (h : Apart L R (L.threadOf u) (L.lockOf u)) (s : σ) :
    L.finishAll R (L.apply u s) = L.apply u (L.finishAll R s) := by
  induction R generalizing s with
  | nil => rfl
  | cons r R ih =>
    obtain ⟨⟨hby, ht, hi⟩, hR⟩ := h.cons
    show L.finishAll R (r.code.run L.toStatements (L.apply u s)) = _
    rw [hby.run_apply (Ne.symm ht) (Ne.symm hi), ih hR]
    rfl

/-- Another section does not change which section an action is. -/
theorem sect_run {t : τ} {j : ι} {q : Code υ κ} {s : σ} (hq : q.By L.toStatements t j)
    (ht : t ≠ L.thread a) (hj : j ≠ i) (h : L.sect s a = some (i, k)) :
    L.sect (q.run L.toStatements s) a = some (i, k) := by
  induction q generalizing s with
  | done => exact h
  | exec u q ih =>
    obtain ⟨⟨rfl, rfl⟩, hq⟩ := hq
    exact ih hq (L.sect_apply ht hj h)
  | test c yes no ihy ihn =>
    obtain ⟨-, hy, hn⟩ := hq
    simp only [Code.run]
    split
    · exact ihy hy h
    · exact ihn hn h

theorem Apart.sect (h : Apart L R (L.thread a) i) {s : σ} (hs : L.sect s a = some (i, k)) :
    L.sect (L.finishAll R s) a = some (i, k) := by
  induction R generalizing s with
  | nil => exact hs
  | cons r R ih =>
    obtain ⟨⟨hby, ht, hi⟩, hR⟩ := h.cons
    exact ih hR (sect_run hby ht hi hs)

theorem outcome_id (x : Option (Except ε σ)) : x.map (Except.map fun s => s) = x := by
  rcases x with _ | _ | s
  · rfl
  · rfl
  · rfl

theorem outcome_comp (x : Option (Except ε σ)) (f g : σ → σ) :
    (x.map (Except.map f)).map (Except.map g) = x.map (Except.map fun s => g (f s)) := by
  rcases x with _ | _ | s
  · rfl
  · rfl
  · rfl

/-- A section and a single statement of another thread commute. -/
theorem step_run {t : τ} {j : ι} {q : Code υ κ} {s : σ} (hq : q.By L.toStatements t j)
    (ht : t ≠ L.thread a) (h : L.sect s a = none) :
    L.sect (q.run L.toStatements s) a = none ∧ L.machine.act (q.run L.toStatements s) a =
      (L.machine.act s a).map (Except.map (q.run L.toStatements)) := by
  induction q generalizing s with
  | done => exact ⟨h, (outcome_id _).symm⟩
  | exec u q ih =>
    obtain ⟨⟨rfl, rfl⟩, hq⟩ := hq
    obtain ⟨hsect, hact⟩ := L.step_apply ht h
    obtain ⟨hsect', hact'⟩ := ih hq hsect
    exact ⟨hsect', hact'.trans (by rw [hact, outcome_comp]; rfl)⟩
  | test c yes no ihy ihn =>
    obtain ⟨⟨rfl, rfl⟩, hy, hn⟩ := hq
    obtain ⟨hys, hya⟩ := ihy hy h
    obtain ⟨hns, hna⟩ := ihn hn h
    -- the statement leaves the test as it is, so both sides take the same branch
    have hbranch : ∀ s', L.machine.act s a = some (.ok s') → L.eval c s' = L.eval c s := fun s' =>
      L.eval_step ht h
    by_cases hc : L.eval c s = true
    · simp only [Code.run, if_pos hc]
      refine ⟨hys, hya.trans ?_⟩
      rcases hs : L.machine.act s a with _ | _ | s'
      · rfl
      · rfl
      · simp only [Option.map_some, Except.map, hbranch s' hs, if_pos hc]
    · simp only [Code.run, if_neg hc]
      refine ⟨hns, hna.trans ?_⟩
      rcases hs : L.machine.act s a with _ | _ | s'
      · rfl
      · rfl
      · simp only [Option.map_some, Except.map, hbranch s' hs, if_neg hc]

theorem step_finishAll (h : ∀ r ∈ R, r.code.By L.toStatements r.thread r.lock)
    (ht : ∀ r ∈ R, r.thread ≠ L.thread a) {s : σ} (hs : L.sect s a = none) :
    L.machine.act (L.finishAll R s) a = (L.machine.act s a).map (Except.map (L.finishAll R)) := by
  induction R generalizing s with
  | nil => exact (outcome_id _).symm
  | cons r R ih =>
    obtain ⟨hsect, hact⟩ := step_run (h r List.mem_cons_self) (ht r List.mem_cons_self) hs
    have hR := ih (fun q hq => h q (List.mem_cons_of_mem r hq))
      (fun q hq => ht q (List.mem_cons_of_mem r hq)) hsect
    exact hR.trans (by rw [hact, outcome_comp]; rfl)

theorem finishAll_append (R R' : List (Running τ ι υ κ)) (s : σ) :
    L.finishAll (R ++ R') s = L.finishAll R' (L.finishAll R s) := List.foldl_append ..

end Finish

/-! ## Mutual exclusion -/

/-- Each thread is in one section at most, each lock is held by one, and its flag tells so. -/
structure Inv (L : Program σ α ε τ ι υ κ) (s : State σ τ ι υ κ) : Prop where
  threads : s.threads.Nodup
  locks : s.locks.Nodup
  flag : ∀ i, s.flag i = true ↔ i ∈ s.locks
  code : ∀ r ∈ s.running, r.code.By L.toStatements r.thread r.lock

section Steps

variable {L : Program σ α ε τ ι υ κ} {s s' : State σ τ ι υ κ}

theorem Inv.apart {t : τ} {i : ι} (h : Inv L s) (ht : t ∉ s.threads) (hi : i ∉ s.locks) :
    Apart L s.running t i := fun r hr =>
  ⟨h.code r hr, fun he => ht (he ▸ List.mem_map_of_mem hr), fun he => hi (he ▸ List.mem_map_of_mem hr)⟩

theorem Inv.finish_act {a : α} (h : Inv L s) (hn : L.sect s.shared a = none)
    (ht : L.thread a ∉ s.threads) : L.machine.act (L.finish s) a =
      (L.machine.act s.shared a).map (Except.map (L.finishAll s.running)) :=
  step_finishAll h.code (fun _ hr he => ht (he ▸ List.mem_map_of_mem hr)) hn

variable [DecidableEq τ]

/-- The section of a thread, among those of the others. -/
theorem Inv.split {t : τ} {r : Running τ ι υ κ} (h : Inv L s) (hf : s.find t = some r) :
    r.thread = t ∧ ∃ R₁ R₂, s.running = R₁ ++ r :: R₂ ∧
      (∀ q ∈ R₁ ++ R₂, q.thread ≠ t ∧ q.lock ≠ r.lock) ∧
      (∀ k, s.advance t k = R₁ ++ { r with code := k } :: R₂) ∧
        s.running.filter (fun q => q.thread ≠ t) = R₁ ++ R₂ := by
  obtain ⟨ht, R₁, R₂, hs, -⟩ := List.find?_eq_some_iff_append.mp hf
  obtain rfl := of_decide_eq_true ht
  have hperm : s.running.Perm (r :: (R₁ ++ R₂)) := hs ▸ List.perm_middle
  have hthreads := (hperm.map Running.thread).nodup_iff.mp h.threads
  have hlocks := (hperm.map Running.lock).nodup_iff.mp h.locks
  rw [List.map_cons, List.nodup_cons] at hthreads hlocks
  have hother : ∀ q ∈ R₁ ++ R₂, q.thread ≠ r.thread ∧ q.lock ≠ r.lock := fun q hq =>
    ⟨fun he => hthreads.1 (he ▸ List.mem_map_of_mem hq),
      fun he => hlocks.1 (he ▸ List.mem_map_of_mem hq)⟩
  have hleft : ∀ q ∈ R₁, q.thread ≠ r.thread := fun q hq =>
    (hother q (List.mem_append_left _ hq)).1
  have hright : ∀ q ∈ R₂, q.thread ≠ r.thread := fun q hq =>
    (hother q (List.mem_append_right _ hq)).1
  have hmap : ∀ (k : Code υ κ) (R : List (Running τ ι υ κ)), (∀ q ∈ R, q.thread ≠ r.thread) →
      R.map (fun q => if q.thread = r.thread then { q with code := k } else q) = R := fun k R hR => by
    conv_rhs => rw [← List.map_id R]
    exact List.map_congr_left fun q hq => if_neg (hR q hq)
  refine ⟨rfl, R₁, R₂, hs, hother, fun k => ?_, ?_⟩
  · rw [State.advance, hs, List.map_append, List.map_cons, hmap k R₁ hleft, hmap k R₂ hright,
      if_pos rfl]
  · rw [hs, List.filter_append, List.filter_cons_of_neg (by simp),
      List.filter_eq_self.mpr fun q hq => decide_eq_true (hleft q hq),
      List.filter_eq_self.mpr fun q hq => decide_eq_true (hright q hq)]

/-- The code of one section is replaced by other code of its thread. -/
theorem Inv.advance {t : τ} {r : Running τ ι υ κ} {k : Code υ κ} {shared : σ} (h : Inv L s)
    (hr : s.find t = some r) (hk : k.By L.toStatements r.thread r.lock) :
    Inv L { s with shared := shared, running := s.advance t k } := by
  obtain ⟨-, R₁, R₂, hs, -, hadv, -⟩ := h.split hr
  have hthreads : (s.advance t k).map Running.thread = s.threads := by
    rw [hadv, State.threads, hs, List.map_append, List.map_append, List.map_cons, List.map_cons]
  have hlocks : (s.advance t k).map Running.lock = s.locks := by
    rw [hadv, State.locks, hs, List.map_append, List.map_append, List.map_cons, List.map_cons]
  refine ⟨?_, ?_, fun i => ?_, fun q hq => ?_⟩
  · show ((s.advance t k).map Running.thread).Nodup
    rw [hthreads]
    exact h.threads
  · show ((s.advance t k).map Running.lock).Nodup
    rw [hlocks]
    exact h.locks
  · show s.flag i = true ↔ i ∈ (s.advance t k).map Running.lock
    rw [hlocks]
    exact h.flag i
  · replace hq : q ∈ s.advance t k := hq
    rw [hadv] at hq
    rcases List.mem_append.mp hq with hq | hq
    · exact h.code q (hs ▸ List.mem_append_left _ hq)
    · rcases List.mem_cons.mp hq with rfl | hq
      · exact hk
      · exact h.code q (hs ▸ List.mem_append_right _ (List.mem_cons_of_mem r hq))

variable [DecidableEq ι]

theorem fine_step_cases {a : α} (hs : L.fine.Step s (.step a) s') :
    L.sect s.shared a = none ∧ L.thread a ∉ s.threads ∧
      ∃ u, L.machine.Step s.shared a u ∧ { s with shared := u } = s' := by
  simp only [Machine.Step, Program.fine, Program.fineAct] at hs
  split at hs
  · cases hs
  · next hn =>
    split at hs
    · cases hs
    · next ht =>
      obtain ⟨x, hx, hs⟩ := Option.map_eq_some_iff.mp hs
      cases x with
      | error e => cases hs
      | ok u => exact ⟨hn, ht, u, hx, Except.ok.inj hs⟩

theorem fine_testAndSet_cases {a : α} (hs : L.fine.Step s (.testAndSet a) s') :
    ∃ i k, L.sect s.shared a = some (i, k) ∧ L.thread a ∉ s.threads ∧
      ((s.flag i = true ∧ s = s') ∨ (s.flag i = false ∧ { s with
        flag := Function.update s.flag i true
        running := s.running ++ [⟨L.thread a, i, k⟩] } = s')) := by
  simp only [Machine.Step, Program.fine, Program.fineAct] at hs
  split at hs
  · cases hs
  · next i k hn =>
    split at hs
    · cases hs
    · next ht =>
      refine ⟨i, k, hn, ht, ?_⟩
      split at hs
      · next hf => exact .inl ⟨hf, Except.ok.inj (Option.some.inj hs)⟩
      · next hf => exact .inr ⟨Bool.eq_false_iff.mpr hf, Except.ok.inj (Option.some.inj hs)⟩

theorem fine_statement_cases {t : τ} (hs : L.fine.Step s (.statement t) s') :
    ∃ r, s.find t = some r ∧
      ((∃ u k, r.code = .exec u k ∧
          { s with shared := L.apply u s.shared, running := s.advance t k } = s') ∨
        ∃ c yes no, r.code = .test c yes no ∧
          { s with running := s.advance t (if L.eval c s.shared then yes else no) } = s') := by
  simp only [Machine.Step, Program.fine, Program.fineAct] at hs
  split at hs
  · next u k hc =>
    obtain ⟨r, hr, hc⟩ := Option.map_eq_some_iff.mp hc
    exact ⟨r, hr, .inl ⟨u, k, hc, Except.ok.inj (Option.some.inj hs)⟩⟩
  · next c yes no hc =>
    obtain ⟨r, hr, hc⟩ := Option.map_eq_some_iff.mp hc
    exact ⟨r, hr, .inr ⟨c, yes, no, hc, Except.ok.inj (Option.some.inj hs)⟩⟩
  · cases hs

theorem fine_clear_cases {t : τ} (hs : L.fine.Step s (.clear t) s') :
    ∃ r, s.find t = some r ∧ r.code = .done ∧ { s with
      flag := Function.update s.flag r.lock false
      running := s.running.filter fun q => q.thread ≠ t } = s' := by
  simp only [Machine.Step, Program.fine, Program.fineAct] at hs
  split at hs
  · next q i hr => exact ⟨_, hr, rfl, Except.ok.inj (Option.some.inj hs)⟩
  · cases hs

/-- **Step lemma**: the locks exclude each other. -/
theorem Inv.step {a : Action α τ} (h : Inv L s) (hs : L.fine.Step s a s') : Inv L s' := by
  cases a with
  | step a =>
    obtain ⟨-, -, u, -, rfl⟩ := fine_step_cases hs
    exact { h with }
  | testAndSet a =>
    obtain ⟨i, k, hsect, ht, ⟨-, rfl⟩ | ⟨hf, rfl⟩⟩ := fine_testAndSet_cases hs
    · exact h
    have hi : i ∉ s.locks := fun hmem => by
      rw [(h.flag i).mpr hmem] at hf
      cases hf
    refine ⟨?_, ?_, fun j => ?_, fun q hq => ?_⟩
    · rw [State.threads, List.map_append]
      exact List.Nodup.append h.threads (List.nodup_singleton _)
        (List.disjoint_singleton.mpr ht)
    · rw [State.locks, List.map_append]
      exact List.Nodup.append h.locks (List.nodup_singleton _)
        (List.disjoint_singleton.mpr hi)
    · show Function.update s.flag i true j = true ↔ j ∈ (s.running ++ [_]).map Running.lock
      rw [List.map_append, List.mem_append, List.map_singleton, List.mem_singleton]
      by_cases hj : j = i
      · simp [hj]
      · rw [Function.update_of_ne hj, h.flag j]
        exact ⟨.inl, fun hm => hm.resolve_right hj⟩
    · rcases List.mem_append.mp hq with hq | hq
      · exact h.code q hq
      · obtain rfl := List.mem_singleton.mp hq
        exact L.sect_by hsect
  | statement t =>
    obtain ⟨r, hr, ⟨u, k, hc, rfl⟩ | ⟨c, yes, no, hc, rfl⟩⟩ := fine_statement_cases hs
    · have hby := h.code r (List.mem_of_find?_eq_some hr)
      rw [hc] at hby
      exact h.advance hr hby.2
    · have hby := h.code r (List.mem_of_find?_eq_some hr)
      rw [hc] at hby
      refine h.advance hr ?_
      split
      · exact hby.2.1
      · exact hby.2.2
  | clear t =>
    obtain ⟨r, hr, -, rfl⟩ := fine_clear_cases hs
    obtain ⟨rfl, R₁, R₂, hs, hother, -, hfilter⟩ := h.split hr
    have hsub : List.Sublist (R₁ ++ R₂) s.running := hfilter ▸ List.filter_sublist
    rw [hfilter]
    refine ⟨h.threads.sublist (hsub.map _), h.locks.sublist (hsub.map _), fun i => ?_,
      fun q hq => h.code q (hsub.subset hq)⟩
    show Function.update s.flag r.lock false i = true ↔ i ∈ (R₁ ++ R₂).map Running.lock
    by_cases hi : i = r.lock
    · subst hi
      rw [Function.update_self]
      refine ⟨nofun, fun hm => ?_⟩
      obtain ⟨q, hq, heq⟩ := List.mem_map.mp hm
      exact absurd heq (hother q hq).2
    · rw [Function.update_of_ne hi, h.flag i, State.locks, hs]
      simp only [List.map_append, List.map_cons, List.mem_append, List.mem_cons]
      exact ⟨fun hm => hm.imp_right fun hm => hm.resolve_left hi, fun hm => hm.imp_right .inr⟩

theorem reach_inv {ok : State σ τ ι υ κ → Action α τ → Prop} (h : L.fine.Reach ok s) : Inv L s := by
  refine Machine.Reach.induct ?_ ?_ h
  · rintro s ⟨-, hf, hr⟩
    refine ⟨?_, ?_, fun i => ?_, ?_⟩
    · rw [State.threads, hr]
      exact List.nodup_nil
    · rw [State.locks, hr]
      exact List.nodup_nil
    · rw [hf i, State.locks, hr]
      exact ⟨nofun, nofun⟩
    · rw [hr]
      exact fun q hq => absurd hq List.not_mem_nil
  · intro s a s' _ hi _ hs
    exact hi.step hs

/-! ## Every run is a run of the machine -/

/-- A section is moved to the point where its lock is taken. -/
theorem finish_step {ok : σ → α → Prop} {a : Action α τ} (h : Inv L s) (hok : L.lift ok s a)
    (hs : L.fine.Step s a s') : L.machine.Path ok (L.finish s) (L.finish s') := by
  cases a with
  | step a =>
    obtain ⟨hn, ht, u, hu, rfl⟩ := fine_step_cases hs
    refine .single hok ?_
    show L.machine.act (L.finish s) a = _
    rw [h.finish_act hn ht, hu]
    rfl
  | testAndSet a =>
    obtain ⟨i, k, hsect, ht, ⟨-, rfl⟩ | ⟨hf, rfl⟩⟩ := fine_testAndSet_cases hs
    · exact .refl
    have hi : i ∉ s.locks := fun hmem => by
      rw [(h.flag i).mpr hmem] at hf
      cases hf
    have hact := L.act_sect ((h.apart ht hi).sect hsect)
    refine .single hok ?_
    show L.machine.act (L.finish s) a = some (.ok (L.finishAll (s.running ++ [_]) s.shared))
    rw [finishAll_append]
    exact hact
  | statement t =>
    obtain ⟨r, hr, hstep⟩ := fine_statement_cases hs
    have hby := h.code r (List.mem_of_find?_eq_some hr)
    obtain ⟨-, R₁, R₂, hR, hother, hadv, -⟩ := h.split hr
    -- the sections before this one are completed first, and do not touch what it touches
    have hapart : ∀ q ∈ R₁, q.code.By L.toStatements q.thread q.lock ∧ q.thread ≠ r.thread ∧
        q.lock ≠ r.lock := fun q hq => by
      have hne := hother q (List.mem_append_left _ hq)
      exact ⟨h.code q (hR ▸ List.mem_append_left _ hq), (h.split hr).1 ▸ hne.1, hne.2⟩
    suffices heq : L.finish s' = L.finish s by
      rw [heq]
      exact .refl
    rcases hstep with ⟨u, k, hc, rfl⟩ | ⟨c, yes, no, hc, rfl⟩
    · rw [hc] at hby
      obtain ⟨⟨hu, hi⟩, -⟩ := hby
      have hcomm : L.finishAll R₁ (L.apply u s.shared) = L.apply u (L.finishAll R₁ s.shared) :=
        Apart.apply (hu ▸ hi ▸ hapart) s.shared
      show L.finishAll (s.advance t k) (L.apply u s.shared) = L.finishAll s.running s.shared
      rw [hadv, hR, finishAll_append, finishAll_append, hcomm]
      show L.finishAll R₂ (k.run L.toStatements _) = L.finishAll R₂ (r.code.run L.toStatements _)
      rw [hc]
      rfl
    · rw [hc] at hby
      obtain ⟨⟨hu, hi⟩, -⟩ := hby
      have heval : L.eval c (L.finishAll R₁ s.shared) = L.eval c s.shared :=
        Apart.eval (hu ▸ hi ▸ hapart) s.shared
      show L.finishAll (s.advance t _) s.shared = L.finishAll s.running s.shared
      rw [hadv, hR, finishAll_append, finishAll_append]
      show L.finishAll R₂ (Code.run L.toStatements _ _) = L.finishAll R₂ (r.code.run L.toStatements _)
      rw [hc, Code.run, heval]
      split
      · rfl
      · rfl
  | clear t =>
    obtain ⟨r, hr, hc, rfl⟩ := fine_clear_cases hs
    obtain ⟨rfl, R₁, R₂, hR, -, -, hfilter⟩ := h.split hr
    suffices heq : L.finishAll (R₁ ++ R₂) s.shared = L.finish s by
      show L.machine.Path ok (L.finish s) (L.finishAll (s.running.filter _) s.shared)
      rw [hfilter, heq]
      exact .refl
    show _ = L.finishAll s.running s.shared
    rw [hR, finishAll_append, finishAll_append]
    show _ = L.finishAll R₂ (r.code.run L.toStatements _)
    rw [hc]
    rfl

/-- **Sections under locks are atomic**: with the sections under way completed, every state that the
fine program reaches is one that the machine reaches. -/
theorem reach_finish {ok : σ → α → Prop} (h : L.fine.Reach (L.lift ok) s) :
    L.machine.Reach ok (L.finish s) := by
  refine Machine.Reach.map L.finish ?_ ?_ h
  · rintro s ⟨hi, -, hr⟩
    rw [Program.finish, hr]
    exact hi
  · intro s a s' hr ho hs
    exact finish_step (reach_inv hr) ho hs

/-- What fails in the fine program fails in the machine. -/
theorem Inv.fault {a : Action α τ} (h : Inv L s) (hf : L.fine.Faults s a) :
    ∃ b, L.machine.Faults (L.finish s) b := by
  obtain ⟨e, he⟩ := hf
  simp only [Program.fine, Program.fineAct] at he
  cases a with
  | step a =>
    simp only at he
    split at he
    · cases he
    · next hn =>
      split at he
      · cases he
      · next ht =>
        obtain ⟨x, hx, he⟩ := Option.map_eq_some_iff.mp he
        cases x with
        | ok u => cases he
        | error e' => exact ⟨a, e', by rw [h.finish_act hn ht, hx]; rfl⟩
  | testAndSet a =>
    simp only at he
    split at he
    · cases he
    · split at he
      · cases he
      · split at he <;> cases he
  | statement t =>
    simp only at he
    split at he <;> cases he
  | clear t =>
    simp only at he
    split at he <;> cases he

/-- The holder of a lock can always go on: no flag stays set for want of a step. -/
theorem goes_on {r : Running τ ι υ κ} (hr : r ∈ s.running) :
    ∃ s', L.fine.Step s (.statement r.thread) s' ∨ L.fine.Step s (.clear r.thread) s' := by
  obtain ⟨q, hq⟩ : ∃ q, s.find r.thread = some q :=
    Option.isSome_iff_exists.mp (List.find?_isSome.mpr ⟨r, hr, decide_eq_true rfl⟩)
  obtain ⟨t, i, code⟩ := q
  cases code with
  | done =>
    refine ⟨{ s with
      flag := Function.update s.flag i false
      running := s.running.filter fun q => q.thread ≠ r.thread }, .inr ?_⟩
    simp only [Machine.Step, Program.fine, Program.fineAct, hq]
  | exec u k =>
    refine ⟨{ s with shared := L.apply u s.shared, running := s.advance r.thread k }, .inl ?_⟩
    simp only [Machine.Step, Program.fine, Program.fineAct, hq, Option.map_some]
  | test c yes no =>
    refine ⟨{ s with
      running := s.advance r.thread (if L.eval c s.shared then yes else no) }, .inl ?_⟩
    simp only [Machine.Step, Program.fine, Program.fineAct, hq, Option.map_some]

end Steps

end Locked

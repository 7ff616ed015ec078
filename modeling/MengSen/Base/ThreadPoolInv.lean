import MengSen.Base.ThreadPool

/-!
# Base.ThreadPoolInv — the order of the tasks and their wakeups

`Inv`: the tasks removed and the queue are the tasks accepted; the waiters of both condition
variables are covered by notifications; once `running_` is false no worker waits.  `Inv.step` covers
every step of every thread, `dispatched` states what it means.
-/

namespace MengSen.ThreadPool

open Machine (anyAction)

variable {Φ τ : Type} {P : Pool} {s u : State Φ τ}

/-! ## The invariant -/

/-- The removals by one worker, in their order. -/
def State.removedBy (s : State Φ τ) (i : ℕ) : List (Task Φ) :=
  (s.removed.filter fun p => p.1 = i).map Prod.snd

/-- The worker is in `take`. -/
def InTake (P : Pool) (s : State Φ τ) (i : ℕ) : Prop := i < P.threads ∧ (s.workers i).inTake = true

/-- The thread is in `run`. -/
def InRun (s : State Φ τ) (t : Tid τ) : Prop := (s.calls t).isSome = true

/-- The invariant of the pool. -/
structure Inv (P : Pool) (s : State Φ τ) : Prop where
  order : s.removed.map Prod.snd ++ s.queue = s.accepted
  bound : 0 < P.maxQueueSize → s.queue.length ≤ P.maxQueueSize
  notEmpty : s.notEmpty.Covers s.queue.length
  notFull : s.notFull.Covers (P.maxQueueSize - s.queue.length)
  stopped : s.running = false → s.notEmpty.waiting = []
  stopper : s.stopper ≠ .idle → s.running = false
  takers : s.notEmpty.Holds (InTake P s)
  runners : s.notFull.Holds (InRun s)
  tasks : ∀ i f, s.workers i = .task f → (s.removedBy i).getLast? = some (some f)

section Frames

theorem init_inv : Inv P (init : State Φ τ) where
  order := rfl
  bound _ := Nat.zero_le _
  notEmpty := CondVar.covers_empty
  notFull := CondVar.covers_empty
  stopped _ := rfl
  stopper h := absurd rfl h
  takers := CondVar.holds_empty
  runners := CondVar.holds_empty
  tasks i f h := by cases h

/-- A step of the worker `i` moves no other worker that waits. -/
theorem InTake.frame {c : CondVar ℕ} {i : ℕ} (h : c.Holds (InTake P s)) (hi : i ∉ c.threads)
    (hw : ∀ j, j ≠ i → u.workers j = s.workers j) : c.Holds (InTake P u) := by
  refine h.imp fun j hj hs => ?_
  have hne : j ≠ i := fun heq => hi (heq ▸ hj)
  rw [InTake, hw j hne]
  exact hs

/-- A call or a return of `t` moves no other caller that waits. -/
theorem InRun.frame {c : CondVar (Tid τ)} {t : Tid τ} (h : c.Holds (InRun s)) (ht : t ∉ c.threads)
    (hcalls : ∀ v, v ≠ t → u.calls v = s.calls v) : c.Holds (InRun u) := by
  refine h.imp fun v hv hs => ?_
  have hne : v ≠ t := fun heq => ht (heq ▸ hv)
  rw [InRun, hcalls v hne]
  exact hs

/-- A worker outside `take` is not among the threads of `notEmpty_`. -/
theorem InTake.not_mem {c : CondVar ℕ} {i : ℕ} (h : c.Holds (InTake P s))
    (hi : (s.workers i).inTake = false) : i ∉ c.threads := by
  intro hmem
  have hin := (h.all i hmem).2
  rw [hi] at hin
  cases hin

theorem setWorker_of_ne {i j : ℕ} {pc : WorkerPc Φ} (h : j ≠ i) :
    (s.setWorker i pc).workers j = s.workers j := Function.update_of_ne h _ _

theorem setWorker_self {i : ℕ} {pc : WorkerPc Φ} : (s.setWorker i pc).workers i = pc :=
  Function.update_self _ _ _

/-- A worker that does not wait goes to a point outside `task`. -/
theorem Inv.setWorker {i : ℕ} {pc : WorkerPc Φ} (h : Inv P s) (hi : i ∉ s.notEmpty.threads)
    (hpc : ∀ f, pc ≠ .task f) : Inv P (s.setWorker i pc) := by
  refine { h with takers := ?_, runners := h.runners, tasks := ?_ }
  · exact InTake.frame h.takers hi fun j hj => setWorker_of_ne hj
  · intro j f hj
    by_cases hji : j = i
    · rw [hji, setWorker_self] at hj
      exact absurd hj (hpc f)
    · rw [setWorker_of_ne hji] at hj
      exact h.tasks j f hj

/-- What a worker removes is its last removal, and no other's. -/
theorem Inv.tasks_taken {i : ℕ} {task : Task Φ} (h : Inv P s) (j : ℕ) (f : Φ)
    (hj : (s.taken i task).workers j = .task f) :
    ((s.taken i task).removedBy j).getLast? = some (some f) := by
  have hrem : (s.taken i task).removedBy j =
      s.removedBy j ++ (if i = j then [task] else []) := by
    by_cases hij : i = j
    · simp [State.removedBy, State.taken, List.filter_append, hij]
    · simp [State.removedBy, State.taken, List.filter_append, hij]
  rw [hrem]
  by_cases hij : i = j
  · subst hij
    replace hj : (s.setWorker i (task.elim .test .task)).workers i = .task f := hj
    rw [setWorker_self] at hj
    rcases task with _ | g
    · cases hj
    · obtain rfl := WorkerPc.task.inj hj
      rw [if_pos rfl, List.getLast?_append_of_ne_nil _ (List.cons_ne_nil _ _)]
      rfl
  · replace hj : (s.setWorker i (task.elim .test .task)).workers j = .task f := hj
    rw [setWorker_of_ne (Ne.symm hij)] at hj
    rw [if_neg hij, List.append_nil]
    exact h.tasks j f hj

end Frames

variable [DecidableEq τ]

/-! ## Steps -/

/-- A locked section of `run`. -/
theorem Inv.run {t : Tid τ} {task : Task Φ} {w : Option ℕ} (h : Inv P s)
    (hc : s.calls t = some task) (hb : t ∉ s.notFull.waiting)
    (hu : { s with notFull := s.notFull.resume t }.run P t task w = some (.ok u)) : Inv P u := by
  have hnotFull := h.notFull.resume t
  have hrunners := h.runners.resume t
  have hin : t ∉ (s.notFull.resume t).threads := h.runners.not_mem_resume hb
  rcases run_cases hu with ⟨hf, heq⟩ | ⟨hf, d, hd, heq⟩
  · obtain rfl := Except.ok.inj heq
    have hfull : P.maxQueueSize ≤ s.queue.length := by
      simp only [State.isFull, Bool.and_eq_true, decide_eq_true_eq] at hf
      exact hf.2
    refine { h with notFull := ?_, takers := h.takers, runners := hrunners.wait hin ?_ }
    · show (CondVar.wait _ t).Covers (P.maxQueueSize - s.queue.length)
      rw [Nat.sub_eq_zero_of_le hfull]
      exact CondVar.covers_zero
    · show (s.calls t).isSome = true
      rw [hc]
      rfl
  · obtain rfl := Except.ok.inj heq
    have hroom : 0 < P.maxQueueSize → s.queue.length < P.maxQueueSize := by
      simpa [State.isFull] using hf
    have hlen : (s.queue ++ [task]).length = s.queue.length + 1 := by
      rw [List.length_append, List.length_singleton]
    have hcalls : ∀ v, v ≠ t → Function.update s.calls t none v = s.calls v :=
      fun v hv => Function.update_of_ne hv _ _
    refine ⟨?_, ?_, ?_, ?_, ?_, h.stopper, h.takers.notifyOne hd, ?_, h.tasks⟩
    · show s.removed.map Prod.snd ++ (s.queue ++ [task]) = s.accepted ++ [task]
      rw [← List.append_assoc, h.order]
    · intro hm
      show (s.queue ++ [task]).length ≤ P.maxQueueSize
      rw [hlen]
      exact hroom hm
    · show d.Covers (s.queue ++ [task]).length
      rw [hlen]
      exact h.notEmpty.notifyOne hd
    · show (s.notFull.resume t).Covers (P.maxQueueSize - (s.queue ++ [task]).length)
      rw [hlen, ← Nat.sub_sub]
      exact hnotFull
    · intro hr
      exact CondVar.notifyOne_waiting_nil (h.stopped hr) hd
    · exact InRun.frame hrunners hin hcalls

/-- A locked section of `take`. -/
theorem Inv.take {i : ℕ} {w : Option (Tid τ)} (h : Inv P s) (hi : InTake P s i)
    (hb : i ∉ s.notEmpty.waiting)
    (hu : { s with notEmpty := s.notEmpty.resume i }.take P i w = some (.ok u)) : Inv P u := by
  have hnotEmpty := h.notEmpty.resume i
  have htakers := h.takers.resume i
  have hin : i ∉ (s.notEmpty.resume i).threads := h.takers.not_mem_resume hb
  rcases take_cases hu with ⟨hq, hr, heq⟩ | ⟨hq, hr, heq⟩ | ⟨task, rest, d, hq, heq, hd⟩
  · obtain rfl := Except.ok.inj heq
    replace hq : s.queue = [] := hq
    replace hr : s.running = true := hr
    refine { h with notEmpty := ?_, stopped := ?_, takers := htakers.wait hin hi,
                    runners := h.runners }
    · show (CondVar.wait _ i).Covers s.queue.length
      rw [hq]
      exact CondVar.covers_zero
    · intro hr'
      replace hr' : s.running = false := hr'
      rw [hr] at hr'
      cases hr'
  · obtain rfl := Except.ok.inj heq
    replace hq : s.queue = [] := hq
    have hresumed : Inv P { s with notEmpty := s.notEmpty.resume i } := by
      refine { h with notEmpty := ?_, takers := htakers, runners := h.runners }
      show (s.notEmpty.resume i).Covers s.queue.length
      rw [hq]
      exact CondVar.covers_zero
    exact hresumed.setWorker hin nofun
  · obtain rfl := Except.ok.inj heq
    replace hq : s.queue = task :: rest := hq
    have hlen : s.queue.length = rest.length + 1 := by rw [hq, List.length_cons]
    refine ⟨?_, ?_, ?_, ?_, h.stopped, h.stopper, ?_, ?_, h.tasks_taken⟩
    · show (s.removed ++ [(i, task)]).map Prod.snd ++ rest = s.accepted
      rw [List.map_append, List.append_assoc, ← h.order, hq]
      rfl
    · intro hm
      have hle := h.bound hm
      show rest.length ≤ P.maxQueueSize
      omega
    · show (s.notEmpty.resume i).Covers rest.length
      rw [hlen, Nat.add_sub_cancel] at hnotEmpty
      exact hnotEmpty
    · show d.Covers (P.maxQueueSize - rest.length)
      rcases hd with ⟨hm, hd⟩ | ⟨hm, rfl⟩
      · have hle := h.bound hm
        have hfree : P.maxQueueSize - rest.length = P.maxQueueSize - s.queue.length + 1 := by omega
        rw [hfree]
        exact h.notFull.notifyOne hd
      · rw [hm, Nat.zero_sub]
        exact CondVar.covers_zero
    · exact InTake.frame htakers hin fun j hj => setWorker_of_ne hj
    · rcases hd with ⟨-, hd⟩ | ⟨-, rfl⟩
      · exact h.runners.notifyOne hd
      · exact h.runners

/-- **Step lemma**: every step of any thread keeps the invariant. -/
theorem Inv.step {a : Action Φ τ} (h : Inv P s) (hs : (machine Φ τ P).Step s a u) : Inv P u := by
  cases effect hs with
  | callHere hu => exact h
  | @call t task hu =>
    have hcalls : ∀ v, v ≠ t → Function.update s.calls t (some task) v = s.calls v :=
      fun v hv => Function.update_of_ne hv _ _
    refine { h with takers := h.takers, runners := InRun.frame h.runners ?_ hcalls }
    intro hmem
    have hin : (s.calls t).isSome = true := h.runners.all t hmem
    rw [Option.isNone_iff_eq_none.mp hu.1] at hin
    cases hin
  | lockRun hb hc hrun => exact h.run hc hb hrun
  | @userReturns i hi huser =>
    refine h.setWorker (InTake.not_mem h.takers ?_) nofun
    cases hw : s.workers i <;> simp_all [WorkerPc.inUserCode, WorkerPc.inTake]
  | @testRunning i hi htest =>
    refine h.setWorker (InTake.not_mem h.takers ?_) ?_
    · cases hw : s.workers i <;> simp_all [WorkerPc.isTest, WorkerPc.inTake]
    · intro f
      split <;> nofun
  | lockTake hi hin hb htake => exact h.take ⟨hi, hin⟩ hb htake
  | stop hidle =>
    exact { h with
      notEmpty := CondVar.covers_notifyAll
      stopped := fun _ => rfl
      stopper := fun _ => rfl
      takers := h.takers.notifyAll
      runners := h.runners }
  | join hk _ _ | joined hk _ =>
    have hrun : s.running = false := h.stopper (by rw [hk]; nofun)
    exact { h with stopper := fun _ => hrun, takers := h.takers, runners := h.runners }
  | @wakeWorker i hw =>
    refine { h with notEmpty := h.notEmpty.wake i, stopped := ?_, takers := h.takers.wake i,
                    runners := h.runners }
    intro hr
    show s.notEmpty.waiting.erase i = []
    rw [h.stopped hr, List.erase_nil]
  | @wakeCaller t hw =>
    exact { h with
      notFull := h.notFull.wake t, takers := h.takers, runners := h.runners.wake t }

/-- **Run lemma**: the invariant holds of every state reached. -/
theorem reach_inv {ok : State Φ τ → Action Φ τ → Prop} (h : (machine Φ τ P).Reach ok s) :
    Inv P s := by
  refine Machine.Reach.induct ?_ ?_ h
  · rintro s rfl
    exact init_inv
  · intro s a u _ hi _ hs
    exact hi.step hs

/-! ## Dispatching -/

/-- **The pool dispatches its tasks**: what the workers remove is a prefix of what `run` accepted,
each removal by one worker, which runs it; the queue keeps its bound; while the pool runs, a thread
that waits un-notified leaves no more tasks, or free slots, than notified threads; and from the
locked section of `stop` on no worker waits. -/
theorem dispatched (h : (machine Φ τ P).Reach anyAction s) :
    s.removed.map Prod.snd <+: s.accepted ∧
      (∀ i f, s.workers i = .task f → (s.removedBy i).getLast? = some (some f)) ∧
      (0 < P.maxQueueSize → s.queue.length ≤ P.maxQueueSize) ∧
      (s.running = true →
        (∀ i ∈ s.notEmpty.waiting, s.queue.length ≤ s.notEmpty.notified.length) ∧
        ∀ t ∈ s.notFull.waiting,
          P.maxQueueSize - s.queue.length ≤ s.notFull.notified.length) ∧
      (s.stopper ≠ .idle → s.notEmpty.waiting = []) ∧
      s.notEmpty.Holds (InTake P s) ∧ s.notFull.Holds (InRun s) := by
  have hi := reach_inv h
  refine ⟨⟨_, hi.order⟩, hi.tasks, hi.bound, fun _ => ⟨fun i hw => ?_, fun t hw => ?_⟩, fun hp => ?_,
    hi.takers, hi.runners⟩
  · exact hi.notEmpty (List.ne_nil_of_mem hw)
  · exact hi.notFull (List.ne_nil_of_mem hw)
  · exact hi.stopped (hi.stopper hp)

/-- Two workers, one slot: a task is handed over, a caller waits for the slot and is woken, and
`stop` wakes the worker that waits. -/
def handOver : List (Action ℕ ℕ) :=
  [.userReturns 0, .testRunning 0, .lockTake 0 none, .userReturns 1, .testRunning 1,
    .lockTake 1 none, .call (.caller 0) (some 7), .lockRun (.caller 0) (some 0),
    .call (.caller 1) (some 8), .lockRun (.caller 1) none, .lockTake 0 (some (.caller 1)), .stop]

theorem dispatched_handOver : ∃ s : State ℕ ℕ,
    (machine ℕ ℕ ⟨2, 1⟩).Reach anyAction s ∧ s.removed = [(0, some 7)] ∧
      s.notFull.notified = [.caller 1] ∧ s.removed.map Prod.snd <+: s.accepted ∧
      s.notEmpty.waiting = [] := by
  obtain ⟨s, hs, hremoved, hnotified, hstop⟩ : ∃ s : State ℕ ℕ,
      (machine ℕ ℕ ⟨2, 1⟩).exec anyAction init handOver = some s ∧ s.removed = [(0, some 7)] ∧
        s.notFull.notified = [.caller 1] ∧ s.stopper = .joining 0 := ⟨_, rfl, rfl, rfl, rfl⟩
  have hr : (machine ℕ ℕ ⟨2, 1⟩).Reach anyAction s := .of_exec (.init rfl) hs
  obtain ⟨horder, -, -, -, hwaiting, -⟩ := dispatched hr
  exact ⟨s, hr, hremoved, hnotified, horder, hwaiting (by rw [hstop]; nofun)⟩

end MengSen.ThreadPool

import MengSen.Base.ThreadPoolInv

/-!
# Base.ThreadPoolStop — who is left waiting after `stop`

`stop` wakes the workers only: a caller of `run` that waits on `notFull_` depends on a later `take`,
and there is none once the last worker has left its loop.  `released` covers the runs in which no
caller waits un-notified at that point and the queue has room afterwards; `left_waiting` shows that
a step outside these leads to a state in which `stop` has returned and a caller still waits.
-/

namespace MengSen.ThreadPool

open Machine (guarded_eq anyAction)

variable {Φ τ : Type} {P : Pool} {s u : State Φ τ}

/-- All workers have left `runInThread`. -/
def AllDone (P : Pool) (s : State Φ τ) : Prop := ∀ i < P.threads, (s.workers i).isDone = true

instance (P : Pool) (s : State Φ τ) : Decidable (AllDone P s) :=
  inferInstanceAs (Decidable (∀ i < P.threads, _))

/-- The worker `i` leaves its loop, and is the last one. -/
def LastLeaves (P : Pool) (s : State Φ τ) (i : ℕ) : Prop :=
  s.running = false ∧ ∀ j < P.threads, j ≠ i → (s.workers j).isDone = true

instance (P : Pool) (s : State Φ τ) (i : ℕ) : Decidable (LastLeaves P s i) :=
  inferInstanceAs (Decidable (_ ∧ ∀ j < P.threads, _))

/-- The last worker leaves no caller waiting, and after it `run` finds room.  Nothing in the code sees to
it: this asks of the schedule that the callers that wait are woken by the workers that still take tasks,
and that the queue is not full when the last of them leaves and callers come later. -/
def Releases (P : Pool) (s : State Φ τ) : Action Φ τ → Prop
  | .testRunning i => LastLeaves P s i → s.notFull.waiting = []
  | .lockRun _ _ => AllDone P s → s.isFull P = false
  | _ => True

instance (P : Pool) (s : State Φ τ) : (a : Action Φ τ) → Decidable (Releases P s a)
  | .testRunning i => inferInstanceAs (Decidable (LastLeaves P s i → _))
  | .lockRun _ _ => inferInstanceAs (Decidable (AllDone P s → _))
  | .call _ _ | .userReturns _ | .lockTake _ _ | .stop | .join | .wakeWorker _ | .wakeCaller _ =>
    inferInstanceAs (Decidable True)

/-! ## What a step changes -/

variable [DecidableEq τ] {a : Action Φ τ}

/-- A locked section of `run` leaves the workers and the shutdown alone; it makes its caller wait
only when the queue is full. -/
theorem run_frame {t : Tid τ} {task : Task Φ} {w : Option ℕ}
    (h : { s with notFull := s.notFull.resume t }.run P t task w = some (.ok u)) :
    u.workers = s.workers ∧ u.stopper = s.stopper ∧ u.running = s.running ∧
      (u.notFull.waiting = s.notFull.waiting ∧ s.isFull P = false ∨
        u.notFull.waiting = s.notFull.waiting ++ [t] ∧ s.isFull P = true) := by
  rcases run_cases h with ⟨hf, heq⟩ | ⟨hf, d, -, heq⟩
  · obtain rfl := Except.ok.inj heq
    exact ⟨rfl, rfl, rfl, .inr ⟨rfl, hf⟩⟩
  · obtain rfl := Except.ok.inj heq
    exact ⟨rfl, rfl, rfl, .inl ⟨rfl, hf⟩⟩

/-- A locked section of `take` leaves its worker in `take`, in a task or at the test of its loop. -/
theorem take_frame {i : ℕ} {w : Option (Tid τ)}
    (h : { s with notEmpty := s.notEmpty.resume i }.take P i w = some (.ok u)) :
    (u.workers = s.workers ∨
        ∃ pc, pc.isDone = false ∧ u.workers = Function.update s.workers i pc) ∧
      u.stopper = s.stopper ∧ u.running = s.running ∧
      (s.notFull.waiting = [] → u.notFull.waiting = []) := by
  rcases take_cases h with ⟨-, -, heq⟩ | ⟨-, -, heq⟩ | ⟨task, rest, d, -, heq, hd⟩
  · obtain rfl := Except.ok.inj heq
    exact ⟨.inl rfl, rfl, rfl, id⟩
  · obtain rfl := Except.ok.inj heq
    exact ⟨.inr ⟨_, rfl, rfl⟩, rfl, rfl, id⟩
  · obtain rfl := Except.ok.inj heq
    refine ⟨.inr ⟨_, ?_, rfl⟩, rfl, rfl, fun hw => ?_⟩
    · cases task <;> rfl
    · rcases hd with ⟨-, hd⟩ | ⟨-, rfl⟩
      · exact CondVar.notifyOne_waiting_nil hw hd
      · exact hw

/-- A step moves at most one worker, which was not done, and it is done only after the test of its
loop. -/
theorem step_workers (hs : (machine Φ τ P).Step s a u) :
    u.workers = s.workers ∨ ∃ i pc, i < P.threads ∧ (s.workers i).isDone = false ∧
      u.workers = Function.update s.workers i pc ∧
      (pc.isDone = true → a = .testRunning i ∧ s.running = false) := by
  cases effect hs with
  | callHere _ | call _ | stop _ | join _ _ _ | joined _ _ | wakeWorker _ | wakeCaller _ => exact .inl rfl
  | lockRun _ _ hrun => exact .inl (run_frame hrun).1
  | @userReturns i hi huser =>
    refine .inr ⟨i, .test, hi, ?_, rfl, fun hd => ?_⟩
    · cases hw : s.workers i <;> simp_all [WorkerPc.inUserCode, WorkerPc.isDone]
    · cases hd
  | @testRunning i hi htest =>
    refine .inr ⟨i, _, hi, ?_, rfl, fun hpc => ⟨rfl, ?_⟩⟩
    · cases hw : s.workers i <;> simp_all [WorkerPc.isTest, WorkerPc.isDone]
    · by_contra hr
      rw [Bool.not_eq_false] at hr
      rw [if_pos hr] at hpc
      cases hpc
  | @lockTake i w u hi hin hb htake =>
    rcases (take_frame htake).1 with hw | ⟨pc, hpc, hw⟩
    · exact .inl hw
    · refine .inr ⟨i, pc, hi, ?_, hw, fun hd => ?_⟩
      · cases hw : s.workers i <;> simp_all [WorkerPc.inTake, WorkerPc.isDone]
      · rw [hpc] at hd
        cases hd

/-- A worker stays done. -/
theorem step_done {i : ℕ} (hs : (machine Φ τ P).Step s a u) (hi : (s.workers i).isDone = true) :
    (u.workers i).isDone = true := by
  rcases step_workers hs with hw | ⟨j, pc, -, hj, hw, -⟩
  · rw [hw]
    exact hi
  · have hne : i ≠ j := by
      rintro rfl
      rw [hi] at hj
      cases hj
    rw [hw, Function.update_of_ne hne]
    exact hi

/-- No worker leaves its loop while `running_` holds. -/
theorem step_new_done {i : ℕ} (hs : (machine Φ τ P).Step s a u)
    (hi : (u.workers i).isDone = true) : (s.workers i).isDone = true ∨ s.running = false := by
  rcases step_workers hs with hw | ⟨j, pc, -, -, hw, hpc⟩
  · rw [hw] at hi
    exact .inl hi
  · rw [hw] at hi
    by_cases hij : i = j
    · rw [hij, Function.update_self] at hi
      exact .inr (hpc hi).2
    · rw [Function.update_of_ne hij] at hi
      exact .inl hi

/-- All workers are done after a step only if they were, or the last one has left its loop. -/
theorem step_allDone (hs : (machine Φ τ P).Step s a u) (hu : AllDone P u) :
    AllDone P s ∨ ∃ i, a = .testRunning i ∧ LastLeaves P s i := by
  rcases step_workers hs with hw | ⟨i, pc, hi, -, hw, hpc⟩
  · rw [AllDone, hw] at hu
    exact .inl hu
  · have hui := hu i hi
    rw [hw, Function.update_self] at hui
    obtain ⟨ha, hr⟩ := hpc hui
    refine .inr ⟨i, ha, hr, fun j hj hne => ?_⟩
    have huj := hu j hj
    rwa [hw, Function.update_of_ne hne] at huj

/-- Only `run` on a full queue makes a caller wait. -/
theorem step_waiting (hs : (machine Φ τ P).Step s a u) (hw : s.notFull.waiting = []) :
    u.notFull.waiting = [] ∨ ∃ t w, a = .lockRun t w ∧ s.isFull P = true := by
  cases effect hs with
  | callHere _ | call _ | userReturns _ _ | testRunning _ _ | stop _ | join _ _ _ | joined _ _
  | wakeWorker _ => exact .inl hw
  | @lockRun t task w u _ _ hrun =>
    rcases (run_frame hrun).2.2.2 with ⟨hwait, -⟩ | ⟨-, hf⟩
    · exact .inl (hwait.trans hw)
    · exact .inr ⟨t, w, rfl, hf⟩
  | lockTake _ _ _ htake => exact .inl ((take_frame htake).2.2.2 hw)
  | wakeCaller hmem =>
    rw [hw] at hmem
    cases hmem

/-! ## The threads that `stop` has joined -/

/-- How far `stop` is, and what it has joined: the workers stop for it only. -/
def Joined (P : Pool) (s : State Φ τ) : Prop :=
  match s.stopper with
  | .idle => s.running = true ∧ ∀ i < P.threads, (s.workers i).isDone = false
  | .joining k => s.running = false ∧ k ≤ P.threads ∧ ∀ i < k, (s.workers i).isDone = true
  | .returned => AllDone P s

omit [DecidableEq τ] in
theorem joined_init : Joined P (init : State Φ τ) := ⟨rfl, fun _ _ => rfl⟩

/-- A step other than `stop` and `join` leaves the shutdown as it is. -/
theorem step_shutdown (hs : (machine Φ τ P).Step s a u) :
    (u.stopper = s.stopper ∧ u.running = s.running) ∨
      (s.stopper = .idle ∧ u = s.stop) ∨
      ∃ k, s.stopper = .joining k ∧
        (k < P.threads ∧ (s.workers k).isDone = true ∧ u = { s with stopper := .joining (k + 1) } ∨
          P.threads ≤ k ∧ u = { s with stopper := .returned }) := by
  cases effect hs with
  | callHere _ | call _ | userReturns _ _ | testRunning _ _ | wakeWorker _ | wakeCaller _ =>
    exact .inl ⟨rfl, rfl⟩
  | lockRun _ _ hrun =>
    obtain ⟨-, hstop, hrunning, -⟩ := run_frame hrun
    exact .inl ⟨hstop, hrunning⟩
  | lockTake _ _ _ htake =>
    obtain ⟨-, hstop, hrunning, -⟩ := take_frame htake
    exact .inl ⟨hstop, hrunning⟩
  | stop hidle => exact .inr (.inl ⟨hidle, rfl⟩)
  | @join k hk hlt hdone => exact .inr (.inr ⟨k, hk, .inl ⟨hlt, hdone, rfl⟩⟩)
  | @joined k hk hge => exact .inr (.inr ⟨k, hk, .inr ⟨hge, rfl⟩⟩)

theorem Joined.step (h : Joined P s) (hs : (machine Φ τ P).Step s a u) : Joined P u := by
  rcases step_shutdown hs with ⟨hstop, hrun⟩ | ⟨hidle, rfl⟩ | ⟨k, hk, hcase⟩
  · unfold Joined at h ⊢
    rw [hstop]
    split at h
    · obtain ⟨hr, hnone⟩ := h
      refine ⟨hrun.trans hr, fun i hi => ?_⟩
      by_contra hdone
      rw [Bool.not_eq_false] at hdone
      rcases step_new_done hs hdone with hd | hr'
      · rw [hnone i hi] at hd
        cases hd
      · rw [hr] at hr'
        cases hr'
    · obtain ⟨hr, hk, hdone⟩ := h
      exact ⟨hrun.trans hr, hk, fun i hi => step_done hs (hdone i hi)⟩
    · exact fun i hi => step_done hs (h i hi)
  · unfold Joined at h
    rw [hidle] at h
    exact ⟨rfl, Nat.zero_le _, fun i hi => absurd hi (Nat.not_lt_zero i)⟩
  · unfold Joined at h
    rw [hk] at h
    obtain ⟨hr, hle, hdone⟩ := h
    rcases hcase with ⟨hlt, hdk, rfl⟩ | ⟨hge, rfl⟩
    · refine ⟨hr, hlt, fun i hi => ?_⟩
      rcases Nat.lt_succ_iff_lt_or_eq.mp hi with hi | rfl
      · exact hdone i hi
      · exact hdk
    · exact fun i hi => hdone i (by omega)

theorem reach_joined {ok : State Φ τ → Action Φ τ → Prop} (h : (machine Φ τ P).Reach ok s) :
    Joined P s := by
  refine Machine.Reach.induct ?_ ?_ h
  · rintro s rfl
    exact joined_init
  · intro s a u _ hj _ hs
    exact hj.step hs

/-! ## Who is left waiting -/

/-- In runs that release the callers, none waits once all workers are done. -/
theorem reach_waiting (h : (machine Φ τ P).Reach (Releases P) s) (hd : AllDone P s) :
    s.notFull.waiting = [] := by
  have hI : AllDone P s → s.notFull.waiting = [] := by
    refine Machine.Reach.induct (I := fun s => AllDone P s → s.notFull.waiting = []) ?_ ?_ h
    · rintro s rfl _
      rfl
    · intro s a u _ hwait hok hs hu
      have hnone : s.notFull.waiting = [] := by
        rcases step_allDone hs hu with hd | ⟨i, rfl, hlast⟩
        · exact hwait hd
        · exact hok hlast
      rcases step_waiting hs hnone with hw | ⟨t, w, rfl, hf⟩
      · exact hw
      · have hds : AllDone P s := by
          rcases step_allDone hs hu with hd | ⟨i, hne, -⟩
          · exact hd
          · cases hne
        rw [hok hds] at hf
        cases hf
  exact hI hd

/-- **`stop` releases every caller of `run`** in the runs in which no caller waits un-notified when
the last worker leaves its loop, and the queue is not full for a `run` after that. -/
theorem released (h : (machine Φ τ P).Reach (Releases P) s) (hret : s.stopper = .returned) :
    s.notFull.waiting = [] := by
  have hj := reach_joined h
  unfold Joined at hj
  rw [hret] at hj
  exact reach_waiting h hj

/-- A worker waits in its loop, one caller has filled the slot and another waits for it; the worker
takes both tasks before it sees that the pool is stopped. -/
def drainedBeforeExit : List (Action ℕ ℕ) :=
  [.call (.caller 0) (some 7), .lockRun (.caller 0) none, .userReturns 0, .testRunning 0,
    .call (.caller 1) (some 8), .lockRun (.caller 1) none, .stop, .lockTake 0 (some (.caller 1)),
    .lockRun (.caller 1) none, .userReturns 0, .testRunning 0, .join, .join]

theorem released_drainedBeforeExit : ∃ s : State ℕ ℕ,
    (machine ℕ ℕ ⟨1, 1⟩).Reach (Releases ⟨1, 1⟩) s ∧ s.accepted = [some 7, some 8] ∧
      s.stopper = .returned ∧ s.notFull.waiting = [] := by
  obtain ⟨s, hs, haccepted, hret⟩ : ∃ s : State ℕ ℕ,
      (machine ℕ ℕ ⟨1, 1⟩).exec (Releases ⟨1, 1⟩) init drainedBeforeExit = some s ∧
        s.accepted = [some 7, some 8] ∧ s.stopper = .returned := ⟨_, rfl, rfl, rfl⟩
  have hr : (machine ℕ ℕ ⟨1, 1⟩).Reach (Releases ⟨1, 1⟩) s := .of_exec (.init rfl) hs
  exact ⟨s, hr, haccepted, hret, released hr hret⟩

/-- The worker is busy while the slot is filled and a caller waits for it, and then sees that the
pool is stopped. -/
def exitOnFull : List (Action ℕ ℕ) :=
  [.call (.caller 0) (some 7), .lockRun (.caller 0) none, .call (.caller 1) (some 8),
    .lockRun (.caller 1) none, .stop, .userReturns 0, .testRunning 0, .join, .join]

/-- `stop` has returned, and a caller of `run` still waits without a notification. -/
theorem stop_leaves_caller : ∃ s : State ℕ ℕ, (machine ℕ ℕ ⟨1, 1⟩).Reach anyAction s ∧
    s.stopper = .returned ∧ s.notFull.waiting = [.caller 1] ∧ s.notFull.notified = [] := by
  obtain ⟨s, hs, hret, hwaiting, hnotified⟩ : ∃ s : State ℕ ℕ,
      (machine ℕ ℕ ⟨1, 1⟩).exec anyAction init exitOnFull = some s ∧ s.stopper = .returned ∧
        s.notFull.waiting = [.caller 1] ∧ s.notFull.notified = [] := ⟨_, rfl, rfl, rfl, rfl⟩
  exact ⟨s, .of_exec (.init rfl) hs, hret, hwaiting, hnotified⟩

/-! ## The condition is sharp -/

/-- `stop` joins the workers that are done, from the `k`-th on. -/
theorem path_join (hd : AllDone P s) : ∀ n k, s.stopper = .joining k → k + n = P.threads →
    ∃ v, (machine Φ τ P).Path anyAction s v ∧ v.stopper = .returned ∧ v.notFull = s.notFull := by
  intro n
  induction n generalizing s with
  | zero =>
    intro k hk hn
    refine ⟨{ s with stopper := .returned }, .single (a := .join) trivial ?_, rfl, rfl⟩
    simp only [Machine.Step, machine, act, hk]
    rw [if_neg (by omega)]
  | succ n ih =>
    intro k hk hn
    have hlt : k < P.threads := by omega
    have hstep : (machine Φ τ P).Step s .join { s with stopper := .joining (k + 1) } := by
      simp only [Machine.Step, machine, act, hk]
      rw [if_pos hlt, guarded_eq]
      exact ⟨hd k hlt, rfl⟩
    obtain ⟨v, hp, hret, hfull⟩ :=
      ih (s := { s with stopper := .joining (k + 1) }) hd (k + 1) rfl (by omega)
    exact ⟨v, (Machine.Path.single trivial hstep).trans hp, hret, hfull⟩

/-- Once all workers are done, `stop` can return without touching `notFull_`. -/
theorem path_returned (hd : AllDone P s) (hj : Joined P s) :
    ∃ v, (machine Φ τ P).Path anyAction s v ∧ v.stopper = .returned ∧ v.notFull = s.notFull := by
  unfold Joined at hj
  rcases hstop : s.stopper with _ | k | _
  · have hstep : (machine Φ τ P).Step s .stop s.stop := by
      simp only [Machine.Step, machine, act]
      exact guarded_eq.mpr ⟨hstop, rfl⟩
    obtain ⟨v, hp, hret, hfull⟩ := path_join (s := s.stop) hd P.threads 0 rfl (Nat.zero_add _)
    exact ⟨v, (Machine.Path.single trivial hstep).trans hp, hret, hfull⟩
  · rw [hstop] at hj
    exact path_join hd (P.threads - k) k hstop (by have := hj.2.1; omega)
  · exact ⟨s, .refl, hstop, rfl⟩

/-- **Any other step loses a caller**: it leads to a state from which `stop` can return while a
caller of `run` waits un-notified. -/
theorem left_waiting (h : (machine Φ τ P).Reach anyAction s) (hs : (machine Φ τ P).Step s a u)
    (hbad : ¬ Releases P s a) :
    ∃ v, (machine Φ τ P).Path anyAction u v ∧ v.stopper = .returned ∧ v.notFull.waiting ≠ [] := by
  have hj : Joined P u := (reach_joined h).step hs
  obtain ⟨hd, hw⟩ : AllDone P u ∧ u.notFull.waiting ≠ [] := by
    cases effect hs with
    | @testRunning i _ _ =>
      obtain ⟨⟨hr, hothers⟩, hw⟩ := Classical.not_imp.mp hbad
      refine ⟨fun j hlt => ?_, hw⟩
      by_cases hji : j = i
      · rw [hji, setWorker_self, hr]
        rfl
      · rw [setWorker_of_ne hji]
        exact hothers j hlt hji
    | lockRun _ _ hrun =>
      obtain ⟨hd, hf⟩ := Classical.not_imp.mp hbad
      obtain ⟨hworkers, -, -, hcase⟩ := run_frame hrun
      rw [AllDone, hworkers]
      refine ⟨hd, ?_⟩
      rcases hcase with ⟨-, hroom⟩ | ⟨hwait, -⟩
      · exact absurd hroom hf
      · rw [hwait]
        exact List.append_ne_nil_of_right_ne_nil _ (List.cons_ne_nil _ _)
    | _ => exact absurd trivial hbad
  obtain ⟨v, hp, hret, hfull⟩ := path_returned hd hj
  exact ⟨v, hp, hret, by rw [hfull]; exact hw⟩

end MengSen.ThreadPool

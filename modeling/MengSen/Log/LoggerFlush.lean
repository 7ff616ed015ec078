import MengSen.Log.Logger

/-!
# Log.LoggerFlush — runs in which the logger is flushed

`BufferBase.Lawful` is what the pop thread relies on; both buffers meet it.  Over any such buffer the
runs that meet `Flushes` are flushed (`flushed_of_reach`).  What the code lacks is a join: when the owner
has finished and `pop` has not returned, the next statement of the pop thread is an access to a member
that was destroyed (`exists_dead_of_finished`).

`Flushes` speaks of single steps of the pop thread.  `Quiesces` is a schedule of the threads that meets
it (`Quiesces.reach`).
-/

namespace MengSen.Log

open Machine (check check_bind check_bind_eq_ok guarded_eq)

variable {τ α : Type} {B : BufferBase τ α}

/-! ## What the buffers promise -/

/-- `Sent b l`: the line cannot be popped any more. -/
def BufferBase.Sent (B : BufferBase τ α) (b : B.State) (l : LogLine τ α) : Prop :=
  some l ∈ B.out b ∨ B.Overwritten b l

/-- The result of `try_pop` tells whether its last statement has put out a line; and when it is `false`,
each line whose `push` had returned was sent or is still stored. -/
structure BufferBase.Lawful (B : BufferBase τ α) : Prop where
  init : ∀ b, B.machine.init b → B.out b = []
  push : ∀ b a c, B.machine.Reach B.Ok b → B.Ok b a → B.machine.Step b a c → B.isPop a = false →
    B.out c = B.out b
  inside : ∀ b a c, B.machine.Reach B.Ok b → B.Ok b a → B.machine.Step b a c → B.isPop a = true →
    B.result b a = none → B.out c = B.out b
  took : ∀ b a c, B.machine.Reach B.Ok b → B.Ok b a → B.machine.Step b a c → B.isPop a = true →
    B.result b a = some true → ∃ x, B.out c = B.out b ++ [x]
  empty : ∀ b a c, B.machine.Reach B.Ok b → B.Ok b a → B.machine.Step b a c → B.isPop a = true →
    B.result b a = some false → B.out c = B.out b ∧ ∀ l, B.Returned b l → B.Sent b l ∨ B.Stored b l
  returned : ∀ b a c, B.machine.Reach B.Ok b → B.Ok b a → B.machine.Step b a c →
    ∀ l, B.Returned b l → B.Returned c l
  overwritten : ∀ b a c, B.machine.Step b a c → ∀ l, B.Overwritten b l → B.Overwritten c l
  enabled : ∀ b, ∃ a, B.isPop a = true ∧ B.machine.act b a ≠ none

namespace BufferBase.Lawful

variable {b c : B.State} {a : B.Action} {l : LogLine τ α}

theorem out_mono (hB : B.Lawful) (hr : B.machine.Reach B.Ok b) (hok : B.Ok b a)
    (hs : B.machine.Step b a c) (h : some l ∈ B.out b) : some l ∈ B.out c := by
  rcases hp : B.isPop a with _ | _
  · rw [hB.push b a c hr hok hs hp]
    exact h
  · rcases hres : B.result b a with _ | _ | _
    · rw [hB.inside b a c hr hok hs hp hres]
      exact h
    · rw [(hB.empty b a c hr hok hs hp hres).1]
      exact h
    · obtain ⟨x, hx⟩ := hB.took b a c hr hok hs hp hres
      rw [hx]
      exact List.mem_append_left [x] h

theorem sent_mono (hB : B.Lawful) (hr : B.machine.Reach B.Ok b) (hok : B.Ok b a)
    (hs : B.machine.Step b a c) (h : B.Sent b l) : B.Sent c l :=
  h.imp (hB.out_mono hr hok hs) (hB.overwritten b a c hs l)

end BufferBase.Lawful

namespace Logger

variable {s u : State B}

/-! ## What a step does -/

/-- A statement of the buffer, in a member that is not destroyed. -/
theorem buffer_step {p : Prop} [Decidable p] {f : Fault B} {g : B.State → State B}
    {x : Option (Except B.Fault B.State)}
    (hs : (x.map fun r => do
      check p f
      let t ← r.mapError .buffer
      return g t) = some (.ok u)) : ∃ t, x = some (.ok t) ∧ g t = u := by
  obtain ⟨r, hr, heq⟩ := Option.map_eq_some_iff.mp hs
  obtain ⟨-, heq⟩ := check_bind_eq_ok.mp heq
  obtain ⟨t, ht, heq⟩ := Machine.bind_eq_ok.mp heq
  rw [Machine.mapError_eq_ok ht] at hr
  exact ⟨t, hr, Except.ok.inj heq⟩

inductive Effect (s : State B) : Action B → State B → Prop
  | add {a t} (ha : B.isPop a = false) (hs : B.machine.Step s.buffer a t) :
    Effect s (.add a) { s with buffer := t }
  | wait (hp : s.pop = .waiting) :
    Effect s .load { s with pop := if s.state = .init then .waiting else .testing }
  | test (hp : s.pop = .testing) : Effect s .load { s with pop := .popping (s.state ≠ .ready) }
  | tryPop {a t d} (hp : s.pop = .popping d) (ha : B.isPop a = true)
    (hs : B.machine.Step s.buffer a t) :
    Effect s (.tryPop a) { s with buffer := t, pop := .next d (B.result s.buffer a) }
  | write {d} (hp : s.pop = .writing d) :
    Effect s .write { s with
      written := s.written ++ [s.logline]
      pop := if d then .popping true else .testing }
  | shutdown (ho : s.owner = .alive) :
    Effect s .shutdown { s with state := .shutdown, owner := .shutdown, due := B.Returned s.buffer }
  | destroyThread (ho : s.owner = .shutdown) :
    Effect s .destroyThread { s with owner := .noThread, thread := s.thread.destroy }
  | destroyFileWriter (ho : s.owner = .noThread) :
    Effect s .destroyFileWriter { s with owner := .noFileWriter }
  | destroyBufferBase (ho : s.owner = .noFileWriter) :
    Effect s .destroyBufferBase { s with owner := .finished }

/-- **Inversion**: a step has its effect. -/
theorem effect {a : Action B} (hs : (machine B).Step s a u) : Effect s a u := by
  simp only [Machine.Step, machine] at hs
  cases a with
  | add a =>
    simp only [act] at hs
    split at hs
    · cases hs
    · next ha =>
      obtain ⟨t, hr, rfl⟩ := buffer_step hs
      exact .add (Bool.not_eq_true _ ▸ ha) hr
  | load =>
    simp only [act] at hs
    split at hs
    · next hp =>
      obtain ⟨-, heq⟩ := check_bind_eq_ok.mp (Option.some.inj hs)
      obtain rfl := Except.ok.inj heq
      exact .wait hp
    · next hp =>
      obtain ⟨-, heq⟩ := check_bind_eq_ok.mp (Option.some.inj hs)
      obtain rfl := Except.ok.inj heq
      exact .test hp
    · cases hs
  | tryPop a =>
    simp only [act] at hs
    split at hs
    · next d hp =>
      split at hs
      · next ha =>
        obtain ⟨t, hr, rfl⟩ := buffer_step hs
        exact .tryPop hp ha hr
      · cases hs
    · cases hs
  | write =>
    simp only [act] at hs
    split at hs
    · next d hp =>
      obtain ⟨-, heq⟩ := check_bind_eq_ok.mp (Option.some.inj hs)
      obtain rfl := Except.ok.inj heq
      exact .write hp
    · cases hs
  | shutdown =>
    obtain ⟨ho, heq⟩ := guarded_eq.mp hs
    obtain rfl := Except.ok.inj heq
    exact .shutdown ho
  | destroyThread =>
    simp only [act] at hs
    split at hs
    · next ho =>
      obtain ⟨-, heq⟩ := check_bind_eq_ok.mp (Option.some.inj hs)
      obtain rfl := Except.ok.inj heq
      exact .destroyThread ho
    · cases hs
  | destroyFileWriter =>
    obtain ⟨ho, heq⟩ := guarded_eq.mp hs
    obtain rfl := Except.ok.inj heq
    exact .destroyFileWriter ho
  | destroyBufferBase =>
    obtain ⟨ho, heq⟩ := guarded_eq.mp hs
    obtain rfl := Except.ok.inj heq
    exact .destroyBufferBase ho

/-! ## Invariant -/

/-- The pop thread is in its last loop, or through. -/
def Pop.draining : Pop → Bool
  | .waiting | .testing => false
  | .popping d | .writing d => d
  | .done => true

/-- `taken`: the line that `try_pop` has returned is the only one that may have to be written.
`sent`: after the last loop, the due lines are through the buffer. -/
structure Inv (s : State B) : Prop where
  reach : B.machine.Reach B.Ok s.buffer
  taken : ∀ d, s.pop = .writing d → ∃ x, B.out s.buffer = s.written ++ [x]
  through : (∀ d, s.pop ≠ .writing d) → B.out s.buffer = s.written
  returned : ∀ l, s.due l → B.Returned s.buffer l
  alive : s.owner = .alive → s.state = .ready ∧ s.pop.draining = false
  sent : s.pop = .done → ∀ l, s.due l → B.Sent s.buffer l
  fileWriter : ∀ d, s.pop = .writing d → s.owner.holds .fileWriter = true
  finished : s.owner = .finished → s.pop = .done

theorem init_inv (hB : B.Lawful) {b : B.State} (hb : B.machine.init b) : Inv (init b) where
  reach := .init hb
  taken d hd := by cases hd
  through _ := hB.init b hb
  returned l hl := False.elim hl
  alive _ := ⟨rfl, rfl⟩
  sent hd := by cases hd
  fileWriter d hd := by cases hd
  finished ho := by cases ho

/-- A producer takes a step. -/
theorem Inv.add (hB : B.Lawful) (h : Inv s) {a : B.Action} {t : B.State} (hp : B.isPop a = false)
    (hok : B.Ok s.buffer a) (hs : B.machine.Step s.buffer a t) : Inv { s with buffer := t } where
  reach := .step h.reach hok hs
  taken d hd := by
    rw [hB.push _ a t h.reach hok hs hp]
    exact h.taken d hd
  through hd := by
    rw [hB.push _ a t h.reach hok hs hp]
    exact h.through hd
  returned l hl := hB.returned _ a t h.reach hok hs l (h.returned l hl)
  alive := h.alive
  sent hd l hl := hB.sent_mono h.reach hok hs (h.sent hd l hl)
  fileWriter := h.fileWriter
  finished := h.finished

/-- The pop thread takes a step of `try_pop`. -/
theorem Inv.tryPop (hB : B.Lawful) (h : Inv s) {a : B.Action} {t : B.State} {d : Bool}
    (hpop : s.pop = .popping d) (hp : B.isPop a = true) (hok : Flushes s (.tryPop a))
    (hs : B.machine.Step s.buffer a t) :
    Inv { s with buffer := t, pop := .next d (B.result s.buffer a) } := by
  obtain ⟨hbuffer, htook, hempty⟩ := hok
  have hr : B.machine.Reach B.Ok t := .step h.reach hbuffer hs
  have hout : B.out s.buffer = s.written := h.through fun d hd => by
    rw [hpop] at hd
    cases hd
  have hreturned : ∀ l, s.due l → B.Returned t l := fun l hl =>
    hB.returned _ a t h.reach hbuffer hs l (h.returned l hl)
  have hnotFinished : s.owner ≠ .finished := by
    intro ho
    have hdone := h.finished ho
    rw [hpop] at hdone
    cases hdone
  have hdraining : s.owner = .alive → s.state = .ready ∧ d = false := by
    intro ho
    have halive := h.alive ho
    rw [hpop] at halive
    exact halive
  rcases hres : B.result s.buffer a with _ | _ | _
  -- `try_pop` goes on
  · refine ⟨hr, nofun, fun _ => ?_, hreturned, hdraining, nofun, nofun,
      fun ho => absurd ho hnotFinished⟩
    exact (hB.inside _ a t h.reach hbuffer hs hp hres).trans hout
  -- it returns false
  · obtain ⟨hsame, hkept⟩ := hB.empty _ a t h.reach hbuffer hs hp hres
    have hwriting : ∀ e, Pop.next d (some false) ≠ .writing e := by
      intro e
      cases d <;> exact Pop.noConfusion
    refine ⟨hr, fun e he => absurd he (hwriting e), fun _ => hsame.trans hout, hreturned, fun ho => ?_,
      fun hd l hl => ?_, fun e he => absurd he (hwriting e), fun ho => absurd ho hnotFinished⟩
    · obtain ⟨hstate, rfl⟩ := hdraining ho
      exact ⟨hstate, rfl⟩
    · obtain rfl : d = true := by
        cases d with
        | false => cases hd
        | true => rfl
      have hsent : B.Sent s.buffer l :=
        (hkept l (h.returned l hl)).resolve_right (hempty hres hpop l hl)
      exact hB.sent_mono h.reach hbuffer hs hsent
  -- it returns a line
  · obtain ⟨x, hx⟩ := hB.took _ a t h.reach hbuffer hs hp hres
    refine ⟨hr, fun e _ => ⟨x, hx.trans (by rw [hout])⟩, fun hd => absurd rfl (hd d), hreturned,
      hdraining, nofun, fun e _ => htook hres, fun ho => absurd ho hnotFinished⟩

/-- The pop thread reads `_state`. -/
theorem Inv.load (h : Inv s) {p : Pop} (hnow : ∀ d, s.pop ≠ .writing d) (hnotDone : s.pop ≠ .done)
    (hp : ∀ d, p ≠ .writing d) (hdone : p ≠ .done) (hdraining : p.draining = true → s.state ≠ .ready) :
    Inv { s with pop := p } where
  reach := h.reach
  taken d hd := absurd hd (hp d)
  through _ := h.through hnow
  returned := h.returned
  alive ho := by
    have hready := (h.alive ho).1
    refine ⟨hready, ?_⟩
    by_contra hd
    rw [Bool.not_eq_false] at hd
    exact hdraining hd hready
  sent hd := absurd hd hdone
  fileWriter d hd := absurd hd (hp d)
  finished ho := absurd (h.finished ho) hnotDone

/-- The pop thread writes the line that `try_pop` has returned. -/
theorem Inv.write (h : Inv s) {d : Bool} (hpop : s.pop = .writing d) :
    Inv { s with written := s.written ++ [s.logline], pop := if d then .popping true else .testing } := by
  obtain ⟨x, hx⟩ := h.taken d hpop
  have hline : s.logline = x := by
    rw [State.logline, hx]
    exact List.getLastD_concat ..
  have hnext : ∀ e, (if d then Pop.popping true else Pop.testing) ≠ .writing e := by
    intro e
    cases d <;> exact Pop.noConfusion
  have hnotDone : (if d then Pop.popping true else Pop.testing) ≠ .done := by
    cases d <;> exact Pop.noConfusion
  refine ⟨h.reach, fun e he => absurd he (hnext e), fun _ => ?_, h.returned, fun ho => ?_,
    fun hd => absurd hd hnotDone, fun e he => absurd he (hnext e), fun ho => ?_⟩
  · show B.out s.buffer = s.written ++ [s.logline]
    rw [hline, hx]
  · obtain ⟨hready, hdraining⟩ := h.alive ho
    rw [hpop] at hdraining
    obtain rfl : d = false := hdraining
    exact ⟨hready, rfl⟩
  · have hdone := h.finished ho
    rw [hpop] at hdone
    cases hdone

/-- `~Logger` begins. -/
theorem Inv.shutdown (h : Inv s) (ho : s.owner = .alive) :
    Inv { s with state := .shutdown, owner := .shutdown, due := B.Returned s.buffer } where
  reach := h.reach
  taken := h.taken
  through := h.through
  returned _ hl := hl
  alive := nofun
  sent hd := by
    have hdraining := (h.alive ho).2
    rw [show s.pop = .done from hd] at hdraining
    cases hdraining
  fileWriter _ _ := rfl
  finished := nofun

/-- The owner destroys a member. -/
theorem Inv.destroy (h : Inv s) {o : Owner} {t : Thread} (halive : o ≠ .alive)
    (hwriter : ∀ d, s.pop = .writing d → o.holds .fileWriter = true)
    (hfinished : o = .finished → s.pop = .done) : Inv { s with owner := o, thread := t } where
  reach := h.reach
  taken := h.taken
  through := h.through
  returned := h.returned
  alive ho := absurd ho halive
  sent := h.sent
  fileWriter := hwriter
  finished := hfinished

/-! ## Runs -/

/-- **Step lemma**: every step that meets `Flushes`. -/
theorem Inv.step (hB : B.Lawful) (h : Inv s) {a : Action B} (hok : Flushes s a)
    (hs : (machine B).Step s a u) : Inv u := by
  cases effect hs with
  | add ha hr => exact h.add hB ha hok hr
  | wait hp =>
    refine h.load (by rw [hp]; exact nofun) (by rw [hp]; exact nofun) ?_ ?_ ?_
    · intro d
      split <;> exact nofun
    · split <;> exact nofun
    · split <;> exact nofun
  | test hp =>
    exact h.load (by rw [hp]; exact nofun) (by rw [hp]; exact nofun) nofun nofun of_decide_eq_true
  | tryPop hp ha hr => exact h.tryPop hB hp ha hok hr
  | write hp => exact h.write hp
  | shutdown ho => exact h.shutdown ho
  | destroyThread _ => exact h.destroy nofun (fun _ _ => rfl) nofun
  | destroyFileWriter _ => exact h.destroy nofun (fun d hd => absurd hd (hok d)) nofun
  | destroyBufferBase _ =>
    have hdone : s.pop = .done := hok
    refine h.destroy nofun (fun d hd => ?_) fun _ => hdone
    rw [hdone] at hd
    cases hd

/-- **Run lemma**: the invariant holds of every state reached. -/
theorem reach_inv (hB : B.Lawful) (h : (machine B).Reach Flushes s) : Inv s := by
  refine Machine.Reach.induct ?_ ?_ h
  · rintro s ⟨b, hb, rfl⟩
    exact init_inv hB hb
  · intro s a u _ hi hok hs
    exact hi.step hB hok hs

/-! ## What the invariant gives -/

/-- While `pop` has not returned, the members other than `_file_writer` are there. -/
theorem Owner.holds_of_ne {o : Owner} {m : Member} (ho : o ≠ .finished) (hm : m ≠ .fileWriter) :
    o.holds m = true := by
  cases o <;> cases m <;> first | rfl | exact absurd rfl ho | exact absurd rfl hm

/-- No access to a member that was destroyed. -/
theorem Inv.alive_of_isPop (h : Inv s) {a : Action B} (ha : a.isPop = true) (m : Member) :
    act s a ≠ some (.error (.dead m)) := by
  intro he
  have hmember : ∀ n, s.pop ≠ .done → n ≠ .fileWriter → s.owner.holds n = true :=
    fun _ hpop hn => Owner.holds_of_ne (fun ho => hpop (h.finished ho)) hn
  cases a with
  | load =>
    simp only [act] at he
    split at he
    · next hp =>
      rw [check_bind _ (hmember .state (by rw [hp]; exact nofun) nofun)] at he
      cases he
    · next hp =>
      rw [check_bind _ (hmember .state (by rw [hp]; exact nofun) nofun)] at he
      cases he
    · cases he
  | tryPop a =>
    simp only [act] at he
    split at he
    · next d hp =>
      split at he
      · obtain ⟨r, -, heq⟩ := Option.map_eq_some_iff.mp he
        rw [check_bind _ (hmember .bufferBase (by rw [hp]; exact nofun) nofun)] at heq
        cases r with
        | error e => cases heq
        | ok t => cases heq
      · cases he
    · cases he
  | write =>
    simp only [act] at he
    split at he
    · next d hp =>
      rw [check_bind _ (h.fileWriter d hp)] at he
      cases he
    · cases he
  | add _ | shutdown | destroyThread | destroyFileWriter | destroyBufferBase => cases ha

theorem Inv.flushed (h : Inv s) : Flushed s where
  written ho l hl := by
    have hdone := h.finished ho
    have hout : B.out s.buffer = s.written := h.through fun d hd => by
      rw [hdone] at hd
      cases hd
    rw [← hout]
    exact h.sent hdone l hl
  alive _ ha m := h.alive_of_isPop ha m

/-- **The logger is flushed** in every run that meets `Flushes`. -/
theorem flushed_of_reach (hB : B.Lawful) (h : (machine B).Reach Flushes s) : Flushed s :=
  (reach_inv hB h).flushed

/-- **Nothing else keeps the members alive**: if the owner has finished and `pop` has not returned, its
next statement is an access to a member that was destroyed. -/
theorem exists_dead_of_finished (hB : B.Lawful) (ho : s.owner = .finished) (hp : s.pop ≠ .done) :
    ∃ a : Action B, a.isPop = true ∧ ∃ m, act s a = some (.error (.dead m)) := by
  have hcheck : ∀ (m : Member) {γ : Type} (f : Unit → Except (Fault B) γ),
      (check (s.owner.holds m = true) (.dead m) >>= f) = .error (.dead m) := by
    intro m γ f
    rw [ho]
    rfl
  cases hpop : s.pop with
  | waiting => exact ⟨.load, rfl, .state, by simp only [act, hpop, hcheck]⟩
  | testing => exact ⟨.load, rfl, .state, by simp only [act, hpop, hcheck]⟩
  | popping d =>
    obtain ⟨a, ha, hact⟩ := hB.enabled s.buffer
    obtain ⟨r, hr⟩ := Option.ne_none_iff_exists'.mp hact
    exact ⟨.tryPop a, rfl, .bufferBase, by simp only [act, hpop, ha, hr, if_true, Option.map_some, hcheck]⟩
  | writing d => exact ⟨.write, rfl, .fileWriter, by simp only [act, hpop, hcheck]⟩
  | done => exact absurd hpop hp

/-! ## A schedule of the threads -/

section Quiesces

variable {ok : B.State → B.Action → Prop} {quiet : B.State → Prop}

/-- `_file_writer` and `_buffer_base` are destroyed after `pop` has returned, and its last loop ends in a
`quiet` buffer; `ok` is asked of the statements of the buffer. -/
def Quiesces (ok : B.State → B.Action → Prop) (quiet : B.State → Prop) (s : State B) :
    Action B → Prop
  | .add a => ok s.buffer a
  | .tryPop a => ok s.buffer a ∧
    (B.result s.buffer a = some false → s.pop = .popping true → quiet s.buffer)
  | .destroyFileWriter | .destroyBufferBase => s.pop = .done
  | _ => True

structure Joined (ok : B.State → B.Action → Prop) (s : State B) : Prop where
  buffer : B.machine.Reach ok s.buffer
  fileWriter : s.owner.holds .fileWriter = false → s.pop = .done

theorem Joined.step (h : Joined ok s) {a : Action B} (hok : Quiesces ok quiet s a)
    (hs : (machine B).Step s a u) : Joined ok u := by
  have hbusy : s.pop ≠ .done → s.owner.holds .fileWriter ≠ false := fun hp hf => hp (h.fileWriter hf)
  cases effect hs with
  | add _ hr => exact ⟨.step h.buffer hok hr, h.fileWriter⟩
  | tryPop hp _ hr =>
    exact ⟨.step h.buffer hok.1 hr, fun hf => absurd hf (hbusy (by rw [hp]; exact nofun))⟩
  | wait hp | test hp | write hp =>
    exact ⟨h.buffer, fun hf => absurd hf (hbusy (by rw [hp]; exact nofun))⟩
  | shutdown _ | destroyThread _ => exact ⟨h.buffer, nofun⟩
  | destroyFileWriter _ | destroyBufferBase _ => exact ⟨h.buffer, fun _ => hok⟩

theorem Joined.of_reach (h : (machine B).Reach (Quiesces ok quiet) s) : Joined ok s := by
  refine Machine.Reach.induct ?_ ?_ h
  · rintro s ⟨b, hb, rfl⟩
    exact ⟨.init hb, nofun⟩
  · intro s a u _ hi hok hs
    exact hi.step hok hs

/-- **Quiet producers and a join** are enough where `try_pop` leaves nothing behind in a quiet buffer. -/
theorem Quiesces.reach (hB : ∀ b a, ok b a → B.Ok b a)
    (hempty : ∀ b a c, B.machine.Reach ok b → B.machine.Step b a c → B.isPop a = true →
      B.result b a = some false → quiet b → ∀ l, ¬ B.Stored b l)
    (h : (machine B).Reach (Quiesces ok quiet) s) : (machine B).Reach Flushes s := by
  refine Machine.Reach.induct (fun s hs => .init hs) (fun s a u hr hi hok hs => hi.step ?_ hs) h
  have hjoined := Joined.of_reach hr
  cases effect hs with
  | add _ _ => exact hB _ _ hok
  | tryPop hp ha ht =>
    refine ⟨hB _ _ hok.1, fun _ => ?_, fun hres hlast l _ =>
      hempty _ _ _ hjoined.buffer ht ha hres (hok.2 hres hlast) l⟩
    rw [← Bool.not_eq_false]
    intro hf
    have hdone := hjoined.fileWriter hf
    rw [hp] at hdone
    cases hdone
  | destroyFileWriter _ =>
    intro d hd
    have hdone : s.pop = .done := hok
    rw [hdone] at hd
    cases hd
  | destroyBufferBase _ => exact hok
  | wait _ | test _ | write _ | shutdown _ | destroyThread _ => trivial

end Quiesces

end Logger

end MengSen.Log

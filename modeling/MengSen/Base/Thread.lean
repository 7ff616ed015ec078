import MengSen.Base.CountDownLatch

/-!
# Base.Thread — starting, joining and destroying a thread

`base/Thread.h` and `base/Thread.cpp` as a machine of two threads: the one that owns the `Thread`
object, which calls `start`, `join` and the destructor in any order, and the one that `start`
creates.  The new thread stores its `tid` through a pointer into the object and counts down the
object's latch, which `start` waits for; what it calls then is `func_`.

`std::thread` is what `joinable` tells of it.  The constructor of `std::thread` throws when no thread
can be created.  Names and the tid cache are left out.
-/

namespace MengSen.Thread

open Machine (check guarded guarded_eq check_bind_eq_ok anyAction within)

/-- The two threads at the latch. -/
inductive Party
  | owner
  | child
  deriving DecidableEq

/-- Where the owner is. -/
inductive Owner
  /-- in no call of the class -/
  | idle
  /-- in `latch_.wait()` of `start` -/
  | waiting
  /-- in `start`, after the wait -/
  | started
  /-- in `threadObj.join()` -/
  | joining
  deriving DecidableEq

/-- The next statement of `runInThread`. -/
inductive Child
  /-- no thread was created -/
  | absent
  /-- before `*tid_ = ...` -/
  | storeTid
  /-- before `latch_->countDown()` -/
  | countDown
  /-- before `func_()` -/
  | callFunc
  /-- inside `func_` -/
  | func
  | finished
  deriving DecidableEq

inductive Fault
  /-- `assert(!started_)` of `start` -/
  | startedTwice
  /-- `assert(tid_ > 0)` of `start` -/
  | noTid
  /-- `assert(started_)` of `join` -/
  | joinNotStarted
  /-- `assert(!joined_)` of `join` -/
  | joinedTwice
  /-- an exception leaves `func_` -/
  | crashed
  /-- `detach` of a thread that is not joinable, or destruction of one that is -/
  | terminate
  /-- access to the object after its destruction -/
  | dangling
  | latch (e : CountDownLatch.Fault)
  deriving DecidableEq

structure State where
  started : Bool
  joined : Bool
  /-- `threadObj.joinable()` -/
  joinable : Bool
  tid : ℕ
  latch : CountDownLatch.State Party
  /-- the object is destroyed -/
  destroyed : Bool
  owner : Owner
  child : Child
  /-- the calls of `func_` -/
  calls : ℕ
  /-- the constructor of `std::thread` has thrown -/
  createFailed : Bool

inductive Action
  /-- `start` up to the wait; `created` tells whether a thread was created -/
  | start (created : Bool)
  /-- a locked section of `latch_.wait()` -/
  | waitLock
  | waitWake
  /-- `start` returns -/
  | startReturns
  /-- `join` up to `threadObj.join()` -/
  | join
  | joinReturns
  /-- `~Thread` -/
  | destroy
  /-- `*tid_ = CurrentThread::tid()` -/
  | storeTid (tid : ℕ)
  | countDown
  | callFunc
  | funcReturns
  | funcThrows
  deriving DecidableEq

/-- The constructor. -/
def init : State where
  started := false
  joined := false
  joinable := false
  tid := 0
  latch := CountDownLatch.new 1
  destroyed := false
  owner := .idle
  child := .absent
  calls := 0
  createFailed := false

namespace State

variable (s : State)

def setLatch (latch : CountDownLatch.State Party) : State := { s with latch := latch }

/-- `start`, with the thread that `std::thread` creates. -/
def start (created : Bool) : ExceptT Fault Option State := do
  .mk (some (check (s.started = false) .startedTwice))
  if created then
    let s := { s with started := true, joinable := true, child := .storeTid, owner := .waiting }
    within .latch s.setLatch (CountDownLatch.act s.latch (.callWait .owner))
  else
    return { s with started := true, createFailed := true }

def waitLock : ExceptT Fault Option State := do
  let t ← within .latch s.setLatch (CountDownLatch.act s.latch (.lock .owner))
  return { t with owner := if t.latch.inWait .owner then .waiting else .started }

def startReturns : Except Fault State := do
  check (0 < s.tid) .noTid
  return { s with owner := .idle }

def join : Except Fault State := do
  check (s.started = true) .joinNotStarted
  check (s.joined = false) .joinedTwice
  if s.joinable then
    return { s with joined := true, owner := .joining }
  else
    return { s with joined := false }

/-- `~Thread`, and the destructor of `threadObj` after it. -/
def destroy : Except Fault State := do
  if s.started && !s.joined then
    check (s.joinable = true) .terminate
    return { s with joinable := false, destroyed := true }
  else
    check (s.joinable = false) .terminate
    return { s with destroyed := true }

def storeTid (tid : ℕ) : Except Fault State := do
  check (s.destroyed = false) .dangling
  return { s with tid := tid, child := .countDown }

def countDown : ExceptT Fault Option State := do
  .mk (some (check (s.destroyed = false) .dangling))
  within .latch ({ s with child := .callFunc }.setLatch ·) (CountDownLatch.act s.latch .countDown)

/-- The owner may call a function of the object. -/
def InUserCode : Prop := s.owner = .idle ∧ s.destroyed = false

instance : Decidable s.InUserCode := inferInstanceAs (Decidable (_ ∧ _))

end State

def act (s : State) : Action → Option (Except Fault State)
  | .start created => if s.InUserCode then (s.start created).run else none
  | .waitLock => if s.owner = .waiting then s.waitLock.run else none
  | .waitWake =>
    if s.owner = .waiting then
      (within .latch s.setLatch (CountDownLatch.act s.latch (.wake .owner))).run
    else none
  | .startReturns => if s.owner = .started then some s.startReturns else none
  | .join => if s.InUserCode then some s.join else none
  | .joinReturns =>
    guarded (s.owner = .joining ∧ s.child = .finished) { s with joinable := false, owner := .idle }
  | .destroy => if s.InUserCode then some s.destroy else none
  | .storeTid tid => if s.child = .storeTid ∧ 0 < tid then some (s.storeTid tid) else none
  | .countDown => if s.child = .countDown then s.countDown.run else none
  | .callFunc => guarded (s.child = .callFunc) { s with child := .func, calls := s.calls + 1 }
  | .funcReturns => guarded (s.child = .func) { s with child := .finished }
  | .funcThrows => if s.child = .func then some (.error .crashed) else none

/-- The owner and the thread that it starts. -/
def machine : Machine State Action Fault where
  init s := s = init
  act := act

/-! ## The sections at the latch -/

open Machine (seq_eq_ok within_eq_ok bind_eq_ok)

variable {s t : State}

/-- A check before an action. -/
theorem check_seq_eq_ok {p : Prop} [Decidable p] {e : Fault} {f : Unit → ExceptT Fault Option State}
    (h : (ExceptT.mk (some (check p e)) >>= f).run = some (.ok t)) : p ∧ (f ()).run = some (.ok t) := by
  obtain ⟨u, hu, hf⟩ := seq_eq_ok.mp h
  have hp : check p e = .ok () := Option.some.inj hu
  by_cases h : p
  · exact ⟨h, hf⟩
  · rw [check, if_neg h] at hp
    cases hp

theorem start_cases {created : Bool} (h : (s.start created).run = some (.ok t)) :
    s.started = false ∧
      ((created = true ∧ ∃ l, CountDownLatch.act s.latch (.callWait .owner) = some (.ok l) ∧
          { s with
            started := true, joinable := true, child := .storeTid, owner := .waiting, latch := l } = t) ∨
        (created = false ∧ { s with started := true, createFailed := true } = t)) := by
  obtain ⟨hs, h⟩ := check_seq_eq_ok h
  refine ⟨hs, ?_⟩
  cases created with
  | true =>
    obtain ⟨l, hl, rfl⟩ := within_eq_ok.mp h
    exact .inl ⟨rfl, l, hl, rfl⟩
  | false => exact .inr ⟨rfl, Except.ok.inj (Option.some.inj h)⟩

theorem waitLock_cases (h : s.waitLock.run = some (.ok t)) :
    ∃ l, CountDownLatch.act s.latch (.lock .owner) = some (.ok l) ∧
      { s with latch := l, owner := if l.inWait .owner then .waiting else .started } = t := by
  obtain ⟨u, hu, h⟩ := seq_eq_ok.mp h
  obtain ⟨l, hl, rfl⟩ := within_eq_ok.mp hu
  exact ⟨l, hl, Except.ok.inj (Option.some.inj h)⟩

theorem countDown_cases (h : s.countDown.run = some (.ok t)) :
    s.destroyed = false ∧ ∃ l, CountDownLatch.act s.latch .countDown = some (.ok l) ∧
      { s with latch := l, child := .callFunc } = t := by
  obtain ⟨hs, h⟩ := check_seq_eq_ok h
  obtain ⟨l, hl, rfl⟩ := within_eq_ok.mp h
  exact ⟨hs, l, hl, rfl⟩

/-! ## The invariant -/

/-- The statements of `runInThread` that are done, from the creation of the thread. -/
def Child.done : Child → ℕ
  | .absent => 0
  | .storeTid => 1
  | .countDown => 2
  | .callFunc => 3
  | .func => 4
  | .finished => 5

structure Inv (s : State) : Prop where
  latch : CountDownLatch.Inv 1 s.latch
  downs : s.latch.downs = if 3 ≤ s.child.done then 1 else 0
  inWait : s.latch.inWait .owner = true ↔ s.owner = .waiting
  tid : 2 ≤ s.child.done → 0 < s.tid
  calls : s.calls = if 4 ≤ s.child.done then 1 else 0
  /-- outside the wait of `start` the child is past the latch -/
  past : s.owner ≠ .waiting → s.child = .absent ∨ 3 ≤ s.child.done
  created : s.owner ≠ .idle → s.child ≠ .absent ∧ s.destroyed = false
  started : s.started = true ↔ s.child ≠ .absent ∨ s.createFailed = true
  failed : s.createFailed = true → s.child = .absent
  joinable : s.joinable = true ↔
    s.child ≠ .absent ∧ s.destroyed = false ∧ (s.joined = true → s.owner = .joining)
  joined : s.joined = true → s.owner = .joining ∨ s.child = .finished
  joining : s.owner = .joining → s.joined = true

theorem init_inv : Inv init where
  latch := CountDownLatch.new_inv
  downs := rfl
  inWait := ⟨nofun, nofun⟩
  tid := nofun
  calls := rfl
  past := fun _ => .inl rfl
  created := absurd rfl
  started := ⟨nofun, fun h => h.elim (absurd rfl) nofun⟩
  failed := nofun
  joinable := ⟨nofun, fun h => absurd rfl h.1⟩
  joined := nofun
  joining := nofun

theorem Inv.absent (h : Inv s) (hs : s.started = false) : s.child = .absent := by
  by_contra hne
  have hst := h.started.mpr (.inl hne)
  rw [hs] at hst
  cases hst

theorem Inv.not_joined (h : Inv s) (hidle : s.owner = .idle) (habs : s.child = .absent) :
    s.joined = false := by
  by_contra hj
  rcases h.joined (Bool.not_eq_false _ ▸ hj) with ho | hc
  · rw [hidle] at ho
    cases ho
  · rw [habs] at hc
    cases hc

theorem latch_step {a : CountDownLatch.Action Party} {l l' : CountDownLatch.State Party}
    (h : CountDownLatch.Inv 1 l) (ha : CountDownLatch.act l a = some (.ok l')) :
    CountDownLatch.Inv 1 l' := h.step ha

/-- Until the child has counted down, the owner is in the wait of `start`. -/
theorem Inv.owner_waits (h : Inv s) (hc : s.child ≠ .absent) (hlt : s.child.done < 3) :
    s.owner = .waiting ∧ s.destroyed = false := by
  have hw : s.owner = .waiting := by
    by_contra hne
    rcases h.past hne with habs | hge
    · exact hc habs
    · omega
  exact ⟨hw, (h.created (by simp [hw])).2⟩

section Steps

variable {l : CountDownLatch.State Party}

/-- A thread is created: the object has none before. -/
theorem Inv.start (h : Inv s) (hidle : s.owner = .idle) (halive : s.destroyed = false)
    (hs : s.started = false) (hl : CountDownLatch.act s.latch (.callWait .owner) = some (.ok l)) :
    Inv { s with
      started := true, joinable := true, child := .storeTid, owner := .waiting, latch := l } := by
  have hi := latch_step h.latch hl
  obtain ⟨-, hl⟩ := guarded_eq.mp hl
  obtain rfl := Except.ok.inj hl
  have habs := h.absent hs
  have hnj : s.joined = false := h.not_joined hidle habs
  have hdowns := h.downs
  have hcalls := h.calls
  rw [habs] at hdowns hcalls
  exact
    { latch := hi
      downs := hdowns
      inWait := ⟨fun _ => rfl, fun _ => Function.update_self Party.owner true s.latch.inWait⟩
      tid := fun h2 : 2 ≤ 1 => absurd h2 (by decide)
      calls := hcalls
      past := fun hw => absurd rfl hw
      created := fun _ => ⟨nofun, halive⟩
      started := ⟨fun _ => .inl nofun, fun _ => rfl⟩
      failed := fun hf => by
        have hst := h.started.mpr (.inr hf)
        rw [hs] at hst
        cases hst
      joinable := ⟨fun _ => ⟨nofun, halive, fun hj => absurd (hnj.symm.trans hj) nofun⟩, fun _ => rfl⟩
      joined := fun hj => absurd (hnj.symm.trans hj) nofun
      joining := nofun }

/-- A locked section of the wait: it goes on only when the child has counted down. -/
theorem Inv.waitLock (h : Inv s) (hw : s.owner = .waiting)
    (hl : CountDownLatch.act s.latch (.lock .owner) = some (.ok l)) :
    Inv { s with latch := l, owner := if l.inWait .owner then .waiting else .started } := by
  have hi := latch_step h.latch hl
  obtain ⟨⟨hin, -⟩, hl⟩ := guarded_eq.mp hl
  obtain rfl := Except.ok.inj hl
  unfold CountDownLatch.State.wait at hi ⊢
  by_cases hc : 0 < s.latch.count
  · simp only [if_pos hc, hin, if_true] at hi ⊢
    rw [← hw]
    exact { h with latch := hi }
  · simp only [if_neg hc, Function.update_self, Bool.false_eq_true, if_false] at hi ⊢
    have hge : 3 ≤ s.child.done := by
      by_contra hlt
      have hcount := h.latch.count
      rw [h.downs, if_neg hlt] at hcount
      omega
    have hnj : s.joined = true → s.child = .finished := fun hj =>
      (h.joined hj).resolve_left (by simp [hw])
    exact { h with
      latch := hi
      inWait := ⟨fun ht => by simp at ht, nofun⟩
      past := fun _ => .inr hge
      created := fun _ => h.created (by simp [hw])
      joinable := by
        rw [h.joinable, hw]
        simp
      joined := fun hj => .inr (hnj hj)
      joining := nofun }

/-- `join` of a thread that is there. -/
theorem Inv.join (h : Inv s) (hidle : s.owner = .idle) (halive : s.destroyed = false)
    (hj : s.joinable = true) : Inv { s with joined := true, owner := .joining } := by
  have hc := (h.joinable.mp hj).1
  exact { h with
    inWait := by
      rw [h.inWait, hidle]
      simp
    past := fun _ => h.past (by simp [hidle])
    created := fun _ => ⟨hc, halive⟩
    joinable := ⟨fun _ => ⟨hc, halive, fun _ => rfl⟩, fun _ => hj⟩
    joined := fun _ => .inl rfl
    joining := fun _ => rfl }

/-- The owner is in no call any more: `start` returns, or `join` with the thread finished. -/
theorem Inv.returns (h : Inv s) (hb : s.owner ≠ .idle) (hw : s.owner ≠ .waiting)
    (hfin : s.joined = true → s.child = .finished) :
    Inv { s with joinable := s.joinable && !s.joined, owner := .idle } where
  latch := h.latch
  downs := h.downs
  inWait := ⟨fun hin => absurd (h.inWait.mp hin) hw, nofun⟩
  tid := h.tid
  calls := h.calls
  past _ := h.past hw
  created := absurd rfl
  started := h.started
  failed := h.failed
  joinable := by
    obtain ⟨hc, halive⟩ := h.created hb
    cases hj : s.joined with
    | true => simp
    | false =>
      have hjoinable : s.joinable = true := h.joinable.mpr ⟨hc, halive, by simp [hj]⟩
      simp [hjoinable, hc, halive]
  joined hj := .inr (hfin hj)
  joining := nofun

/-- `~Thread`: the thread object is detached, or was joined. -/
theorem Inv.destroy (h : Inv s) (hidle : s.owner = .idle) :
    Inv { s with joinable := false, destroyed := true } := by
  exact { h with
    created := absurd hidle
    joinable := ⟨nofun, fun hj => nomatch hj.2.1⟩ }

/-- The child stores its `tid`; the owner waits. -/
theorem Inv.storeTid {tid : ℕ} (h : Inv s) (hc : s.child = .storeTid) (hpos : 0 < tid) :
    Inv { s with tid := tid, child := .countDown } := by
  have hne : s.child ≠ .absent := by simp [hc]
  have hw := (h.owner_waits hne (by simp [hc, Child.done])).1
  have hdowns := h.downs
  have hcalls := h.calls
  rw [hc] at hdowns hcalls
  exact { h with
    downs := hdowns
    tid := fun _ => hpos
    calls := hcalls
    past := fun hn => absurd hw hn
    created := fun hn => ⟨nofun, (h.created hn).2⟩
    started := ⟨fun _ => .inl nofun, fun _ => h.started.mpr (.inl hne)⟩
    failed := fun hf => absurd (h.failed hf) hne
    joinable := by
      rw [h.joinable]
      simp [hne]
    joined := fun hj => .inl ((h.joined hj).resolve_right (by simp [hc])) }

/-- The child goes on behind the latch. -/
theorem Inv.advance {child : Child} {calls : ℕ} (h : Inv s) (hl : CountDownLatch.Inv 1 l)
    (hdowns : l.downs = 1) (hin : l.inWait = s.latch.inWait) (hpast : 2 ≤ s.child.done)
    (hlt : s.child.done < 5) (hge : 3 ≤ child.done) (hcalls : calls = if 4 ≤ child.done then 1 else 0) :
    Inv { s with latch := l, child := child, calls := calls } := by
  have hne : s.child ≠ .absent := fun habs => by simp [habs, Child.done] at hpast
  have hne' : child ≠ .absent := fun habs => by simp [habs, Child.done] at hge
  have hnf : s.child ≠ .finished := fun hf => by simp [hf, Child.done] at hlt
  exact { h with
    latch := hl
    downs := by rw [hdowns, if_pos hge]
    inWait := by
      rw [hin]
      exact h.inWait
    tid := fun _ => h.tid hpast
    calls := hcalls
    past := fun _ => .inr hge
    created := fun hn => ⟨hne', (h.created hn).2⟩
    started := ⟨fun _ => .inl hne', fun _ => h.started.mpr (.inl hne)⟩
    failed := fun hf => absurd (h.failed hf) hne
    joinable := by
      rw [h.joinable]
      simp [hne, hne']
    joined := fun hj => .inl ((h.joined hj).resolve_right hnf) }

end Steps

/-- **Step lemma**: every step of the owner and of the child keeps the invariant. -/
theorem Inv.step {a : Action} (h : Inv s) (hs : machine.Step s a t) : Inv t := by
  simp only [Machine.Step, machine] at hs
  cases a with
  | start created =>
    obtain ⟨⟨hidle, halive⟩, hs⟩ := Option.ite_none_right_eq_some.mp hs
    obtain ⟨hns, ⟨-, l, hl, rfl⟩ | ⟨-, rfl⟩⟩ := start_cases hs
    · exact h.start hidle halive hns hl
    · have habs := h.absent hns
      exact { h with
        started := ⟨fun _ => .inr rfl, fun _ => rfl⟩
        failed := fun _ => habs }
  | waitLock =>
    obtain ⟨hw, hs⟩ := Option.ite_none_right_eq_some.mp hs
    obtain ⟨l, hl, rfl⟩ := waitLock_cases hs
    exact h.waitLock hw hl
  | waitWake =>
    obtain ⟨hw, hs⟩ := Option.ite_none_right_eq_some.mp hs
    obtain ⟨l, hl, rfl⟩ := within_eq_ok.mp hs
    have hi := latch_step h.latch hl
    obtain ⟨-, hl⟩ := guarded_eq.mp hl
    obtain rfl := Except.ok.inj hl
    exact { h with latch := hi }
  | startReturns =>
    obtain ⟨ho, hs⟩ := Option.ite_none_right_eq_some.mp hs
    obtain ⟨-, ht⟩ := check_bind_eq_ok.mp (Option.some.inj hs)
    obtain rfl := Except.ok.inj ht
    have hr := h.returns (by simp [ho]) (by simp [ho])
      fun hj => (h.joined hj).resolve_left (by simp [ho])
    have hkeep : (s.joinable && !s.joined) = s.joinable := by
      cases hj : s.joinable with
      | false => rfl
      | true =>
        have hnj : ¬ s.joined = true := fun hjd => by
          have := (h.joinable.mp hj).2.2 hjd
          rw [ho] at this
          cases this
        simpa using hnj
    rwa [hkeep] at hr
  | join =>
    obtain ⟨⟨hidle, halive⟩, hs⟩ := Option.ite_none_right_eq_some.mp hs
    obtain ⟨hst, hs⟩ := check_bind_eq_ok.mp (Option.some.inj hs)
    obtain ⟨hnj, hs⟩ := check_bind_eq_ok.mp hs
    split at hs
    · next hj =>
      obtain rfl := Except.ok.inj hs
      exact h.join hidle halive hj
    · obtain rfl := Except.ok.inj hs
      rw [← hnj]
      exact h
  | joinReturns =>
    obtain ⟨⟨hj, hfin⟩, ht⟩ := guarded_eq.mp hs
    obtain rfl := Except.ok.inj ht
    have hr := h.returns (by simp [hj]) (by simp [hj]) fun _ => hfin
    have hnone : (s.joinable && !s.joined) = false := by
      rw [h.joining hj, Bool.not_true, Bool.and_false]
    rwa [hnone] at hr
  | destroy =>
    obtain ⟨⟨hidle, -⟩, hs⟩ := Option.ite_none_right_eq_some.mp hs
    simp only [State.destroy] at hs
    split at hs
    · obtain ⟨-, hs⟩ := check_bind_eq_ok.mp (Option.some.inj hs)
      obtain rfl := Except.ok.inj hs
      exact h.destroy hidle
    · obtain ⟨hjn, hs⟩ := check_bind_eq_ok.mp (Option.some.inj hs)
      obtain rfl := Except.ok.inj hs
      have hd := h.destroy hidle
      rwa [← hjn] at hd
  | storeTid tid =>
    obtain ⟨⟨hc, hpos⟩, hs⟩ := Option.ite_none_right_eq_some.mp hs
    obtain ⟨-, ht⟩ := check_bind_eq_ok.mp (Option.some.inj hs)
    obtain rfl := Except.ok.inj ht
    exact h.storeTid hc hpos
  | countDown =>
    obtain ⟨hc, hs⟩ := Option.ite_none_right_eq_some.mp hs
    obtain ⟨-, l, hl, rfl⟩ := countDown_cases hs
    have hi := latch_step h.latch hl
    obtain ⟨-, rfl⟩ := CountDownLatch.countDown_eq_ok (Option.some.inj hl)
    have hdowns : s.latch.downs + 1 = 1 := by
      rw [h.downs, hc]
      rfl
    have hcalls : s.calls = 0 := by
      rw [h.calls, hc]
      rfl
    exact h.advance hi hdowns rfl (by simp [hc, Child.done]) (by simp [hc, Child.done])
      (Nat.le_refl 3) hcalls
  | callFunc =>
    obtain ⟨hc, ht⟩ := guarded_eq.mp hs
    obtain rfl := Except.ok.inj ht
    have hdowns := h.downs
    have hcalls := h.calls
    rw [hc] at hdowns hcalls
    exact h.advance h.latch hdowns rfl (by simp [hc, Child.done]) (by simp [hc, Child.done]) (by decide)
      (congrArg (· + 1) hcalls)
  | funcReturns =>
    obtain ⟨hc, ht⟩ := guarded_eq.mp hs
    obtain rfl := Except.ok.inj ht
    have hdowns := h.downs
    have hcalls := h.calls
    rw [hc] at hdowns hcalls
    exact h.advance h.latch hdowns rfl (by simp [hc, Child.done]) (by simp [hc, Child.done]) (by decide)
      hcalls
  | funcThrows =>
    obtain ⟨-, hs⟩ := Option.ite_none_right_eq_some.mp hs
    cases hs

theorem reach_inv (h : machine.Reach anyAction s) : Inv s := by
  refine Machine.Reach.induct ?_ ?_ h
  · rintro s rfl
    exact init_inv
  · intro s a t _ hi _ hs
    exact hi.step hs

/-! ## What can fail -/

/-- The assertions against a wrong order of calls, and a `func_` that throws. -/
def Fault.isMisuse : Fault → Bool
  | .startedTwice | .joinNotStarted | .joinedTwice | .crashed => true
  | _ => false

theorem check_error {γ : Type} {p : Prop} [Decidable p] {e e' : Fault} {f : Unit → Except Fault γ}
    (h : (check p e >>= f) = .error e') : (¬ p ∧ e' = e) ∨ (p ∧ f () = .error e') := by
  by_cases hp : p
  · rw [Machine.check_bind _ hp] at h
    exact .inr ⟨hp, h⟩
  · rw [check, if_neg hp] at h
    exact .inl ⟨hp, (Except.error.inj h).symm⟩

theorem check_seq_error {p : Prop} [Decidable p] {e e' : Fault} {f : Unit → ExceptT Fault Option State}
    (h : (ExceptT.mk (some (check p e)) >>= f).run = some (.error e')) :
    (¬ p ∧ e' = e) ∨ (p ∧ (f ()).run = some (.error e')) := by
  by_cases hp : p
  · rw [Machine.check_pos e hp] at h
    exact .inr ⟨hp, h⟩
  · rw [check, if_neg hp] at h
    exact .inl ⟨hp, (Except.error.inj (Option.some.inj h)).symm⟩

theorem Inv.countDown_ok (h : Inv s) (hlt : s.child.done < 3) :
    ∃ l, CountDownLatch.act s.latch .countDown = some (.ok l) := by
  have hmin : CountDownLatch.INT_MIN < s.latch.count := by
    have hcount := h.latch.count
    rw [h.downs, if_neg (Nat.not_le.mpr hlt)] at hcount
    rw [hcount]
    decide
  exact ⟨_, congrArg some (Machine.check_bind _ hmin _)⟩

/-- The destructor: what it finds is a thread that it can detach, or none. -/
theorem destroy_error {e : Fault} (h : Inv s) (hidle : s.owner = .idle) (halive : s.destroyed = false)
    (he : s.destroy = .error e) : e = .terminate ∧ s.createFailed = true := by
  unfold State.destroy at he
  split at he
  · next hc =>
    obtain ⟨hst, hnj⟩ := Bool.and_eq_true_iff.mp hc
    rw [Bool.not_eq_true'] at hnj
    rcases check_error he with ⟨hn, rfl⟩ | ⟨-, he⟩
    · refine ⟨rfl, (h.started.mp hst).resolve_left fun hne => hn ?_⟩
      exact h.joinable.mpr ⟨hne, halive, by simp [hnj]⟩
    · cases he
  · next hc =>
    rcases check_error he with ⟨hn, rfl⟩ | ⟨-, he⟩
    · obtain ⟨hne, -, hj⟩ := h.joinable.mp (Bool.not_eq_false _ ▸ hn)
      have hst := h.started.mpr (.inl hne)
      have hjd : s.joined = true := by simpa [hst] using hc
      have ho := hj hjd
      rw [hidle] at ho
      cases ho
    · cases he

theorem act_error {a : Action} {e : Fault} (h : Inv s) (he : act s a = some (.error e)) :
    e.isMisuse = true ∨ (e = .terminate ∧ a = .destroy ∧ s.createFailed = true) := by
  cases a with
  | start created =>
    obtain ⟨-, he⟩ := Option.ite_none_right_eq_some.mp he
    rcases check_seq_error he with ⟨-, rfl⟩ | ⟨-, he⟩
    · exact .inl rfl
    · cases created with
      | true =>
        simp only [if_true, CountDownLatch.act, guarded] at he
        split at he
        · cases he
        · cases he
      | false => cases he
  | waitLock =>
    obtain ⟨-, he⟩ := Option.ite_none_right_eq_some.mp he
    simp only [State.waitLock, CountDownLatch.act, guarded] at he
    split at he
    · cases he
    · cases he
  | waitWake =>
    obtain ⟨-, he⟩ := Option.ite_none_right_eq_some.mp he
    simp only [CountDownLatch.act, guarded] at he
    split at he
    · cases he
    · cases he
  | startReturns =>
    obtain ⟨ho, he⟩ := Option.ite_none_right_eq_some.mp he
    rcases check_error (Option.some.inj he) with ⟨htid, -⟩ | ⟨-, he⟩
    · have hc := (h.created (by simp [ho])).1
      have hp := (h.past (by simp [ho])).resolve_left hc
      exact absurd (h.tid (by omega)) htid
    · cases he
  | join =>
    obtain ⟨-, he⟩ := Option.ite_none_right_eq_some.mp he
    rcases check_error (Option.some.inj he) with ⟨-, rfl⟩ | ⟨-, he⟩
    · exact .inl rfl
    rcases check_error he with ⟨-, rfl⟩ | ⟨-, he⟩
    · exact .inl rfl
    split at he
    · cases he
    · cases he
  | joinReturns | callFunc | funcReturns =>
    obtain ⟨-, he⟩ := guarded_eq.mp he
    cases he
  | destroy =>
    obtain ⟨⟨hidle, halive⟩, he⟩ := Option.ite_none_right_eq_some.mp he
    obtain ⟨ht, hf⟩ := destroy_error h hidle halive (Option.some.inj he)
    exact .inr ⟨ht, rfl, hf⟩
  | storeTid tid =>
    obtain ⟨⟨hc, -⟩, he⟩ := Option.ite_none_right_eq_some.mp he
    rcases check_error (Option.some.inj he) with ⟨hd, -⟩ | ⟨-, he⟩
    · exact absurd (h.owner_waits (by simp [hc]) (by simp [hc, Child.done])).2 hd
    · cases he
  | countDown =>
    obtain ⟨hc, he⟩ := Option.ite_none_right_eq_some.mp he
    rcases check_seq_error he with ⟨hd, -⟩ | ⟨-, he⟩
    · exact absurd (h.owner_waits (by simp [hc]) (by simp [hc, Child.done])).2 hd
    · obtain ⟨l, hl⟩ := h.countDown_ok (by simp [hc, Child.done])
      rw [hl] at he
      cases he
  | funcThrows =>
    obtain ⟨-, he⟩ := Option.ite_none_right_eq_some.mp he
    obtain rfl := Except.error.inj (Option.some.inj he)
    exact .inl rfl

/-! ## `start` returns -/

/-- A step during the wait of `start`, other than a spurious wakeup. -/
def DuringWait (s : State) (a : Action) : Prop := s.owner = .waiting ∧ a ≠ .waitWake

instance (s : State) (a : Action) : Decidable (DuringWait s a) := inferInstanceAs (Decidable (_ ∧ _))

theorem Inv.stores_tid (h : Inv s) (hw : s.owner = .waiting) (hc : s.child = .storeTid) :
    ∃ t, machine.Step s (.storeTid 1) t ∧ t.owner = .waiting ∧ t.child = .countDown := by
  have halive := (h.created (by simp [hw])).2
  refine ⟨{ s with tid := 1, child := .countDown }, ?_, hw, rfl⟩
  exact (if_pos ⟨hc, Nat.one_pos⟩).trans (congrArg some (Machine.check_bind _ halive _))

theorem Inv.counts_down (h : Inv s) (hw : s.owner = .waiting) (hc : s.child = .countDown) :
    ∃ t, machine.Step s .countDown t ∧ t.owner = .waiting ∧ t.child = .callFunc := by
  have halive := (h.created (by simp [hw])).2
  obtain ⟨l, hl⟩ := h.countDown_ok (by simp [hc, Child.done])
  refine ⟨{ s with latch := l, child := .callFunc }, ?_, hw, rfl⟩
  refine (if_pos hc).trans (seq_eq_ok.mpr ⟨(), ?_, within_eq_ok.mpr ⟨l, hl, rfl⟩⟩)
  exact congrArg some (Machine.check_pos _ halive)

/-- The child has counted down, so the owner was notified and finds the count at zero. -/
theorem Inv.leaves_wait (h : Inv s) (hw : s.owner = .waiting) (hc : 3 ≤ s.child.done) :
    ∃ t, machine.Step s .waitLock t ∧ t.owner = .started := by
  have hcount : ¬ 0 < s.latch.count := by
    have hcount := h.latch.count
    rw [h.downs, if_pos hc] at hcount
    omega
  have hb : Party.owner ∉ s.latch.condition.waiting := fun hb =>
    hcount (h.latch.waiting (List.ne_nil_of_mem hb))
  obtain ⟨l, hl, hin⟩ : ∃ l, CountDownLatch.act s.latch (.lock .owner) = some (.ok l) ∧
      l.inWait .owner = false := by
    refine ⟨_, if_pos ⟨h.inWait.mpr hw, hb⟩, ?_⟩
    simp only [CountDownLatch.State.wait, if_neg hcount, Function.update_self]
  refine ⟨{ s with latch := l, owner := if l.inWait .owner then .waiting else .started }, ?_, ?_⟩
  · exact (if_pos hw).trans (seq_eq_ok.mpr ⟨s.setLatch l, within_eq_ok.mpr ⟨l, hl, rfl⟩, rfl⟩)
  · simp [hin]

/-- **The wait of `start` gets to its end** without a spurious wakeup, wherever the child is. -/
theorem wait_ends (h : machine.Reach anyAction s) (hw : s.owner = .waiting) :
    ∃ t, machine.Path DuringWait s t ∧ t.owner = .started := by
  -- from the latch on, one locked section of the owner is left
  have hpast : ∀ u, machine.Reach anyAction u → u.owner = .waiting → 3 ≤ u.child.done →
      ∃ t, machine.Path DuringWait u t ∧ t.owner = .started := by
    intro u hu hwu hc
    obtain ⟨t, ht, ho⟩ := (reach_inv hu).leaves_wait hwu hc
    exact ⟨t, .single (a := .waitLock) ⟨hwu, by decide⟩ ht, ho⟩
  have hdown : ∀ u, machine.Reach anyAction u → u.owner = .waiting → u.child = .countDown →
      ∃ t, machine.Path DuringWait u t ∧ t.owner = .started := by
    intro u hu hwu hc
    obtain ⟨v, hv, hwv, hcv⟩ := (reach_inv hu).counts_down hwu hc
    obtain ⟨t, ht, ho⟩ := hpast v (.step hu trivial hv) hwv (by simp [hcv, Child.done])
    exact ⟨t, (Machine.Path.single (a := .countDown) ⟨hwu, by decide⟩ hv).trans ht, ho⟩
  have hne := ((reach_inv h).created (by simp [hw])).1
  cases hc : s.child with
  | absent => exact absurd hc hne
  | storeTid =>
    obtain ⟨u, hu, hwu, hcu⟩ := (reach_inv h).stores_tid hw hc
    obtain ⟨t, ht, ho⟩ := hdown u (.step h trivial hu) hwu hcu
    exact ⟨t, (Machine.Path.single (a := .storeTid 1) ⟨hw, by decide⟩ hu).trans ht, ho⟩
  | countDown => exact hdown s h hw hc
  | callFunc | func | finished => exact hpast s h hw (by simp [hc, Child.done])

/-- What is left of the wait: two for each statement of the child, and one while the owner is not
blocked. -/
def State.toGo (s : State) : ℕ :=
  2 * (5 - s.child.done) + if .owner ∈ s.latch.condition.waiting then 0 else 1

/-- Every step during the wait ends it or brings it nearer to its end. -/
theorem toGo_lt {a : Action} (ha : DuringWait s a) (hs : machine.Step s a t) :
    t.owner = .started ∨ t.owner = .waiting ∧ t.toGo < s.toGo := by
  obtain ⟨hw, hne⟩ := ha
  simp only [Machine.Step, machine] at hs
  cases a with
  | start | join | destroy =>
    obtain ⟨⟨hidle, -⟩, -⟩ := Option.ite_none_right_eq_some.mp hs
    rw [hw] at hidle
    cases hidle
  | startReturns =>
    obtain ⟨ho, -⟩ := Option.ite_none_right_eq_some.mp hs
    rw [hw] at ho
    cases ho
  | joinReturns =>
    obtain ⟨⟨ho, -⟩, -⟩ := guarded_eq.mp hs
    rw [hw] at ho
    cases ho
  | waitWake => exact absurd rfl hne
  | waitLock =>
    obtain ⟨-, hs⟩ := Option.ite_none_right_eq_some.mp hs
    obtain ⟨l, hl, rfl⟩ := waitLock_cases hs
    obtain ⟨⟨hin, hb⟩, hl⟩ := guarded_eq.mp hl
    obtain rfl := Except.ok.inj hl
    unfold CountDownLatch.State.wait
    by_cases hc : 0 < s.latch.count
    · -- the owner is blocked again
      right
      simp [State.toGo, if_pos hc, hin, hb, CondVar.wait]
    · left
      simp [if_neg hc]
  | storeTid tid =>
    obtain ⟨⟨hc, -⟩, hs⟩ := Option.ite_none_right_eq_some.mp hs
    obtain ⟨-, ht⟩ := check_bind_eq_ok.mp (Option.some.inj hs)
    obtain rfl := Except.ok.inj ht
    refine .inr ⟨hw, ?_⟩
    simp [State.toGo, hc, Child.done]
  | countDown =>
    obtain ⟨hc, hs⟩ := Option.ite_none_right_eq_some.mp hs
    obtain ⟨-, l, -, rfl⟩ := countDown_cases hs
    refine .inr ⟨hw, ?_⟩
    simp only [State.toGo, hc, Child.done]
    split <;> split <;> omega
  | callFunc | funcReturns =>
    obtain ⟨hc, ht⟩ := guarded_eq.mp hs
    obtain rfl := Except.ok.inj ht
    refine .inr ⟨hw, ?_⟩
    simp [State.toGo, hc, Child.done]
  | funcThrows =>
    obtain ⟨-, hs⟩ := Option.ite_none_right_eq_some.mp hs
    cases hs

/-- **The wait of `start` is bounded**, in whatever order the two threads go on. -/
theorem exec_length_le (as : List Action) (hs : machine.exec DuringWait s as = some t) :
    as.length ≤ s.toGo + 1 := by
  induction as generalizing s with
  | nil => exact Nat.zero_le _
  | cons a as ih =>
    simp only [Machine.exec] at hs
    split at hs
    · next ha =>
      split at hs
      · next u hu =>
        rcases toGo_lt ha hu with ho | ⟨-, hlt⟩
        · -- after the end no step is one during the wait
          cases as with
          | nil => exact Nat.le_add_left ..
          | cons b bs =>
            rw [Machine.exec, if_neg fun hb => by rw [hb.1] at ho; cases ho] at hs
            cases hs
        · have hle := ih hs
          rw [List.length_cons]
          omega
      · cases hs
    · cases hs

theorem Inv.start_returns (h : Inv s) (ho : s.owner = .started) :
    machine.Step s .startReturns { s with owner := .idle } := by
  have hp := (h.past (by simp [ho])).resolve_left (h.created (by simp [ho])).1
  have htid : 0 < s.tid := h.tid (by omega)
  exact (if_pos ho).trans (congrArg some (Machine.check_bind _ htid _))

/-- **The life of a thread**: in every order of calls and steps, what can fail is an assertion against
starting or joining twice or joining too early, a `func_` that throws, or the destructor when no
thread could be created.  So neither thread touches the object after its destruction.  `start` does
not get stuck: without spurious wakeups its wait can get to its end, takes 12 steps of the two threads
at most in whatever order they go on, and then `start` returns, with a positive `tid_`.  `func_` is
called once, and a `join` that has returned finds it finished. -/
theorem thread_lifecycle (h : machine.Reach anyAction s) :
    (∀ a e, act s a = some (.error e) →
      e.isMisuse = true ∨ (e = .terminate ∧ a = .destroy ∧ s.createFailed = true)) ∧
      (s.child ≠ .absent → s.owner ≠ .waiting → 0 < s.tid) ∧
      (s.owner = .waiting → (∃ t, machine.Path DuringWait s t ∧ t.owner = .started) ∧
        ∀ as t, machine.exec DuringWait s as = some t → as.length ≤ 12) ∧
      (s.owner = .started → machine.Step s .startReturns { s with owner := .idle }) ∧
      s.calls ≤ 1 ∧ (s.joined = true → s.owner = .joining ∨ (s.child = .finished ∧ s.calls = 1)) := by
  have hi := reach_inv h
  refine ⟨fun a e he => act_error hi he, fun hc hw => ?_, fun hw => ⟨wait_ends h hw, ?_⟩,
    hi.start_returns, ?_, fun hj => ?_⟩
  · have hp := (hi.past hw).resolve_left hc
    exact hi.tid (by omega)
  · intro as t hs
    have hle := exec_length_le as hs
    have htoGo : s.toGo ≤ 11 := by
      unfold State.toGo
      split <;> omega
    omega
  · rw [hi.calls]
    split
    · exact Nat.le_refl 1
    · exact Nat.zero_le 1
  · refine (hi.joined hj).imp_right fun hf => ⟨hf, ?_⟩
    rw [hi.calls, hf]
    rfl

/-- The object is destroyed while `func_` runs; after two steps the owner is blocked in `start`. -/
def detached : List Action :=
  [.start true, .waitLock, .storeTid 12, .waitWake, .waitLock, .countDown, .waitLock, .startReturns,
    .callFunc, .destroy, .funcReturns]

theorem thread_lifecycle_detached : ∃ s u : State, machine.Reach anyAction s ∧
    s.destroyed = true ∧ s.child = .finished ∧ 0 < s.tid ∧ s.calls ≤ 1 ∧
      machine.Reach anyAction u ∧ u.child = .storeTid ∧
      ∃ t, machine.Path DuringWait u t ∧ t.owner = .started := by
  obtain ⟨s, hs, hd, hc, ho⟩ : ∃ s : State, machine.exec anyAction init detached = some s ∧
      s.destroyed = true ∧ s.child = .finished ∧ s.owner = .idle := ⟨_, rfl, rfl, rfl, rfl⟩
  obtain ⟨u, hu, hw, hcu⟩ : ∃ u : State, machine.exec anyAction init (detached.take 2) = some u ∧
      u.owner = .waiting ∧ u.child = .storeTid := ⟨_, rfl, rfl, rfl⟩
  have hr : machine.Reach anyAction s := .of_exec (.init rfl) hs
  have hru : machine.Reach anyAction u := .of_exec (.init rfl) hu
  obtain ⟨-, htid, -, -, hcalls, -⟩ := thread_lifecycle hr
  obtain ⟨-, -, hwait, -⟩ := thread_lifecycle hru
  exact ⟨s, u, hr, hd, hc, htid (by simp [hc]) (by simp [ho]), hcalls, hru, hcu, (hwait hw).1⟩

/-- A thread that could not be created: the destructor detaches it all the same. -/
example : (machine.exec anyAction init [.start false]).bind (act · .destroy) =
    some (.error .terminate) := rfl

end MengSen.Thread

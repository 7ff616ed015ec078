import MengSen.Net.ChannelDispatch
import Mathlib.Data.List.Forall2

/-!
# Net.ChannelOrder — each ready channel once, its callbacks in order

The channels that `poll` returned are handled once each, in their order, with the callbacks that
their events ask for in the order of `handleEventWithGuard`.  The record of the events since the last
`poll` is read by the place of the loop thread.
-/

namespace MengSen.ChannelLoop

open Machine (guarded_eq check_bind_eq_ok bind_eq_ok anyAction)

variable {ρ κ ω : Type} {P : Poller ρ κ ω} {s t : State ρ κ ω}

/-- The bits that one of the tests reads. -/
def anyEvent : BitVec 32 :=
  POLLIN ||| POLLPRI ||| POLLOUT ||| POLLERR ||| POLLHUP ||| POLLNVAL ||| POLLRDHUP

/-- Every event asks for some callback. -/
theorem exists_requests {revents : BitVec 32} (h : revents &&& anyEvent ≠ 0) :
    ∃ k, Channel.requests revents k = true := by
  by_contra hn
  have hreq : ∀ k, Channel.requests revents k = false := fun k =>
    Bool.eq_false_iff.mpr fun hk => hn ⟨k, hk⟩
  have he := hreq .error
  have hr := hreq .read
  have hw := hreq .write
  simp only [Channel.requests, BitVec.and_or_distrib_left, bne_eq_false_iff_eq,
    BitVec.ofNat_eq_ofNat, BitVec.or_eq_zero_iff] at he hr hw
  have hc := hreq .close
  simp only [Channel.requests, BitVec.ofNat_eq_ofNat, hr.1.1, bne_self_eq_false, Bool.not_false,
    Bool.and_true, bne_eq_false_iff_eq] at hc
  exact h (by simp [anyEvent, BitVec.and_or_distrib_left, hr, he, hw, hc])

/-! ## The record -/

def Event.request : Event κ → Option (κ × Callback)
  | .expired _ => none
  | .due c k _ => some (c, k)

/-- The tests of `ks` that are met by the events of a channel. -/
def met (x : κ × BitVec 32) (ks : List Callback) : List (Option (κ × Callback)) :=
  (ks.filter (Channel.requests x.2)).map fun k => some (x.1, k)

/-- What is recorded of a channel that `poll` returned: its tie has expired, or all its tests are
met in their order. -/
def Segment (x : κ × BitVec 32) (seg : List (Event κ)) : Prop :=
  seg = [.expired x.1] ∨ seg.map Event.request = met x Callback.all

/-- The channels of `todo` still have to be handled, and `cur` is recorded since those of `done`. -/
structure Progress (s : State ρ κ ω) (done todo : List (κ × BitVec 32)) (cur : List (Event κ)) :
    Prop where
  trace : ∃ segs, List.Forall₂ Segment done segs ∧ s.trace = segs.flatten ++ cur
  rest : s.rest = todo.map Prod.fst
  revents : ∀ x ∈ todo, ∀ ch, s.channels x.1 = some ch → ch.revents = x.2

/-- The tests of the channel `x` are made up to those of `tests`. -/
structure Testing (s : State ρ κ ω) (x : κ × BitVec 32) (cur : List (Event κ)) : Prop where
  tests : ∃ made, Callback.all = made ++ s.tests ∧ cur.map Event.request = met x made
  revents : ∀ ch, s.channels x.1 = some ch → ch.revents = x.2

/-- Between two channels of the `for` loop. -/
def Between (s : State ρ κ ω) : Prop :=
  ∃ done todo, s.polled = done ++ todo ∧ Progress s done todo []

/-- In the handler of the channel `c`. -/
def Within (s : State ρ κ ω) (c : κ) : Prop :=
  ∃ done x todo cur, s.polled = done ++ x :: todo ∧ x.1 = c ∧ Progress s done todo cur ∧
    Testing s x cur

/-- The record since the last `poll`, by the place of the loop thread. -/
def Recorded (s : State ρ κ ω) : Prop :=
  match s.pc with
  | .dispatch | .returning _ => Between s
  | .handler c | .callback c => Within s c
  | .functors => Progress s s.polled [] []
  | .outside | .polling => True

/-! ## The steps -/

section Frame

variable {done todo : List (κ × BitVec 32)} {cur : List (Event κ)} {x : κ × BitVec 32}

/-- The channels that still have to be handled keep their events. -/
theorem Progress.frame (h : Progress s done todo cur) (hi : Inv P s) (htrace : t.trace = s.trace)
    (hrest : t.rest = s.rest) (hk : Keeps s t) : Progress t done todo cur where
  trace := htrace ▸ h.trace
  rest := hrest.trans h.rest
  revents y hy ch hch := by
    have hmem : y.1 ∈ s.rest := h.rest ▸ List.mem_map_of_mem hy
    obtain ⟨z, hz, hadd⟩ := hi.heap.pending _ hmem
    obtain ⟨ch', hch', -, hrev⟩ := hk _ z hz (.inl hadd)
    obtain rfl := Option.some.inj (hch.symm.trans hch')
    exact hrev.trans (h.revents y hy z hz)

/-- So does the channel whose handler runs. -/
theorem Testing.frame (h : Testing s x cur) (hi : Inv P s) (hx : s.pc.handling = some x.1)
    (htests : t.tests = s.tests) (hk : Keeps s t) : Testing t x cur where
  tests := htests ▸ h.tests
  revents ch hch := by
    obtain ⟨z, hz, he⟩ := (hi.handling _).mp hx
    obtain ⟨ch', hch', -, hrev⟩ := hk _ z hz (.inr he)
    obtain rfl := Option.some.inj (hch.symm.trans hch')
    exact hrev.trans (h.revents z hz)

theorem Between.frame (h : Between s) (hi : Inv P s) (hsame : SameControl s t) (hk : Keeps s t) :
    Between t := by
  obtain ⟨done, todo, hp, hprog⟩ := h
  exact ⟨done, todo, hsame.polled.trans hp, hprog.frame hi hsame.trace hsame.rest hk⟩

theorem Within.frame {c : κ} (h : Within s c) (hi : Inv P s) (hc : s.pc.handling = some c)
    (hsame : SameControl s t) (hk : Keeps s t) : Within t c := by
  obtain ⟨done, x, todo, cur, hp, rfl, hprog, htest⟩ := h
  exact ⟨done, x, todo, cur, hsame.polled.trans hp, rfl,
    hprog.frame hi hsame.trace hsame.rest hk, htest.frame hi hc hsame.tests hk⟩

/-- **Frame**: user code leaves the record. -/
theorem Recorded.frame (h : Recorded s) (hi : Inv P s) (hsame : SameControl s t) (hk : Keeps s t) :
    Recorded t := by
  unfold Recorded at h ⊢
  rw [hsame.pc]
  cases hpc : s.pc with
  | outside | polling => trivial
  | dispatch | returning c =>
    rw [hpc] at h
    exact Between.frame h hi hsame hk
  | handler c | callback c =>
    rw [hpc] at h
    exact Within.frame h hi (by rw [hpc]; rfl) hsame hk
  | functors =>
    rw [hpc] at h
    show Progress t t.polled [] []
    rw [hsame.polled]
    exact Progress.frame h hi hsame.trace hsame.rest hk

theorem Between.recorded (h : Between s) (hpc : s.pc = .dispatch ∨ ∃ c, s.pc = .returning c) :
    Recorded s := by
  unfold Recorded
  rcases hpc with hpc | ⟨c, hpc⟩
  · rw [hpc]
    exact h
  · rw [hpc]
    exact h

theorem Within.recorded {c : κ} (h : Within s c) (hpc : s.pc.handling = some c) : Recorded s := by
  unfold Recorded
  cases hs : s.pc with
  | handler d | callback d =>
    rw [hs] at hpc
    obtain rfl := Option.some.inj hpc
    exact h
  | _ =>
    rw [hs] at hpc
    cases hpc

end Frame

/-- The next channel: its tie has expired, or its tests begin. -/
theorem Between.handleEvent [DecidableEq κ] [DecidableEq ω] {c : κ} {rest : List κ} (h : Between s)
    (hpc : s.pc = .dispatch) (hr : s.rest = c :: rest)
    (ht : handleEvent { s with currentActiveChannel := some c, rest := rest } c = .ok t) :
    Recorded t := by
  obtain ⟨done, todo, hp, ⟨segs, hsegs, htrace⟩, hrest, hrev⟩ := h
  rcases todo with _ | ⟨x, todo⟩
  · rw [hr] at hrest
    cases hrest
  rw [hr, List.map_cons] at hrest
  obtain ⟨rfl, rfl⟩ := List.cons.inj hrest
  have htail : ∀ y ∈ todo, ∀ ch, s.channels y.1 = some ch → ch.revents = y.2 := fun y hy =>
    hrev y (List.mem_cons_of_mem x hy)
  -- the handled channel only changes its `eventHandling_`
  have hstart : ∀ ch, s.channels x.1 = some ch → ∀ y ∈ x :: todo, ∀ ch',
      (s.setChannel x.1 (some { ch with eventHandling := true })).channels y.1 = some ch' →
        ch'.revents = y.2 := by
    intro ch hch y hy ch' hch'
    by_cases heq : y.1 = x.1
    · rw [heq] at hch'
      obtain rfl := Option.some.inj ((setChannel_self ..).symm.trans hch')
      exact hrev y hy ch (heq ▸ hch)
    · exact hrev y hy ch' ((setChannel_ne _ heq).symm.trans hch')
  obtain ⟨ch, hc, ⟨-, -, rfl⟩ | ⟨-, o, obj, -, rfl⟩ | ⟨-, rfl⟩⟩ := handleEvent_cases ht
  · refine Between.recorded ⟨done ++ [x], todo, by simp [hp], ⟨segs ++ [[.expired x.1]], ?_, ?_⟩, rfl,
      htail⟩ (.inl hpc)
    · exact List.rel_append hsegs (.cons (.inl rfl) .nil)
    · simp [htrace]
  · exact Within.recorded ⟨done, x, todo, [], hp, rfl,
      ⟨⟨segs, hsegs, htrace⟩, rfl, fun y hy => hstart ch hc y (List.mem_cons_of_mem x hy)⟩,
      ⟨[], rfl, rfl⟩, hstart ch hc x List.mem_cons_self⟩ rfl
  · exact Within.recorded ⟨done, x, todo, [], hp, rfl,
      ⟨⟨segs, hsegs, htrace⟩, rfl, fun y hy => hstart ch hc y (List.mem_cons_of_mem x hy)⟩,
      ⟨[], rfl, rfl⟩, hstart ch hc x List.mem_cons_self⟩ rfl

/-- A test is made and met: it is recorded. -/
theorem Within.testMet {c : κ} {k : Callback} {tests : List Callback} {ch : Channel ω} {called : Bool}
    (h : Within s c) (hk : s.tests = k :: tests) (hc : s.channels c = some ch)
    (hreq : Channel.requests ch.revents k = true) (pc : Pc κ) :
    Within { s with tests := tests, trace := s.trace ++ [.due c k called], pc := pc } c := by
  obtain ⟨done, x, todo, cur, hp, rfl, ⟨⟨segs, hsegs, htrace⟩, hrest, hrev⟩, ⟨made, hmade, hcur⟩,
    hx⟩ := h
  rw [hx ch hc] at hreq
  refine ⟨done, x, todo, cur ++ [.due x.1 k called], hp, rfl, ⟨⟨segs, hsegs, ?_⟩, hrest, hrev⟩,
    ⟨made ++ [k], by rw [hmade, hk, List.append_cons], ?_⟩, hx⟩
  · simp only [htrace, List.append_assoc]
  · simp [met, hreq, hcur, Event.request]

theorem Within.testUnmet {c : κ} {k : Callback} {tests : List Callback} {ch : Channel ω}
    (h : Within s c) (hk : s.tests = k :: tests) (hc : s.channels c = some ch)
    (hreq : ¬ Channel.requests ch.revents k = true) : Within { s with tests := tests } c := by
  obtain ⟨done, x, todo, cur, hp, rfl, ⟨htrace, hrest, hrev⟩, ⟨made, hmade, hcur⟩, hx⟩ := h
  rw [hx ch hc] at hreq
  refine ⟨done, x, todo, cur, hp, rfl, ⟨htrace, hrest, hrev⟩,
    ⟨made ++ [k], by rw [hmade, hk, List.append_cons], ?_⟩, hx⟩
  simp [met, hreq, hcur]

theorem Within.goto {c : κ} (h : Within s c) (pc : Pc κ) : Within { s with pc := pc } c := by
  obtain ⟨done, x, todo, cur, hp, hx, ⟨htrace, hrest, hrev⟩, ⟨htests, hxrev⟩⟩ := h
  exact ⟨done, x, todo, cur, hp, hx, ⟨htrace, hrest, hrev⟩, ⟨htests, hxrev⟩⟩

theorem Between.goto (h : Between s) (guard : Option ω) (pc : Pc κ) :
    Between { s with guard := guard, pc := pc } := by
  obtain ⟨done, todo, hp, htrace, hrest, hrev⟩ := h
  exact ⟨done, todo, hp, htrace, hrest, hrev⟩

/-- All tests are made. -/
theorem Within.handlerDone [DecidableEq κ] {c : κ} {ch : Channel ω} (h : Within s c)
    (hk : s.tests = []) (hc : s.channels c = some ch) :
    Between { s.setChannel c (some { ch with eventHandling := false }) with pc := .returning c } := by
  obtain ⟨done, x, todo, cur, hp, rfl, ⟨⟨segs, hsegs, htrace⟩, hrest, hrev⟩, ⟨made, hmade, hcur⟩,
    hx⟩ := h
  rw [hk, List.append_nil] at hmade
  refine ⟨done ++ [x], todo, by simp [State.setChannel, hp], ⟨segs ++ [cur], ?_, ?_⟩, hrest, ?_⟩
  · exact List.rel_append hsegs (.cons (.inr (hmade ▸ hcur)) .nil)
  · simp [State.setChannel, htrace]
  · intro y hy ch' hch'
    by_cases heq : y.1 = x.1
    · rw [heq] at hch'
      obtain rfl := Option.some.inj ((setChannel_self ..).symm.trans hch')
      exact hrev y hy ch (heq ▸ hc)
    · exact hrev y hy ch' ((setChannel_ne _ heq).symm.trans hch')

/-- `poll` sets the events that it returns. -/
theorem setRevents_revents [DecidableEq κ] {active : List (κ × BitVec 32)}
    (hnd : (active.map Prod.fst).Nodup) (ht : setRevents s active = .ok t) :
    (∀ c, c ∉ active.map Prod.fst → t.channels c = s.channels c) ∧
      ∀ x ∈ active, ∀ ch, t.channels x.1 = some ch → ch.revents = x.2 := by
  induction active generalizing s with
  | nil =>
    obtain rfl := Except.ok.inj ht
    exact ⟨fun _ _ => rfl, nofun⟩
  | cons x active ih =>
    obtain ⟨ch, -, ht⟩ := bind_eq_ok.mp ht
    rw [List.map_cons, List.nodup_cons] at hnd
    obtain ⟨hout, hin⟩ := ih hnd.2 ht
    constructor
    · intro c hc
      rw [List.map_cons, List.mem_cons, not_or] at hc
      exact (hout c hc.2).trans (setChannel_ne _ hc.1)
    · intro y hy ch' hch'
      rcases List.mem_cons.mp hy with rfl | hy
      · rw [hout _ hnd.1, setChannel_self] at hch'
        rw [← Option.some.inj hch']
      · exact hin y hy ch' hch'

variable [DecidableEq κ] [DecidableEq ω]

theorem Recorded.step {a : Action κ ω} (hi : Inv P s) (h : Recorded s)
    (hs : (machine P).Step s a t) : Recorded t := by
  by_cases hu : a.isUser = true
  · obtain ⟨hsame, hk⟩ := user_keeps hu hs
    exact h.frame hi hsame hk
  simp only [Machine.Step, machine] at hs
  unfold Recorded at h
  cases a with
  | create | make | update | remove | setCallback | tie | acquire | release | destroy =>
    exact absurd rfl hu
  | callLoop =>
    obtain ⟨-, hs⟩ := Option.ite_none_right_eq_some.mp hs
    obtain ⟨-, ht⟩ := check_bind_eq_ok.mp (Option.some.inj hs)
    obtain rfl := Except.ok.inj ht
    trivial
  | pollReturns active =>
    obtain ⟨⟨-, hret⟩, hs⟩ := Option.ite_none_right_eq_some.mp hs
    obtain ⟨u, hu, ht⟩ := bind_eq_ok.mp (Option.some.inj hs)
    obtain rfl := Except.ok.inj ht
    obtain ⟨-, hrev⟩ := setRevents_revents (P.nodup_returns hret) hu
    exact ⟨[], active, rfl, ⟨[], .nil, rfl⟩, rfl, hrev⟩
  | nextChannel =>
    simp only [act] at hs
    split at hs
    · next c rest hpc hr =>
      rw [hpc] at h
      exact Between.handleEvent h hpc hr (Option.some.inj hs)
    · cases hs
  | nextTest =>
    simp only [act] at hs
    split at hs
    · next c k tests hpc hk =>
      rw [hpc] at h
      obtain ⟨ch, hch, ht⟩ := bind_eq_ok.mp (Option.some.inj hs)
      have hc := deref_eq_ok.mp hch
      split at ht
      · next hreq =>
        obtain rfl := Except.ok.inj ht
        refine (Within.testMet h hk hc hreq _).recorded ?_
        cases ch.callbacks k with
        | true => rfl
        | false => rfl
      · next hreq =>
        obtain rfl := Except.ok.inj ht
        exact (Within.testUnmet h hk hc hreq).recorded (by rw [hpc]; rfl)
    · cases hs
  | callbackReturns =>
    simp only [act] at hs
    split at hs
    · next c hpc =>
      rw [hpc] at h
      obtain rfl := Except.ok.inj (Option.some.inj hs)
      exact Within.goto h _
    · cases hs
  | handlerDone =>
    simp only [act] at hs
    split at hs
    · next c hpc hk =>
      rw [hpc] at h
      obtain ⟨ch, hch, ht⟩ := bind_eq_ok.mp (Option.some.inj hs)
      obtain rfl := Except.ok.inj ht
      exact Within.handlerDone h hk (deref_eq_ok.mp hch)
    · cases hs
  | releaseGuard =>
    simp only [act] at hs
    split at hs
    · next c hpc hg =>
      rw [hpc] at h
      obtain rfl := Except.ok.inj (Option.some.inj hs)
      exact Between.goto h s.guard .dispatch
    · next c o hpc hg =>
      rw [hpc] at h
      obtain ⟨hsame, hk⟩ := dropRef_keeps (Option.some.inj hs)
      exact ((Between.goto h none .dispatch).frame (hi.release hpc) hsame hk).recorded (.inl hsame.pc)
    · cases hs
  | eventsDone =>
    obtain ⟨⟨hpc, hr⟩, ht⟩ := guarded_eq.mp hs
    obtain rfl := Except.ok.inj ht
    rw [hpc] at h
    obtain ⟨done, todo, hp, htrace, hrest, hrev⟩ := h
    obtain rfl : todo = [] := List.map_eq_nil_iff.mp (hrest.symm.trans hr)
    rw [List.append_nil] at hp
    show Progress _ s.polled [] []
    rw [hp]
    exact ⟨htrace, hr, fun _ hx => absurd hx List.not_mem_nil⟩
  | again =>
    obtain ⟨-, ht⟩ := guarded_eq.mp hs
    obtain rfl := Except.ok.inj ht
    trivial
  | loopReturns =>
    obtain ⟨-, ht⟩ := guarded_eq.mp hs
    obtain rfl := Except.ok.inj ht
    trivial

theorem reach_recorded (h : (machine P).Reach anyAction s) : Recorded s := by
  refine Machine.Reach.induct ?_ ?_ h
  · rintro s ⟨-, -, -, -, -, -, hpc, -⟩
    unfold Recorded
    rw [hpc]
    trivial
  · intro s a t hr hh _ hs
    exact hh.step (reach_inv hr) hs

/-- **Each ready channel once, its callbacks in order**: when the `for` loop is done, the record since
`poll` is one segment for each channel returned, in their order.  A segment is the expired tie or the
tests that the events meet, in the order close, error, read, write; it is not empty when there is an
event. -/
theorem dispatched_once (h : (machine P).Reach anyAction s) (hpc : s.pc = .functors) :
    ∃ segs, s.trace = segs.flatten ∧ List.Forall₂ (fun x seg => Segment x seg ∧
      (x.2 &&& anyEvent ≠ 0 → seg ≠ [])) s.polled segs := by
  have hrec := reach_recorded h
  unfold Recorded at hrec
  rw [hpc] at hrec
  obtain ⟨segs, hsegs, htrace⟩ := hrec.trace
  refine ⟨segs, by rw [htrace, List.append_nil], hsegs.imp fun x seg hseg => ⟨hseg, fun hev hnil => ?_⟩⟩
  rcases hseg with hexp | hmet
  · rw [hnil] at hexp
    cases hexp
  · obtain ⟨k, hk⟩ := exists_requests hev
    have hmem : k ∈ Callback.all.filter (Channel.requests x.2) :=
      List.mem_filter.mpr ⟨by cases k <;> decide, hk⟩
    rw [hnil, met, List.map_nil, eq_comm, List.map_eq_nil_iff] at hmet
    exact absurd (hmet ▸ hmem) List.not_mem_nil

/-- The iteration of `lastReference` goes on: the second channel has no callback set. -/
def oneIteration : List (Action ℕ ℕ) :=
  lastReference (some 0) ++ [.release 0 true, .callbackReturns, .nextTest, .handlerDone, .releaseGuard,
    .nextChannel, .nextTest, .nextTest, .nextTest, .nextTest, .handlerDone, .releaseGuard, .eventsDone]

theorem dispatched_once_oneIteration : ∃ s : State (List (ℤ × ℕ)) ℕ ℕ,
    (machine listPoller).Reach anyAction s ∧ s.channels 7 = none ∧
      s.polled = [(7, POLLIN), (8, POLLOUT)] ∧ s.trace = [.due 7 .read true, .due 8 .write false] ∧
      ∃ segs, s.trace = segs.flatten ∧ List.Forall₂ Segment s.polled segs := by
  obtain ⟨s, hs, hpc, hch, hpolled, htrace⟩ : ∃ s : State (List (ℤ × ℕ)) ℕ ℕ,
      (machine listPoller).exec anyAction start oneIteration = some s ∧ s.pc = .functors ∧
        s.channels 7 = none ∧ s.polled = [(7, POLLIN), (8, POLLOUT)] ∧
        s.trace = [.due 7 .read true, .due 8 .write false] := ⟨_, rfl, rfl, rfl, rfl, rfl⟩
  have hr : (machine listPoller).Reach anyAction s := .of_exec (.init init_start) hs
  obtain ⟨segs, hsegs, hall⟩ := dispatched_once hr hpc
  exact ⟨s, hr, hch, hpolled, htrace, segs, hsegs, hall.imp fun _ _ hx => hx.1⟩

end MengSen.ChannelLoop

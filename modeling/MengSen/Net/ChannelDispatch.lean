import MengSen.Net.ChannelLoop
import Mathlib.Data.List.Forall2

/-!
# Net.ChannelDispatch — ties and the order of the callbacks

Two results on the runs of `Net.Channel`.  A channel that is tied to the object it is a member of is
not destroyed while its events are handled, because `guard` holds the object.  The channels that
`poll` returned are handled once each, in their order, with the callbacks that their events ask for
in the order of `handleEventWithGuard`.
-/

namespace MengSen.ChannelLoop

open Machine (guarded_eq check_bind_eq_ok bind_eq_ok anyAction)

variable {ρ κ ω : Type} {P : Poller ρ κ ω} {s t : State ρ κ ω}

/-! ## What user code leaves as it is -/

/-- The actions of user code and of other threads. -/
def Action.isUser : Action κ ω → Bool
  | .create .. | .make .. | .update .. | .remove .. | .setCallback .. | .tie .. | .acquire ..
  | .release .. | .destroy .. => true
  | _ => false

/-- The channels of the loop, and the one whose handler runs, stay with their owner and events. -/
def Keeps (s t : State ρ κ ω) : Prop :=
  ∀ c ch, s.channels c = some ch → ch.addedToLoop = true ∨ ch.eventHandling = true →
    ∃ ch', t.channels c = some ch' ∧ ch'.owner = ch.owner ∧ ch'.revents = ch.revents

/-- The `for` loop stands where it stood. -/
structure SameControl (s t : State ρ κ ω) : Prop where
  pc : t.pc = s.pc
  rest : t.rest = s.rest
  tests : t.tests = s.tests
  guard : t.guard = s.guard
  polled : t.polled = s.polled
  trace : t.trace = s.trace

theorem same {f : κ → Option (Channel ω)} {g : ω → Option (Object κ)} {p : ρ} :
    SameControl s { s with channels := f, objects := g, poller := p } :=
  ⟨rfl, rfl, rfl, rfl, rfl, rfl⟩

theorem Keeps.of_eq (h : t.channels = s.channels) : Keeps s t :=
  fun _ ch hc _ => ⟨ch, (congrFun h _).trans hc, rfl, rfl⟩

theorem Keeps.trans {u : State ρ κ ω} (h : t.channels = s.channels) (h' : Keeps t u) : Keeps s u :=
  fun c ch hc hin => h' c ch ((congrFun h c).trans hc) hin

/-! ## A tied channel -/

def Action.isNext : Action κ ω → Bool
  | .nextChannel => true
  | _ => false

/-- A channel that is the member of an object is tied to it when its events are handled. -/
def Tied (s : State ρ κ ω) (a : Action κ ω) : Prop :=
  a.isNext = true → ∀ c ∈ s.rest.head?, ∀ ch ∈ s.channels c, ∀ o ∈ ch.owner,
    ch.tied = true ∧ ch.tie = some o

/-- The guard holds the object whose member's events are handled. -/
def Held (s : State ρ κ ω) : Prop :=
  ∀ c ch o, s.pc.handling = some c → s.channels c = some ch → ch.owner = some o → s.guard = some o

theorem Held.of_handling (h : t.pc.handling = none) : Held t :=
  fun _ _ _ hc => absurd (h.symm.trans hc) nofun

/-- The channel whose handler runs keeps its owner. -/
theorem Held.frame (h : Held s) (hi : Inv P s) (hpc : t.pc.handling = s.pc.handling)
    (hg : t.guard = s.guard) (hk : Keeps s t) : Held t := by
  intro c ch o hc hch howner
  rw [hpc] at hc
  obtain ⟨x, hx, he⟩ := (hi.handling c).mp hc
  obtain ⟨ch', hch', how, -⟩ := hk c x hx (.inr he)
  obtain rfl := Option.some.inj (hch.symm.trans hch')
  exact hg.trans (h c x o hc hx (how.symm.trans howner))

variable [DecidableEq κ]

theorem Keeps.setChannel {c : κ} {ch : Channel ω} (hc : s.channels c = some ch) (ch' : Channel ω)
    (howner : ch'.owner = ch.owner) (hrev : ch'.revents = ch.revents) :
    Keeps s (s.setChannel c (some ch')) := by
  intro d x hx _
  by_cases hd : d = c
  · subst hd
    obtain rfl := Option.some.inj (hc.symm.trans hx)
    exact ⟨ch', setChannel_self .., howner, hrev⟩
  · exact ⟨x, (setChannel_ne _ hd).trans hx, rfl, rfl⟩

theorem Keeps.setChannel_out {c : κ} {r : Option (Channel ω)}
    (hout : ∀ ch, s.channels c = some ch → ch.addedToLoop = false ∧ ch.eventHandling = false) :
    Keeps s (s.setChannel c r) := by
  intro d x hx hin
  have hd : d ≠ c := by
    rintro rfl
    obtain ⟨ha, he⟩ := hout x hx
    rcases hin with h | h
    · rw [ha] at h
      cases h
    · rw [he] at h
      cases h
  exact ⟨x, (setChannel_ne _ hd).trans hx, rfl, rfl⟩

theorem destroyChannel_keeps {c : κ} {inLoop : Bool} (h : destroyChannel P s c inLoop = .ok t) :
    SameControl s t ∧ Keeps s t := by
  obtain ⟨ch, hc, hh, ha, rfl⟩ := destroyChannel_cases h
  refine ⟨same, .setChannel_out fun x hx => ?_⟩
  obtain rfl := Option.some.inj (hc.symm.trans hx)
  exact ⟨ha, hh⟩

/-- `~Channel` of a channel that is not being handled does not fail at its first assertion. -/
theorem destroyChannel_notHandling {c : κ} {inLoop : Bool}
    (hc : ∀ ch, s.channels c = some ch → ch.eventHandling = false) :
    destroyChannel P s c inLoop ≠ .error (.assertion .notHandling) := by
  unfold destroyChannel deref
  cases hch : s.channels c with
  | none => nofun
  | some ch =>
    intro he
    simp only [Machine.ok_bind, Machine.check_bind _ (hc ch hch)] at he
    by_cases ha : ch.addedToLoop = false
    · rw [Machine.check_bind _ ha] at he
      by_cases hp : inLoop = true → hasChannel P s c ch = false
      · rw [Machine.check_bind _ hp] at he
        cases he
      · rw [Machine.check, if_neg hp] at he
        cases he
    · rw [Machine.check, if_neg ha] at he
      cases he

variable [DecidableEq ω]

theorem dropRef_keeps {o : ω} {inLoop : Bool} (h : dropRef P s o inLoop = .ok t) :
    SameControl s t ∧ Keeps s t := by
  rcases dropRef_cases h with ⟨-, rfl⟩ | ⟨obj, -, ⟨-, rfl⟩ | ⟨-, h⟩⟩
  · exact ⟨same, .of_eq rfl⟩
  · exact ⟨same, .of_eq rfl⟩
  · obtain ⟨hs, hk⟩ := destroyChannel_keeps h
    exact ⟨{ hs with }, .trans rfl hk⟩

/-- **Frame**: user code changes nothing of the `for` loop. -/
theorem user_keeps {a : Action κ ω} (hu : a.isUser = true) (hs : (machine P).Step s a t) :
    SameControl s t ∧ Keeps s t := by
  simp only [Machine.Step, machine] at hs
  cases a with
  | callLoop | pollReturns | nextChannel | nextTest | callbackReturns | handlerDone | releaseGuard
  | eventsDone | again | loopReturns => cases hu
  | create c fd =>
    obtain ⟨hc, ht⟩ := guarded_eq.mp hs
    obtain rfl := Except.ok.inj ht
    refine ⟨same, .setChannel_out fun x hx => ?_⟩
    rw [Option.isNone_iff_eq_none.mp hc] at hx
    cases hx
  | make o c fd =>
    obtain ⟨⟨hc, -⟩, ht⟩ := guarded_eq.mp hs
    obtain rfl := Except.ok.inj ht
    refine ⟨same, .setChannel_out fun x hx => ?_⟩
    rw [Option.isNone_iff_eq_none.mp hc] at hx
    cases hx
  | update c i =>
    obtain ⟨-, hs⟩ := Option.ite_none_right_eq_some.mp hs
    obtain ⟨ch, hch, ht⟩ := bind_eq_ok.mp (Option.some.inj hs)
    obtain rfl := Except.ok.inj ht
    exact ⟨same, .setChannel (deref_eq_ok.mp hch) { ch.change i with addedToLoop := true }
      (ch.change_owner i) (ch.change_revents i)⟩
  | remove c =>
    obtain ⟨-, hs⟩ := Option.ite_none_right_eq_some.mp hs
    obtain ⟨ch, hc, -, rfl⟩ := removeChannel_cases (Option.some.inj hs)
    exact ⟨same, .setChannel hc _ rfl rfl⟩
  | setCallback c k set =>
    obtain ⟨-, hs⟩ := Option.ite_none_right_eq_some.mp hs
    obtain ⟨ch, hch, ht⟩ := bind_eq_ok.mp (Option.some.inj hs)
    obtain rfl := Except.ok.inj ht
    exact ⟨same, .setChannel (deref_eq_ok.mp hch) _ rfl rfl⟩
  | tie c obj =>
    obtain ⟨-, hs⟩ := Option.ite_none_right_eq_some.mp hs
    obtain ⟨ch, hch, ht⟩ := bind_eq_ok.mp (Option.some.inj hs)
    obtain rfl := Except.ok.inj ht
    exact ⟨same, .setChannel (deref_eq_ok.mp hch) _ rfl rfl⟩
  | acquire o =>
    simp only [act] at hs
    split at hs
    · cases hs
    · obtain ⟨-, ht⟩ := guarded_eq.mp hs
      obtain rfl := Except.ok.inj ht
      exact ⟨same, .of_eq rfl⟩
  | release o inLoop =>
    obtain ⟨-, hs⟩ := Option.ite_none_right_eq_some.mp hs
    exact dropRef_keeps (Option.some.inj hs)
  | destroy c inLoop =>
    simp only [act] at hs
    split at hs
    · cases hs
    · obtain ⟨-, hs⟩ := Option.ite_none_right_eq_some.mp hs
      exact destroyChannel_keeps (Option.some.inj hs)


instance (s : State ρ κ ω) (a : Action κ ω) : Decidable (Tied s a) :=
  inferInstanceAs (Decidable (_ → _))

/-- `handleEvent` of a channel that is tied to its object. -/
theorem Held.handleEvent {c : κ} (hpc : s.pc = .dispatch)
    (hok : ∀ ch ∈ s.channels c, ∀ o ∈ ch.owner, ch.tied = true ∧ ch.tie = some o)
    (ht : handleEvent s c = .ok t) : Held t := by
  obtain ⟨ch, hc, ⟨-, -, rfl⟩ | ⟨-, o, obj, hl, rfl⟩ | ⟨hn, rfl⟩⟩ := handleEvent_cases ht
  · exact .of_handling (by rw [hpc]; rfl)
  · intro d x o' hd hx howner
    obtain rfl : c = d := Option.some.inj hd
    obtain rfl := Option.some.inj ((setChannel_self ..).symm.trans hx)
    obtain ⟨htie, -, -⟩ := lock_eq_some hl
    exact htie.symm.trans (hok ch hc o' howner).2
  · intro d x o' hd hx howner
    obtain rfl : c = d := Option.some.inj hd
    obtain rfl := Option.some.inj ((setChannel_self ..).symm.trans hx)
    exact absurd (hn.symm.trans (hok ch hc o' howner).1) nofun

theorem Held.step {a : Action κ ω} (hi : Inv P s) (h : Held s) (hok : Tied s a)
    (hs : (machine P).Step s a t) : Held t := by
  by_cases hu : a.isUser = true
  · obtain ⟨hsame, hk⟩ := user_keeps hu hs
    exact h.frame hi (congrArg Pc.handling hsame.pc) hsame.guard hk
  simp only [Machine.Step, machine] at hs
  cases a with
  | create | make | update | remove | setCallback | tie | acquire | release | destroy =>
    exact absurd rfl hu
  | callLoop =>
    obtain ⟨-, hs⟩ := Option.ite_none_right_eq_some.mp hs
    obtain ⟨-, ht⟩ := check_bind_eq_ok.mp (Option.some.inj hs)
    obtain rfl := Except.ok.inj ht
    exact .of_handling rfl
  | pollReturns active =>
    obtain ⟨-, hs⟩ := Option.ite_none_right_eq_some.mp hs
    obtain ⟨u, -, ht⟩ := bind_eq_ok.mp (Option.some.inj hs)
    obtain rfl := Except.ok.inj ht
    exact .of_handling rfl
  | nextChannel =>
    simp only [act] at hs
    split at hs
    · next c rest hpc hr =>
      refine .handleEvent (s := { s with currentActiveChannel := some c, rest := rest }) hpc
        (fun ch hch o ho => ?_) (Option.some.inj hs)
      exact hok rfl c (by rw [hr]; rfl) ch hch o ho
    · cases hs
  | nextTest =>
    simp only [act] at hs
    split at hs
    · next c k tests hpc _ =>
      obtain ⟨ch, -, ht⟩ := bind_eq_ok.mp (Option.some.inj hs)
      split at ht
      · obtain rfl := Except.ok.inj ht
        refine h.frame hi ?_ rfl (.of_eq rfl)
        rw [hpc]
        cases ch.callbacks k with
        | true => rfl
        | false => rfl
      · obtain rfl := Except.ok.inj ht
        exact h.frame hi rfl rfl (.of_eq rfl)
    · cases hs
  | callbackReturns =>
    simp only [act] at hs
    split at hs
    · next c hpc =>
      obtain rfl := Except.ok.inj (Option.some.inj hs)
      exact h.frame hi (by rw [hpc]; rfl) rfl (.of_eq rfl)
    · cases hs
  | handlerDone =>
    simp only [act] at hs
    split at hs
    · obtain ⟨ch, -, ht⟩ := bind_eq_ok.mp (Option.some.inj hs)
      obtain rfl := Except.ok.inj ht
      exact .of_handling rfl
    · cases hs
  | releaseGuard =>
    simp only [act] at hs
    split at hs
    · obtain rfl := Except.ok.inj (Option.some.inj hs)
      exact .of_handling rfl
    · obtain ⟨hsame, -⟩ := dropRef_keeps (Option.some.inj hs)
      exact .of_handling (by rw [hsame.pc]; rfl)
    · cases hs
  | eventsDone | again | loopReturns =>
    obtain ⟨-, ht⟩ := guarded_eq.mp hs
    obtain rfl := Except.ok.inj ht
    exact .of_handling rfl

theorem reach_held (h : (machine P).Reach Tied s) : Held s := by
  refine Machine.Reach.induct ?_ ?_ h
  · rintro s ⟨-, -, -, -, -, -, hpc, -⟩
    exact .of_handling (by rw [hpc]; rfl)
  · intro s a t hr hh hok hs
    exact hh.step (reach_inv hr) hok hs

theorem dropRef_notHandling {o : ω} {inLoop : Bool}
    (ho : ∀ obj ch, s.objects o = some obj → obj.useCount = 1 → s.channels obj.channel = some ch →
      ch.eventHandling = false) :
    dropRef P s o inLoop ≠ .error (.assertion .notHandling) := by
  unfold dropRef
  cases hobj : s.objects o with
  | none => nofun
  | some obj =>
    dsimp only
    split
    · next h1 => exact destroyChannel_notHandling fun ch hch => ho obj ch hobj h1 hch
    · nofun

/-- **A tied channel outlives its handler**: in a run in which the channels of objects are tied to
them, the object of the channel whose events are handled is not destroyed, and no release of a
`shared_ptr`, by any thread, destroys a channel inside its `handleEvent`. -/
theorem tied_outlives (h : (machine P).Reach Tied s) :
    (∀ c ch o, s.pc.handling = some c → s.channels c = some ch → ch.owner = some o →
      0 < s.useCount o) ∧
    (∀ o inLoop, act P s (.release o inLoop) ≠ some (.error (.assertion .notHandling))) ∧
      act P s .releaseGuard ≠ some (.error (.assertion .notHandling)) := by
  have hi := reach_inv h
  have hheld := reach_held h
  refine ⟨fun c ch o hc hch ho => (hi.guarded o (hheld c ch o hc hch ho)).1, ?_, ?_⟩
  · intro o inLoop he
    obtain ⟨⟨-, hn⟩, he⟩ := Option.ite_none_right_eq_some.mp he
    refine dropRef_notHandling (fun obj ch ho h1 hch => ?_) (Option.some.inj he)
    by_contra hh
    rw [Bool.not_eq_false] at hh
    -- the guard would hold the only reference, which nobody else can drop
    obtain ⟨x, hx, hown⟩ := hi.heap.members o obj ho (by omega)
    obtain rfl := Option.some.inj (hch.symm.trans hx)
    have hg := hheld _ ch o ((hi.handling _).mpr ⟨ch, hch, hh⟩) hch hown
    simp only [State.userRefs, hg, if_true, State.useCount, ho, Option.map_some, Option.getD_some,
      h1] at hn
    omega
  · intro he
    simp only [act] at he
    split at he
    · cases he
    · next c o hpc hg =>
      refine dropRef_notHandling (fun obj ch _ _ hch => ?_) (Option.some.inj he)
      by_contra hh
      rw [Bool.not_eq_false] at hh
      have hc := (hi.handling obj.channel).mpr ⟨ch, hch, hh⟩
      rw [hpc] at hc
      cases hc
    · cases he

theorem tied_outlives_lastReference : ∃ s : State (List (ℤ × ℕ)) ℕ ℕ,
    (machine listPoller).Reach Tied s ∧ s.pc = .callback 7 ∧ s.useCount 0 = 1 ∧
      ∀ inLoop, act listPoller s (.release 0 inLoop) ≠ some (.error (.assertion .notHandling)) := by
  obtain ⟨s, hs, hpc, hcount⟩ : ∃ s : State (List (ℤ × ℕ)) ℕ ℕ,
      (machine listPoller).exec Tied start (lastReference (some 0) ++ [.release 0 true]) = some s ∧
        s.pc = .callback 7 ∧ s.useCount 0 = 1 := ⟨_, rfl, rfl, rfl⟩
  have hr : (machine listPoller).Reach Tied s := .of_exec (.init init_start) hs
  exact ⟨s, hr, hpc, hcount, (tied_outlives hr).2.1 0⟩

/-- Without the tie, the same release destroys the channel inside its handler. -/
example : ((machine listPoller).exec anyAction start (lastReference none)).bind
    (act listPoller · (.release 0 true)) = some (.error (.assertion .notHandling)) := rfl

end MengSen.ChannelLoop

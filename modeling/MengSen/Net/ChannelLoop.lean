import MengSen.Net.Channel

/-!
# Net.ChannelLoop — no access to a destroyed channel

The invariant of the machine of `Net.Channel`: what the poller holds and what is still to be handled
are channels that are not destroyed and still `addedToLoop_`, because the assertion of
`removeChannel` keeps the channels of the `for` loop in the poller and the assertions of `~Channel`
keep the channels of the poller alive.  The only channel with `eventHandling_` is the one whose
handler runs.
-/

namespace MengSen.ChannelLoop

open Machine (check guarded guarded_eq check_bind_eq_ok bind_eq_ok anyAction)

variable {ρ κ ω : Type} {P : Poller ρ κ ω} {s t : State ρ κ ω}

/-- The channel whose `handleEventWithGuard` runs. -/
def Pc.handling : Pc κ → Option κ
  | .handler c | .callback c => some c
  | _ => none

/-- The channel whose `handleEvent` runs. -/
def Pc.running : Pc κ → Option κ
  | .handler c | .callback c | .returning c => some c
  | _ => none

/-! ## The invariant -/

/-- What the poller, the loop and the objects point to is not destroyed. -/
structure Heap (P : Poller ρ κ ω) (s : State ρ κ ω) : Prop where
  registered : ∀ fd c, P.channels s.poller fd = some c →
    ∃ ch, s.channels c = some ch ∧ ch.fd = fd ∧ ch.addedToLoop = true
  pending : ∀ c ∈ s.rest, ∃ ch, s.channels c = some ch ∧ ch.addedToLoop = true
  members : ∀ o obj, s.objects o = some obj → 0 < obj.useCount →
    ∃ ch, s.channels obj.channel = some ch ∧ ch.owner = some o

/-- The channel with `eventHandling_` is the one whose handler runs. -/
def Handling (s : State ρ κ ω) : Prop :=
  ∀ c, s.pc.handling = some c ↔ ∃ ch, s.channels c = some ch ∧ ch.eventHandling = true

/-- Where the loop thread is. -/
structure Control (s : State ρ κ ω) : Prop where
  active : ∀ c ∈ s.rest, c ∈ s.activeChannels
  nodup : s.rest.Nodup
  current : ∀ c, s.currentActiveChannel = some c → s.eventHandling = true → c ∉ s.rest
  inLoop : s.rest ≠ [] → s.eventHandling = true
  phase : s.rest ≠ [] → s.pc = .dispatch ∨ s.pc.running ≠ none
  looping : s.pc ≠ .outside → s.looping = true
  idle : s.pc.running = none → s.pc ≠ .dispatch → s.currentActiveChannel = none

/-- The guard keeps its object. -/
def Guarded (s : State ρ κ ω) : Prop :=
  ∀ o, s.guard = some o → 0 < s.useCount o ∧ s.pc.running ≠ none

structure Inv (P : Poller ρ κ ω) (s : State ρ κ ω) : Prop where
  heap : Heap P s
  handling : Handling s
  control : Control s
  guarded : Guarded s

/-! ## Reading the checks of a step -/

theorem deref_eq_ok {c : κ} {ch : Channel ω} : deref s c = .ok ch ↔ s.channels c = some ch := by
  unfold deref
  cases s.channels c with
  | none => simp
  | some d => simp

theorem deref_of_some {c : κ} {ch : Channel ω} (h : s.channels c = some ch) : deref s c = .ok ch :=
  deref_eq_ok.mpr h

theorem lock_eq_some {tie : Option ω} {o : ω} {obj : Object κ} (h : s.lock tie = some (o, obj)) :
    tie = some o ∧ s.objects o = some obj ∧ 0 < obj.useCount := by
  obtain ⟨o', ho', h⟩ := Option.bind_eq_some_iff.mp h
  obtain ⟨obj', hobj, h⟩ := Option.map_eq_some_iff.mp h
  obtain ⟨hs, hp⟩ := Option.filter_eq_some_iff.mp hobj
  cases h
  exact ⟨ho', hs, of_decide_eq_true hp⟩

/-- The poller registers a channel of the loop. -/
theorem Inv.updateChannel {c : κ} {ch : Channel ω} (h : Inv P s) (hc : s.channels c = some ch)
    (hadded : ch.addedToLoop = true) :
    Inv P { s with poller := P.updateChannel s.poller c ch } where
  heap := { h.heap with
    registered := by
      intro fd d hd
      rcases P.mem_update hd with hd | ⟨rfl, rfl⟩
      · exact h.heap.registered fd d hd
      · exact ⟨ch, hc, rfl, hadded⟩ }
  handling := h.handling
  control := { h.control with }
  guarded := h.guarded

/-- The next channel of the `for` loop. -/
theorem Inv.advance {c : κ} {rest : List κ} (h : Inv P s) (hr : s.rest = c :: rest) :
    Inv P { s with currentActiveChannel := some c, rest := rest } := by
  have hsub : ∀ d ∈ rest, d ∈ s.rest := fun d hd => hr ▸ List.mem_cons_of_mem c hd
  have hnd : (c :: rest).Nodup := hr ▸ h.control.nodup
  have hne : s.rest ≠ [] := hr ▸ List.cons_ne_nil c rest
  exact
    { heap := { h.heap with pending := fun d hd => h.heap.pending d (hsub d hd) }
      handling := h.handling
      control :=
        { active := fun d hd => h.control.active d (hsub d hd)
          nodup := (List.nodup_cons.mp hnd).2
          current := by
            intro d hd _
            obtain rfl := Option.some.inj hd
            exact (List.nodup_cons.mp hnd).1
          inLoop := fun _ => h.control.inLoop hne
          phase := fun _ => h.control.phase hne
          looping := h.control.looping
          idle := fun hr hd => (h.control.phase hne).elim (absurd · hd) (absurd hr) }
      guarded := h.guarded }

/-- The loop thread goes on, and the same handler runs. -/
theorem Inv.goto (h : Inv P s) {pc : Pc κ} (hh : pc.handling = s.pc.handling)
    (hphase : s.rest ≠ [] → pc = .dispatch ∨ pc.running ≠ none)
    (hguard : s.guard ≠ none → pc.running ≠ none) (hloop : pc ≠ .outside → s.looping = true)
    (hidle : pc.running = none → pc ≠ .dispatch → s.currentActiveChannel = none) :
    Inv P { s with pc := pc } where
  heap := { h.heap with }
  handling c := hh ▸ h.handling c
  control := { h.control with phase := hphase, looping := hloop, idle := hidle }
  guarded o ho := ⟨(h.guarded o ho).1, hguard (ho ▸ Option.some_ne_none o)⟩

theorem Inv.record (h : Inv P s) (tests : List Callback) (trace : List (Event κ)) :
    Inv P { s with tests := tests, trace := trace } :=
  ⟨{ h.heap with }, h.handling, { h.control with }, h.guarded⟩

section Idle

variable (h : Inv P s) (hpc : s.pc.running = none)
include h hpc

theorem Inv.guard_eq_none : s.guard = none := by
  by_contra hg
  obtain ⟨o, ho⟩ := Option.ne_none_iff_exists'.mp hg
  exact (h.guarded o ho).2 hpc

variable (hd : s.pc ≠ .dispatch)
include hd

theorem Inv.rest_eq_nil : s.rest = [] := by
  by_contra hr
  exact (h.control.phase hr).elim hd fun hp => hp hpc

/-- The loop thread goes on outside the `for` loop. -/
theorem Inv.idle (pc : Pc κ) (hh : pc.handling = none) (hloop : pc ≠ .outside → s.looping = true) :
    Inv P { s with pc := pc } := by
  have hs : s.pc.handling = none := by
    cases hc : s.pc with
    | handler c | callback c => simp [hc, Pc.running] at hpc
    | _ => rfl
  exact h.goto (hh.trans hs.symm) (absurd (h.rest_eq_nil hpc hd)) (absurd (h.guard_eq_none hpc)) hloop
    fun _ _ => h.control.idle hpc hd

end Idle

theorem Inv.init (hs : init P s) : Inv P s := by
  obtain ⟨hp, hc, ho, hcur, -, -, hpc, hr, hg⟩ := hs
  exact
    { heap :=
        { registered := fun fd c hd => absurd ((hp fd).symm.trans hd) nofun
          pending := fun c hd => absurd hd (hr ▸ List.not_mem_nil)
          members := fun o obj hd => absurd ((ho o).symm.trans hd) nofun }
      handling := fun c => by
        rw [hpc]
        exact ⟨nofun, fun ⟨x, hx, _⟩ => absurd ((hc c).symm.trans hx) nofun⟩
      control :=
        { active := fun c hd => absurd hd (hr ▸ List.not_mem_nil)
          nodup := hr ▸ List.nodup_nil
          current := fun c hd => absurd (hcur.symm.trans hd) nofun
          inLoop := absurd hr
          phase := absurd hr
          looping := absurd hpc
          idle := fun _ _ => hcur }
      guarded := fun o hd => absurd (hg.symm.trans hd) nofun }

/-- `poll` has returned channels that are registered. -/
theorem Inv.poll {active : List (κ × BitVec 32)} (h : Inv P s) (hpc : s.pc = .polling)
    (hret : P.returns s.poller active = true) : Inv P { s with
      activeChannels := active.map Prod.fst
      rest := active.map Prod.fst
      eventHandling := true
      polled := active
      trace := []
      pc := .dispatch } where
  heap := { h.heap with
    pending := by
      intro c hc
      obtain ⟨x, hx, rfl⟩ := List.mem_map.mp hc
      obtain ⟨fd, hfd⟩ := P.mem_returns hret hx
      obtain ⟨ch, hch, -, hadd⟩ := h.heap.registered fd _ hfd
      exact ⟨ch, hch, hadd⟩ }
  handling c := by
    have hc := h.handling c
    rw [hpc] at hc
    exact hc
  control :=
    { active := fun _ hc => hc
      nodup := P.nodup_returns hret
      current := fun c hc _ => by
        have hnone := h.control.idle (by rw [hpc]; rfl) (hpc ▸ nofun)
        exact absurd (hnone.symm.trans hc) nofun
      inLoop := fun _ => rfl
      phase := fun _ => .inl rfl
      looping := fun _ => h.control.looping (hpc ▸ nofun)
      idle := fun _ hd => absurd rfl hd }
  guarded o ho := by
    have hg := h.guard_eq_none (by rw [hpc]; rfl)
    exact absurd (hg.symm.trans ho) nofun

/-- The loop over the channels is done. -/
theorem Inv.eventsDone (h : Inv P s) (hpc : s.pc = .dispatch) (hr : s.rest = []) :
    Inv P { s with currentActiveChannel := none, eventHandling := false, pc := .functors } where
  heap := { h.heap with }
  handling := fun c => by
    have hc := h.handling c
    rw [hpc] at hc
    exact hc
  control := { h.control with
    current := nofun
    inLoop := absurd hr
    phase := absurd hr
    looping := fun _ => h.control.looping (hpc ▸ nofun)
    idle := fun _ _ => rfl }
  guarded := fun o ho => by
    have hg := h.guard_eq_none (by rw [hpc]; rfl)
    exact absurd (hg.symm.trans ho) nofun

/-- The guard is at the end of its scope. -/
theorem Inv.release {c : κ} (h : Inv P s) (hpc : s.pc = .returning c) :
    Inv P { s with guard := none, pc := .dispatch } where
  heap := { h.heap with }
  handling d := by
    have hd := h.handling d
    rw [hpc] at hd
    exact hd
  control := { h.control with
    phase := fun _ => .inl rfl
    looping := fun _ => h.control.looping (hpc ▸ nofun)
    idle := fun _ hd => absurd rfl hd }
  guarded := nofun

section Objects

variable [DecidableEq ω]

@[simp] theorem setObject_self (o : ω) (obj : Object κ) :
    (s.setObject o obj).objects o = some obj := Function.update_self ..

theorem setObject_ne {o o' : ω} (obj : Object κ) (h : o' ≠ o) :
    (s.setObject o obj).objects o' = s.objects o' := Function.update_of_ne h ..

/-- References come and go, and the channel of the object stays. -/
theorem Heap.setObject {o : ω} {obj : Object κ} (h : Heap P s) (ho : s.objects o = some obj) {n : ℕ}
    (hn : 0 < n → 0 < obj.useCount) : Heap P (s.setObject o { obj with useCount := n }) where
  registered := h.registered
  pending := h.pending
  members o' obj' ho' hn' := by
    by_cases heq : o' = o
    · subst heq
      obtain rfl := Option.some.inj ((setObject_self ..).symm.trans ho')
      exact h.members o' obj ho (hn hn')
    · exact h.members o' obj' ((setObject_ne _ heq).symm.trans ho') hn'

theorem Inv.setObject {o : ω} {obj : Object κ} (h : Inv P s) (ho : s.objects o = some obj) {n : ℕ}
    (hn : 0 < n → 0 < obj.useCount) (hg : s.guard = some o → 0 < n) :
    Inv P (s.setObject o { obj with useCount := n }) where
  heap := h.heap.setObject ho hn
  handling := h.handling
  control := { h.control with }
  guarded := by
    intro o' ho'
    refine ⟨?_, (h.guarded o' ho').2⟩
    by_cases heq : o' = o
    · subst heq
      simpa [State.useCount] using hg ho'
    · simpa [State.useCount, setObject_ne _ heq] using (h.guarded o' ho').1

end Objects

variable [DecidableEq κ]

@[simp] theorem setChannel_self (c : κ) (ch : Option (Channel ω)) :
    (s.setChannel c ch).channels c = ch := Function.update_self ..

theorem setChannel_ne {c d : κ} (ch : Option (Channel ω)) (h : d ≠ c) :
    (s.setChannel c ch).channels d = s.channels d := Function.update_of_ne h ..

theorem destroyChannel_cases {c : κ} {inLoop : Bool} (h : destroyChannel P s c inLoop = .ok t) :
    ∃ ch, s.channels c = some ch ∧ ch.eventHandling = false ∧ ch.addedToLoop = false ∧
      s.setChannel c none = t := by
  obtain ⟨ch, hch, h⟩ := bind_eq_ok.mp h
  obtain ⟨hh, h⟩ := check_bind_eq_ok.mp h
  obtain ⟨ha, h⟩ := check_bind_eq_ok.mp h
  obtain ⟨-, h⟩ := check_bind_eq_ok.mp h
  exact ⟨ch, deref_eq_ok.mp hch, hh, ha, Except.ok.inj h⟩

theorem removeChannel_cases {c : κ} (h : removeChannel P s c = .ok t) :
    ∃ ch, s.channels c = some ch ∧
      (s.eventHandling = true → s.currentActiveChannel = some c ∨ c ∉ s.activeChannels) ∧
      { s.setChannel c (some { ch with addedToLoop := false }) with
        poller := P.removeChannel s.poller c { ch with addedToLoop := false } } = t := by
  obtain ⟨ch, hch, h⟩ := bind_eq_ok.mp h
  obtain ⟨-, h⟩ := check_bind_eq_ok.mp h
  obtain ⟨ha, h⟩ := check_bind_eq_ok.mp h
  exact ⟨ch, deref_eq_ok.mp hch, ha, Except.ok.inj h⟩

/-! ## One channel changes -/

section Frames

variable {c d : κ} {ch ch' : Channel ω}

theorem exists_setChannel {p : Channel ω → Prop} (hc : s.channels c = some ch) (hp : p ch → p ch')
    (h : ∃ x, s.channels d = some x ∧ p x) :
    ∃ x, (s.setChannel c (some ch')).channels d = some x ∧ p x := by
  obtain ⟨x, hx, hpx⟩ := h
  by_cases hd : d = c
  · subst hd
    obtain rfl := Option.some.inj (hx.symm.trans hc)
    exact ⟨ch', setChannel_self .., hp hpx⟩
  · exact ⟨x, (setChannel_ne _ hd).trans hx, hpx⟩

theorem exists_setChannel_ne {p : Channel ω → Prop} {r : Option (Channel ω)}
    (hc : ∀ x, s.channels c = some x → ¬ p x) (h : ∃ x, s.channels d = some x ∧ p x) :
    ∃ x, (s.setChannel c r).channels d = some x ∧ p x := by
  obtain ⟨x, hx, hpx⟩ := h
  have hd : d ≠ c := fun hdc => hc x (hdc ▸ hx) hpx
  exact ⟨x, (setChannel_ne _ hd).trans hx, hpx⟩

/-- A channel changes and stays where it is registered. -/
theorem Heap.setChannel (h : Heap P s) (hc : s.channels c = some ch) (ch' : Channel ω)
    (hfd : ch'.fd = ch.fd) (howner : ch'.owner = ch.owner) (hadded : ch.addedToLoop = true → ch'.addedToLoop = true) :
    Heap P (s.setChannel c (some ch')) where
  registered fd d hd :=
    exists_setChannel hc (fun hx => ⟨hfd ▸ hx.1, hadded hx.2⟩) (h.registered fd d hd)
  pending d hd := exists_setChannel hc hadded (h.pending d hd)
  members o obj ho hn := exists_setChannel hc (howner ▸ ·) (h.members o obj ho hn)

/-- A channel that is not in the loop changes, appears or goes. -/
theorem Heap.setChannel_out (h : Heap P s) (hadded : ∀ x, s.channels c = some x → x.addedToLoop = false)
    (r : Option (Channel ω))
    (hm : ∀ o obj, s.objects o = some obj → 0 < obj.useCount → obj.channel ≠ c) :
    Heap P (s.setChannel c r) where
  registered fd d hd :=
    exists_setChannel_ne (fun x hx hp => by simp [hadded x hx] at hp) (h.registered fd d hd)
  pending d hd :=
    exists_setChannel_ne (fun x hx hp => by simp [hadded x hx] at hp) (h.pending d hd)
  members o obj ho hn := by
    obtain ⟨x, hx, hp⟩ := h.members o obj ho hn
    exact ⟨x, (setChannel_ne _ (hm o obj ho hn)).trans hx, hp⟩

theorem Handling.setChannel (h : Handling s) (hc : s.channels c = some ch) (ch' : Channel ω)
    (heq : ch'.eventHandling = ch.eventHandling) : Handling (s.setChannel c (some ch')) := by
  intro d
  refine (h d).trans ⟨exists_setChannel hc (heq ▸ ·), fun hd => ?_⟩
  obtain ⟨x, hx, hp⟩ := hd
  by_cases hdc : d = c
  · subst hdc
    obtain rfl := Option.some.inj ((setChannel_self ..).symm.trans hx)
    exact ⟨ch, hc, heq ▸ hp⟩
  · exact ⟨x, (setChannel_ne _ hdc).symm.trans hx, hp⟩

/-- A channel appears, or one goes that is not being handled. -/
theorem Handling.setChannel_out (h : Handling s)
    (hout : ∀ x, s.channels c = some x → x.eventHandling = false) {r : Option (Channel ω)}
    (hr : ∀ x, r = some x → x.eventHandling = false) : Handling (s.setChannel c r) := by
  intro d
  refine (h d).trans ⟨exists_setChannel_ne fun x hx hp => by simp [hout x hx] at hp, fun hd => ?_⟩
  obtain ⟨x, hx, hp⟩ := hd
  by_cases hdc : d = c
  · subst hdc
    exact absurd hp (by simp [hr x ((setChannel_self ..).symm.trans hx)])
  · exact ⟨x, (setChannel_ne _ hdc).symm.trans hx, hp⟩

end Frames

/-! ## The steps keep the invariant -/

section Steps

variable {c : κ} {ch ch' : Channel ω} {o : ω} {inLoop : Bool}

/-- A channel is changed by user code, and stays in the loop. -/
theorem Inv.setChannel (h : Inv P s) (hc : s.channels c = some ch) (ch' : Channel ω)
    (hfd : ch'.fd = ch.fd) (howner : ch'.owner = ch.owner) (heh : ch'.eventHandling = ch.eventHandling)
    (hadded : ch.addedToLoop = true → ch'.addedToLoop = true) : Inv P (s.setChannel c (some ch')) where
  heap := h.heap.setChannel hc ch' hfd howner hadded
  handling := h.handling.setChannel hc ch' heh
  control := { h.control with }
  guarded := h.guarded

/-- `remove`: its assertion says that the channel is not one that is still to be handled. -/
theorem Inv.removeChannel (h : Inv P s) (ht : removeChannel P s c = .ok t) : Inv P t := by
  obtain ⟨ch, hc, ha, rfl⟩ := removeChannel_cases ht
  have hrest : c ∉ s.rest := fun hmem => by
    have hloop := h.control.inLoop (List.ne_nil_of_mem hmem)
    rcases ha hloop with hcur | hact
    · exact h.control.current c hcur hloop hmem
    · exact hact (h.control.active c hmem)
  refine ⟨⟨?_, ?_, ?_⟩, h.handling.setChannel hc _ rfl, { h.control with }, h.guarded⟩
  · intro fd d hd
    obtain ⟨hd, hne⟩ := P.mem_remove hd
    obtain ⟨x, hx, hfd, hadd⟩ := h.heap.registered fd d hd
    have hdc : d ≠ c := by
      rintro rfl
      obtain rfl := Option.some.inj (hx.symm.trans hc)
      exact hne ⟨hfd.symm, rfl⟩
    exact ⟨x, (setChannel_ne _ hdc).trans hx, hfd, hadd⟩
  · intro d hd
    obtain ⟨x, hx, hadd⟩ := h.heap.pending d hd
    have hdc : d ≠ c := fun hdc => hrest (hdc ▸ hd)
    exact ⟨x, (setChannel_ne _ hdc).trans hx, hadd⟩
  · intro o obj ho hn
    exact exists_setChannel hc id (h.heap.members o obj ho hn)

/-- A channel is destroyed that is not the member of an object. -/
theorem Inv.destroyChannel (h : Inv P s) (ht : destroyChannel P s c inLoop = .ok t)
    (hm : ∀ o obj, s.objects o = some obj → 0 < obj.useCount → obj.channel ≠ c) : Inv P t := by
  obtain ⟨ch, hc, hh, ha, rfl⟩ := destroyChannel_cases ht
  refine ⟨h.heap.setChannel_out ?_ _ hm, h.handling.setChannel_out ?_ nofun, { h.control with },
    h.guarded⟩
  · intro x hx
    rwa [← Option.some.inj (hc.symm.trans hx)]
  · intro x hx
    rwa [← Option.some.inj (hc.symm.trans hx)]

/-- `eventHandling_ = true` of a channel while no handler runs. -/
theorem Inv.startHandling (h : Inv P s) (hc : s.channels c = some ch) (hpc : s.pc = .dispatch) :
    Inv P (s.startHandling c ch) where
  heap := { h.heap.setChannel hc { ch with eventHandling := true } rfl rfl id with }
  handling := by
    intro d
    have hnone : ∀ x, s.channels d = some x → x.eventHandling ≠ true := fun x hx hp => by
      have hd := (h.handling d).mpr ⟨x, hx, hp⟩
      rw [hpc] at hd
      cases hd
    constructor
    · intro hd
      obtain rfl : c = d := Option.some.inj hd
      exact ⟨_, setChannel_self .., rfl⟩
    · rintro ⟨x, hx, hp⟩
      by_cases hdc : d = c
      · rw [hdc]
        rfl
      · exact absurd hp (hnone x ((setChannel_ne _ hdc).symm.trans hx))
  control := { h.control with
    phase := fun _ => .inr (Option.some_ne_none c)
    looping := fun _ => h.control.looping (hpc ▸ nofun)
    idle := nofun }
  guarded := fun o ho => ⟨(h.guarded o ho).1, Option.some_ne_none c⟩

/-- `eventHandling_ = false` of the channel whose handler runs. -/
theorem Inv.handlerDone (h : Inv P s) (hc : s.channels c = some ch) (hpc : s.pc = .handler c) :
    Inv P { s.setChannel c (some { ch with eventHandling := false }) with pc := .returning c } where
  heap := { h.heap.setChannel hc { ch with eventHandling := false } rfl rfl id with }
  handling := by
    intro d
    refine ⟨nofun, ?_⟩
    rintro ⟨x, hx, hp⟩
    by_cases hdc : d = c
    · subst hdc
      obtain rfl := Option.some.inj ((setChannel_self ..).symm.trans hx)
      cases hp
    · have hd := (h.handling d).mpr ⟨x, (setChannel_ne _ hdc).symm.trans hx, hp⟩
      rw [hpc] at hd
      exact absurd (Option.some.inj hd).symm hdc
  control := { h.control with
    phase := fun _ => .inr (Option.some_ne_none c)
    looping := fun _ => h.control.looping (hpc ▸ nofun)
    idle := nofun }
  guarded := fun o ho => ⟨(h.guarded o ho).1, Option.some_ne_none c⟩

/-- `poll` sets `revents_` of the channels that it returns, and nothing else. -/
theorem setRevents_cases {active : List (κ × BitVec 32)} (h : Inv P s)
    (ht : setRevents s active = .ok t) :
    Inv P t ∧ ∃ channels, t = { s with channels := channels } := by
  induction active generalizing s with
  | nil =>
    obtain rfl := Except.ok.inj ht
    exact ⟨h, _, rfl⟩
  | cons x active ih =>
    obtain ⟨ch, hch, ht⟩ := bind_eq_ok.mp ht
    have h1 := h.setChannel (deref_eq_ok.mp hch) { ch with revents := x.2 } rfl rfl rfl id
    obtain ⟨hi, channels, rfl⟩ := ih h1 ht
    exact ⟨hi, channels, rfl⟩

/-- A channel is created at an address that is free. -/
theorem Inv.create (h : Inv P s) (hc : s.channels c = none) (fd : ℤ) (owner : Option ω) :
    Inv P (s.setChannel c (some (.new fd owner))) where
  heap := by
    have hfree : ∀ x, s.channels c = some x → x.addedToLoop = false := fun x hx => by
      rw [hc] at hx
      cases hx
    refine h.heap.setChannel_out hfree _ fun o obj ho hn heq => ?_
    obtain ⟨x, hx, -⟩ := h.heap.members o obj ho hn
    rw [heq, hc] at hx
    cases hx
  handling := by
    refine h.handling.setChannel_out (fun x hx => ?_) fun x hx => ?_
    · rw [hc] at hx
      cases hx
    · rw [← Option.some.inj hx]
      rfl
  control := { h.control with }
  guarded := h.guarded

variable [DecidableEq ω]

theorem dropRef_cases {o : ω} {inLoop : Bool} (h : dropRef P s o inLoop = .ok t) :
    (s.objects o = none ∧ s = t) ∨ ∃ obj, s.objects o = some obj ∧
      ((obj.useCount ≠ 1 ∧ s.setObject o { obj with useCount := obj.useCount - 1 } = t) ∨
        (obj.useCount = 1 ∧
          destroyChannel P (s.setObject o { obj with useCount := obj.useCount - 1 }) obj.channel
            inLoop = .ok t)) := by
  unfold dropRef at h
  cases ho : s.objects o with
  | none =>
    rw [ho] at h
    exact .inl ⟨rfl, Except.ok.inj h⟩
  | some obj =>
    rw [ho] at h
    refine .inr ⟨obj, rfl, ?_⟩
    by_cases hn : obj.useCount = 1
    · exact .inr ⟨hn, by simpa only [if_pos hn] using h⟩
    · exact .inl ⟨hn, by simpa only [if_neg hn, Except.ok.injEq] using h⟩

/-- `handleEvent` skips a channel whose tie has expired, and keeps the object otherwise. -/
theorem handleEvent_cases {c : κ} (h : handleEvent s c = .ok t) :
    ∃ ch, s.channels c = some ch ∧
      ((ch.tied = true ∧ s.lock ch.tie = none ∧ { s with trace := s.trace ++ [.expired c] } = t) ∨
        (ch.tied = true ∧ ∃ o obj, s.lock ch.tie = some (o, obj) ∧
          (s.startHandling c ch).keep o obj = t) ∨
        (ch.tied = false ∧ s.startHandling c ch = t)) := by
  obtain ⟨ch, hch, h⟩ := bind_eq_ok.mp h
  refine ⟨ch, deref_eq_ok.mp hch, ?_⟩
  by_cases ht : ch.tied = true
  · rw [if_pos ht] at h
    rcases hl : s.lock ch.tie with _ | ⟨o, obj⟩
    · rw [hl] at h
      exact .inl ⟨ht, rfl, Except.ok.inj h⟩
    · rw [hl] at h
      exact .inr (.inl ⟨ht, o, obj, rfl, Except.ok.inj h⟩)
  · rw [if_neg ht] at h
    exact .inr (.inr ⟨Bool.eq_false_iff.mpr ht, Except.ok.inj h⟩)

/-- A reference is dropped that the guard does not hold. -/
theorem Inv.dropRef (h : Inv P s) (hg : s.guard = some o → 1 < s.useCount o)
    (ht : dropRef P s o inLoop = .ok t) : Inv P t := by
  rcases dropRef_cases ht with ⟨-, rfl⟩ | ⟨obj, ho, ⟨hn, rfl⟩ | ⟨hn, ht⟩⟩
  · exact h
  · refine h.setObject ho (fun h1 => by omega) fun hgo => ?_
    have h1 := hg hgo
    simp only [State.useCount, ho, Option.map_some, Option.getD_some] at h1
    omega
  · have hcount : s.useCount o = 1 := by simp [State.useCount, ho, hn]
    have h0 := h.setObject ho (n := 0) (fun h1 => absurd h1 (Nat.lt_irrefl 0)) fun hgo => by
      have := hg hgo
      omega
    rw [hn] at ht
    refine h0.destroyChannel ht fun o' obj' ho' hn' heq => ?_
    obtain ⟨x, hx, hown⟩ := h.heap.members o obj ho (by omega)
    obtain ⟨x', hx', hown'⟩ := h0.heap.members o' obj' ho' hn'
    rw [heq] at hx'
    obtain rfl := Option.some.inj (hx.symm.trans hx')
    obtain rfl := Option.some.inj (hown.symm.trans hown')
    obtain rfl := Option.some.inj ((setObject_self ..).symm.trans ho')
    exact absurd hn' (Nat.lt_irrefl 0)

theorem Inv.handleEvent (h : Inv P s) (hpc : s.pc = .dispatch) (ht : handleEvent s c = .ok t) :
    Inv P t := by
  obtain ⟨ch, hc, ⟨-, -, rfl⟩ | ⟨-, o, obj, hl, rfl⟩ | ⟨-, rfl⟩⟩ := handleEvent_cases ht
  · exact ⟨{ h.heap with }, h.handling, { h.control with }, h.guarded⟩
  · obtain ⟨-, ho, hn⟩ := lock_eq_some hl
    have h1 := (h.startHandling hc hpc).setObject (n := obj.useCount + 1) ho (fun _ => hn)
      fun _ => Nat.succ_pos _
    refine ⟨{ h1.heap with }, h1.handling, { h1.control with }, fun o' ho' => ?_⟩
    obtain rfl := Option.some.inj ho'
    refine ⟨?_, Option.some_ne_none c⟩
    simp [State.useCount, State.keep]
  · exact h.startHandling hc hpc

/-- An object is created, with the channel that is its member. -/
theorem Inv.make (h : Inv P s) (hc : s.channels c = none) (ho : s.objects o = none) (fd : ℤ) :
    Inv P ((s.setChannel c (some (.new fd (some o)))).setObject o ⟨1, c⟩) where
  heap := { (h.create hc fd (some o)).heap with
    members := by
      intro o' obj' ho' hn
      by_cases heq : o' = o
      · subst heq
        obtain rfl := Option.some.inj ((setObject_self ..).symm.trans ho')
        exact ⟨_, setChannel_self .., rfl⟩
      · exact (h.create hc fd (some o)).heap.members o' obj' ((setObject_ne _ heq).symm.trans ho') hn }
  handling := (h.create hc fd (some o)).handling
  control := { h.control with }
  guarded := by
    intro o' ho'
    obtain ⟨hn, hpc⟩ := h.guarded o' ho'
    have hne : o' ≠ o := by
      rintro rfl
      simp [State.useCount, ho] at hn
    refine ⟨?_, hpc⟩
    simpa [State.useCount, State.setChannel, setObject_ne _ hne] using hn

end Steps

variable [DecidableEq ω]

/-- **Step lemma**: every step of the loop and every call of user code keeps the invariant. -/
theorem Inv.step {a : Action κ ω} (h : Inv P s) (hs : (machine P).Step s a t) : Inv P t := by
  simp only [Machine.Step, machine] at hs
  cases a with
  | callLoop =>
    obtain ⟨hpc, hs⟩ := Option.ite_none_right_eq_some.mp hs
    obtain ⟨hnot, ht⟩ := check_bind_eq_ok.mp (Option.some.inj hs)
    obtain rfl := Except.ok.inj ht
    have hout : s.pc = .outside := by
      by_contra hne
      rw [h.control.looping hne] at hnot
      cases hnot
    have hrun : s.pc.running = none := by rw [hout]; rfl
    have hd : s.pc ≠ .dispatch := hout ▸ nofun
    have h1 : Inv P { s with looping := true } :=
      ⟨{ h.heap with }, h.handling, { h.control with looping := fun _ => rfl }, h.guarded⟩
    exact h1.idle hrun hd .polling rfl fun _ => rfl
  | pollReturns active =>
    obtain ⟨⟨hpc, hret⟩, hs⟩ := Option.ite_none_right_eq_some.mp hs
    obtain ⟨u, hu, ht⟩ := bind_eq_ok.mp (Option.some.inj hs)
    obtain rfl := Except.ok.inj ht
    obtain ⟨hi, channels, rfl⟩ := setRevents_cases h hu
    exact hi.poll hpc hret
  | nextChannel =>
    simp only [act] at hs
    split at hs
    · next c rest hpc hr =>
      exact (h.advance hr).handleEvent hpc (Option.some.inj hs)
    · cases hs
  | nextTest =>
    simp only [act] at hs
    split at hs
    · next c k tests hpc _ =>
      obtain ⟨ch, -, ht⟩ := bind_eq_ok.mp (Option.some.inj hs)
      have hin : ∀ pc : Pc κ, pc.handling = some c → pc.running = some c →
          Inv P { s with pc := pc } := fun pc hh hr =>
        h.goto (by rw [hh, hpc]; rfl) (fun _ => .inr (hr ▸ Option.some_ne_none c))
          (fun _ => hr ▸ Option.some_ne_none c) (fun _ => h.control.looping (hpc ▸ nofun))
          fun hn => absurd (hr.symm.trans hn) nofun
      split at ht
      · obtain rfl := Except.ok.inj ht
        cases ch.callbacks k with
        | true => exact (hin (.callback c) rfl rfl).record _ _
        | false => exact (hin (.handler c) rfl rfl).record _ _
      · obtain rfl := Except.ok.inj ht
        exact h.record _ _
    · cases hs
  | callbackReturns =>
    simp only [act] at hs
    split at hs
    · next c hpc =>
      obtain rfl := Except.ok.inj (Option.some.inj hs)
      exact h.goto (by rw [hpc]; rfl) (fun _ => .inr (Option.some_ne_none c))
        (fun _ => Option.some_ne_none c) (fun _ => h.control.looping (hpc ▸ nofun)) nofun
    · cases hs
  | handlerDone =>
    simp only [act] at hs
    split at hs
    · next c hpc _ =>
      obtain ⟨ch, hch, ht⟩ := bind_eq_ok.mp (Option.some.inj hs)
      obtain rfl := Except.ok.inj ht
      exact h.handlerDone (deref_eq_ok.mp hch) hpc
    · cases hs
  | releaseGuard =>
    simp only [act] at hs
    split at hs
    · next c hpc hg =>
      obtain rfl := Except.ok.inj (Option.some.inj hs)
      simpa only [← hg] using h.release hpc
    · next c o hpc hg => exact (h.release hpc).dropRef nofun (Option.some.inj hs)
    · cases hs
  | eventsDone =>
    obtain ⟨⟨hpc, hr⟩, ht⟩ := guarded_eq.mp hs
    obtain rfl := Except.ok.inj ht
    exact h.eventsDone hpc hr
  | again =>
    obtain ⟨hpc, ht⟩ := guarded_eq.mp hs
    obtain rfl := Except.ok.inj ht
    have hrun : s.pc.running = none := by rw [hpc]; rfl
    exact h.idle hrun (hpc ▸ nofun) .polling rfl fun _ => h.control.looping (hpc ▸ nofun)
  | loopReturns =>
    obtain ⟨hpc, ht⟩ := guarded_eq.mp hs
    obtain rfl := Except.ok.inj ht
    have hrun : s.pc.running = none := by rw [hpc]; rfl
    have h1 := h.idle hrun (hpc ▸ nofun) .outside rfl nofun
    exact ⟨{ h1.heap with }, h1.handling, { h1.control with looping := fun hne => absurd rfl hne },
      h1.guarded⟩
  | create c fd =>
    obtain ⟨hc, ht⟩ := guarded_eq.mp hs
    obtain rfl := Except.ok.inj ht
    exact h.create (Option.isNone_iff_eq_none.mp hc) fd none
  | make o c fd =>
    obtain ⟨⟨hc, ho⟩, ht⟩ := guarded_eq.mp hs
    obtain rfl := Except.ok.inj ht
    exact h.make (Option.isNone_iff_eq_none.mp hc) (Option.isNone_iff_eq_none.mp ho) fd
  | update c i =>
    obtain ⟨-, hs⟩ := Option.ite_none_right_eq_some.mp hs
    obtain ⟨ch, hch, ht⟩ := bind_eq_ok.mp (Option.some.inj hs)
    obtain rfl := Except.ok.inj ht
    have h1 := h.setChannel (deref_eq_ok.mp hch) { ch.change i with addedToLoop := true }
      (ch.change_fd i) (ch.change_owner i) (ch.change_eventHandling i) fun _ => rfl
    exact h1.updateChannel (setChannel_self ..) rfl
  | remove c =>
    obtain ⟨-, hs⟩ := Option.ite_none_right_eq_some.mp hs
    exact h.removeChannel (Option.some.inj hs)
  | setCallback c k set =>
    obtain ⟨-, hs⟩ := Option.ite_none_right_eq_some.mp hs
    obtain ⟨ch, hch, ht⟩ := bind_eq_ok.mp (Option.some.inj hs)
    obtain rfl := Except.ok.inj ht
    exact h.setChannel (deref_eq_ok.mp hch) _ rfl rfl rfl id
  | tie c obj =>
    obtain ⟨-, hs⟩ := Option.ite_none_right_eq_some.mp hs
    obtain ⟨ch, hch, ht⟩ := bind_eq_ok.mp (Option.some.inj hs)
    obtain rfl := Except.ok.inj ht
    exact h.setChannel (deref_eq_ok.mp hch) _ rfl rfl rfl id
  | acquire o =>
    simp only [act] at hs
    split at hs
    · cases hs
    · next obj ho =>
      obtain ⟨hn, ht⟩ := guarded_eq.mp hs
      obtain rfl := Except.ok.inj ht
      exact h.setObject ho (fun _ => hn) fun _ => Nat.succ_pos _
  | release o inLoop =>
    obtain ⟨⟨-, hn⟩, hs⟩ := Option.ite_none_right_eq_some.mp hs
    refine h.dropRef (fun hg => ?_) (Option.some.inj hs)
    rw [State.userRefs, if_pos hg] at hn
    omega
  | destroy c inLoop =>
    simp only [act] at hs
    split at hs
    · cases hs
    · next ch hc =>
      obtain ⟨⟨-, howner⟩, hs⟩ := Option.ite_none_right_eq_some.mp hs
      refine h.destroyChannel (Option.some.inj hs) fun o obj ho hn heq => ?_
      obtain ⟨x, hx, hox⟩ := h.heap.members o obj ho hn
      rw [heq] at hx
      obtain rfl := Option.some.inj (hx.symm.trans hc)
      rw [howner] at hox
      cases hox

/-- **Run lemma**: the invariant holds of every state reached. -/
theorem reach_inv {ok : State ρ κ ω → Action κ ω → Prop} (h : (machine P).Reach ok s) : Inv P s := by
  refine Machine.Reach.induct ?_ ?_ h
  · exact fun s hs => Inv.init hs
  · intro s a t _ hi _ hs
    exact hi.step hs

/-! ## What can fail -/

/-- `x` fails at an assertion other than that of `hasChannel`, if at all. -/
def Asserts {γ : Type} (x : Except Fault γ) : Prop :=
  ∀ e, x = .error e → e ≠ .dangling ∧ e ≠ .assertion .notInPoller

section Asserts

variable {γ : Type} {c : κ} {ch : Channel ω} {inLoop : Bool}

omit [DecidableEq κ] [DecidableEq ω]

theorem Asserts.ok (x : γ) : Asserts (.ok x) := nofun

theorem Asserts.check {p : Prop} [Decidable p] {a : Assertion} {f : Unit → Except Fault γ}
    (ha : a ≠ .notInPoller) (hf : p → Asserts (f ())) : Asserts (check p (.assertion a) >>= f) := by
  by_cases hp : p
  · rw [Machine.check_bind _ hp]
    exact hf hp
  · rw [Machine.check, if_neg hp]
    intro e he
    obtain rfl := Except.error.inj he
    refine ⟨fun heq => ?_, fun heq => ha (Fault.assertion.inj heq)⟩
    cases heq

theorem Asserts.deref {f : Channel ω → Except Fault γ} (hc : s.channels c = some ch)
    (hf : Asserts (f ch)) : Asserts (deref s c >>= f) := by
  rw [deref_of_some hc]
  exact hf

end Asserts

section

variable {c : κ} {ch : Channel ω} {inLoop : Bool}

omit [DecidableEq ω] in
/-- The assertion of `hasChannel` holds when the one before it does. -/
theorem destroyChannel_asserts (h : Heap P s) (hc : s.channels c = some ch) :
    Asserts (destroyChannel P s c inLoop) := by
  refine .deref hc (.check nofun fun _ => .check nofun fun hadd => ?_)
  have hout : hasChannel P s c ch = false := by
    refine beq_eq_false_iff_ne.mpr fun hreg => ?_
    obtain ⟨x, hx, -, hx'⟩ := h.registered _ _ hreg
    obtain rfl := Option.some.inj (hx.symm.trans hc)
    rw [hadd] at hx'
    cases hx'
  rw [Machine.check_bind _ fun _ => hout]
  exact .ok _

theorem dropRef_asserts {o : ω} (h : Inv P s) (hn : 0 < s.useCount o) :
    Asserts (dropRef P s o inLoop) := by
  unfold dropRef
  cases ho : s.objects o with
  | none => exact .ok _
  | some obj =>
    have hobj : 0 < obj.useCount := by simpa [State.useCount, ho] using hn
    obtain ⟨ch, hch, -⟩ := h.heap.members o obj ho hobj
    have h1 := h.heap.setObject ho (n := obj.useCount - 1) fun _ => hobj
    dsimp only
    split
    · exact destroyChannel_asserts h1 hch
    · exact .ok _

omit [DecidableEq ω] in
theorem removeChannel_asserts (hc : s.channels c = some ch) : Asserts (removeChannel P s c) :=
  .deref hc (.check nofun fun _ => .check nofun fun _ => .ok _)

theorem handleEvent_asserts (hc : s.channels c = some ch) : Asserts (handleEvent s c) := by
  refine .deref hc ?_
  split
  · split
    · exact .ok _
    · exact .ok _
  · exact .ok _

omit [DecidableEq ω] in
theorem setRevents_asserts {active : List (κ × BitVec 32)}
    (h : ∀ x ∈ active, ∃ ch, s.channels x.1 = some ch ∧ ch.addedToLoop = true) :
    Asserts (setRevents s active) := by
  induction active generalizing s with
  | nil => exact .ok _
  | cons x active ih =>
    obtain ⟨ch, hch, -⟩ := h x List.mem_cons_self
    refine .deref hch (ih fun y hy => ?_)
    exact exists_setChannel hch id (h y (List.mem_cons_of_mem x hy))

end

theorem act_asserts {a : Action κ ω} {e : Fault} (h : Inv P s) (he : act P s a = some (.error e)) :
    e ≠ .dangling ∧ e ≠ .assertion .notInPoller := by
  have hout : ∀ x : Except Fault (State ρ κ ω), some x = some (.error e) → Asserts x →
      e ≠ .dangling ∧ e ≠ .assertion .notInPoller := fun x hx ha => ha e (Option.some.inj hx)
  cases a with
  | callLoop =>
    obtain ⟨-, he⟩ := Option.ite_none_right_eq_some.mp he
    exact hout _ he (.check nofun fun _ => .ok _)
  | pollReturns active =>
    obtain ⟨⟨-, hret⟩, he⟩ := Option.ite_none_right_eq_some.mp he
    have halive : Asserts (setRevents s active) := setRevents_asserts fun x hx => by
      obtain ⟨fd, hfd⟩ := P.mem_returns hret hx
      obtain ⟨ch, hch, -, hadd⟩ := h.heap.registered fd _ hfd
      exact ⟨ch, hch, hadd⟩
    cases hr : setRevents s active with
    | error e' =>
      rw [hr] at he
      obtain rfl := Except.error.inj (Option.some.inj he)
      exact halive _ hr
    | ok u =>
      rw [hr] at he
      exact nomatch Option.some.inj he
  | nextChannel =>
    simp only [act] at he
    split at he
    · next c rest _ hr =>
      obtain ⟨ch, hch, -⟩ := h.heap.pending c (hr ▸ List.mem_cons_self)
      exact hout _ he
        (handleEvent_asserts (s := { s with currentActiveChannel := some c, rest := rest }) hch)
    · cases he
  | nextTest =>
    simp only [act] at he
    split at he
    · next c k tests hpc _ =>
      obtain ⟨ch, hch, -⟩ := (h.handling c).mp (by rw [hpc]; rfl)
      refine hout _ he (.deref hch ?_)
      split
      · exact .ok _
      · exact .ok _
    · cases he
  | callbackReturns =>
    simp only [act] at he
    split at he
    · cases he
    · cases he
  | handlerDone =>
    simp only [act] at he
    split at he
    · next c hpc _ =>
      obtain ⟨ch, hch, -⟩ := (h.handling c).mp (by rw [hpc]; rfl)
      exact hout _ he (.deref hch (.ok _))
    · cases he
  | releaseGuard =>
    simp only [act] at he
    split at he
    · cases he
    · next c o hpc hg =>
      exact hout _ he (dropRef_asserts (h.release hpc) (h.guarded o hg).1)
    · cases he
  | eventsDone | again | loopReturns | create c fd | make o c fd => exact nomatch (guarded_eq.mp he).2
  | update c i =>
    obtain ⟨⟨-, hc⟩, he⟩ := Option.ite_none_right_eq_some.mp he
    obtain ⟨ch, hch⟩ := Option.isSome_iff_exists.mp hc
    exact hout _ he (.deref hch (.ok _))
  | remove c =>
    obtain ⟨⟨-, hc⟩, he⟩ := Option.ite_none_right_eq_some.mp he
    obtain ⟨ch, hch⟩ := Option.isSome_iff_exists.mp hc
    exact hout _ he (removeChannel_asserts hch)
  | setCallback c k set =>
    obtain ⟨⟨-, hc⟩, he⟩ := Option.ite_none_right_eq_some.mp he
    obtain ⟨ch, hch⟩ := Option.isSome_iff_exists.mp hc
    exact hout _ he (.deref hch (.ok _))
  | tie c obj =>
    obtain ⟨⟨-, hc, -⟩, he⟩ := Option.ite_none_right_eq_some.mp he
    obtain ⟨ch, hch⟩ := Option.isSome_iff_exists.mp hc
    exact hout _ he (.deref hch (.ok _))
  | acquire o =>
    simp only [act] at he
    split at he
    · cases he
    · exact nomatch (guarded_eq.mp he).2
  | release o inLoop =>
    obtain ⟨⟨-, hn⟩, he⟩ := Option.ite_none_right_eq_some.mp he
    refine hout _ he (dropRef_asserts h ?_)
    rw [State.userRefs] at hn
    split at hn
    · omega
    · exact hn
  | destroy c inLoop =>
    simp only [act] at he
    split at he
    · cases he
    · next ch hc =>
      obtain ⟨-, he⟩ := Option.ite_none_right_eq_some.mp he
      exact hout _ he (destroyChannel_asserts h.heap hc)

/-- **The loop touches no destroyed channel**: whatever the callbacks and the other threads do with
channels and objects, a step of the loop fails at most at an assertion, the assertion that a
destroyed channel is not in the poller never fails, what is registered is alive with its descriptor,
and so is what the loop still has to handle. -/
theorem no_dangling (h : (machine P).Reach anyAction s) :
    (∀ a e, act P s a = some (.error e) → e ≠ .dangling ∧ e ≠ .assertion .notInPoller) ∧
      (∀ fd c, P.channels s.poller fd = some c →
        ∃ ch, s.channels c = some ch ∧ ch.fd = fd ∧ ch.addedToLoop = true) ∧
      ∀ c ∈ s.rest, ∃ ch, s.channels c = some ch ∧ ch.addedToLoop = true := by
  have hi := reach_inv h
  exact ⟨fun a e he => act_asserts hi he, hi.heap.registered, hi.heap.pending⟩

/-! ## A run -/

section Run

/-- `channels_` as a list. -/
def lookup (p : List (ℤ × ℕ)) (fd : ℤ) : Option ℕ := (p.find? fun e => e.1 == fd).map Prod.snd

def erase (p : List (ℤ × ℕ)) (fd : ℤ) : List (ℤ × ℕ) := p.filter fun e => e.1 != fd

theorem lookup_erase {p : List (ℤ × ℕ)} {fd fd' : ℤ} {d : ℕ} (h : lookup (erase p fd') fd = some d) :
    lookup p fd = some d ∧ fd ≠ fd' := by
  obtain ⟨e, he, rfl⟩ := Option.map_eq_some_iff.mp h
  rw [erase, List.find?_filter] at he
  have hp := List.find?_some he
  simp only [bne_iff_ne, beq_iff_eq, decide_eq_true_eq] at hp
  have hne : fd ≠ fd' := hp.2 ▸ hp.1
  have heq : (fun a : ℤ × ℕ => decide ((a.1 != fd') = true ∧ (a.1 == fd) = true)) =
      fun a => a.1 == fd := by
    funext a
    by_cases ha : a.1 = fd
    · simp [ha, hne]
    · simp [ha]
  rw [heq] at he
  exact ⟨by rw [lookup, he]; rfl, hne⟩

/-- A poller that is just `channels_`, with numbers as addresses. -/
def listPoller : Poller (List (ℤ × ℕ)) ℕ ℕ where
  channels := lookup
  updateChannel p c ch := (ch.fd, c) :: erase p ch.fd
  removeChannel p _ ch := erase p ch.fd
  returns p active :=
    (active.all fun x => p.any fun e => lookup p e.1 == some x.1) &&
      decide (active.map Prod.fst).Nodup
  mem_update := by
    intro p c ch fd d h
    by_cases hfd : ch.fd = fd
    · simp only [lookup, List.find?_cons, hfd, beq_self_eq_true, Option.map_some,
        Option.some.injEq] at h
      exact .inr ⟨hfd.symm, h.symm⟩
    · rw [lookup, List.find?_cons, beq_eq_false_iff_ne.mpr hfd] at h
      exact .inl (lookup_erase h).1
  mem_remove := by
    intro p c ch fd d h
    obtain ⟨h, hne⟩ := lookup_erase h
    exact ⟨h, fun hp => hne hp.1⟩
  mem_returns := by
    intro p active x h hx
    obtain ⟨e, -, he⟩ := List.any_eq_true.mp (List.all_eq_true.mp (Bool.and_eq_true_iff.mp h).1 x hx)
    exact ⟨e.1, eq_of_beq he⟩
  nodup_returns := by
    intro p active h
    exact of_decide_eq_true (Bool.and_eq_true_iff.mp h).2

def start : State (List (ℤ × ℕ)) ℕ ℕ where
  channels _ := none
  objects _ := none
  poller := []
  activeChannels := []
  currentActiveChannel := none
  eventHandling := false
  looping := false
  pc := .outside
  rest := []
  tests := []
  guard := none
  polled := []
  trace := []

theorem init_start : (machine listPoller).init start :=
  ⟨fun _ => rfl, fun _ => rfl, fun _ => rfl, rfl, rfl, rfl, rfl, rfl, rfl⟩

/-- The object 0 ties its channel, which becomes readable; the callback disables, removes and drops
the last reference to the object. -/
def lastReference (tie : Option ℕ) : List (Action ℕ ℕ) :=
  [.make 0 7 5, .setCallback 7 .read true, .update 7 .enableReading] ++
    (tie.map fun o => Action.tie 7 (some o)).toList ++
    [.create 8 6, .update 8 .enableWriting, .callLoop, .pollReturns [(7, POLLIN), (8, POLLOUT)],
      .nextChannel, .nextTest, .nextTest, .nextTest, .update 7 .disableAll, .remove 7]

theorem no_dangling_lastReference : ∃ s : State (List (ℤ × ℕ)) ℕ ℕ,
    (machine listPoller).Reach anyAction s ∧ s.pc = .callback 7 ∧ s.rest = [8] ∧
      (∃ ch, s.channels 8 = some ch ∧ ch.addedToLoop = true) ∧
      ∀ a e, act listPoller s a = some (.error e) → e ≠ .dangling := by
  obtain ⟨s, hs, hpc, hrest⟩ : ∃ s : State (List (ℤ × ℕ)) ℕ ℕ,
      (machine listPoller).exec anyAction start (lastReference (some 0)) = some s ∧
        s.pc = .callback 7 ∧ s.rest = [8] := ⟨_, rfl, rfl, rfl⟩
  have hr : (machine listPoller).Reach anyAction s := .of_exec (.init init_start) hs
  obtain ⟨hfault, -, hpending⟩ := no_dangling hr
  exact ⟨s, hr, hpc, hrest, hpending 8 (hrest ▸ List.mem_cons_self), fun a e he => (hfault a e he).1⟩

end Run

end MengSen.ChannelLoop

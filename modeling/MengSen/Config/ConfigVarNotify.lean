import MengSen.Config.ConfigVar

/-!
# Config.ConfigVarNotify — what a listener is told

`Described k s`: what the listener `k` was told is what the assignments did, and what the calls under
way have told it already.  A `setValue` whose exclusive section finds another value than the shared
one compared with breaks this at once (`stale_not_described`); without such a step it holds in every
state of every run (`described`).
-/

namespace MengSen.ConfigVar

open Machine (guarded_eq anyAction)

variable {τ T : Type} {k : ℕ} {v : T} {s u : State τ T} {t : τ} {c : Call T} {p : T × T}

/-! ## Notices and changes -/

/-- Each pair starts where the one before it ended, from `v` to `w`. -/
def Chain : T → List (T × T) → T → Prop
  | v, [], w => v = w
  | v, p :: l, w => p.1 = v ∧ Chain p.2 l w

theorem Chain.concat {l : List (T × T)} {x y : T} (h : Chain v l x) :
    Chain v (l ++ [(x, y)]) y := by
  induction l generalizing v with
  | nil => exact ⟨h.symm, rfl⟩
  | cons p l ih => exact ⟨h.1, ih h.2⟩

theorem Chain.last_eq {l : List (T × T)} {w : T} (h : Chain v (l ++ [p]) w) : p.2 = w := by
  induction l generalizing v with
  | nil => exact h.2
  | cons q l ih => exact ih h.2

/-- The pairs of which the listener `k` was told. -/
def State.received (s : State τ T) (k : ℕ) : List (T × T) :=
  (s.notices.filter fun n => n.1 = k).map Prod.snd

/-- What the call has told the listener `k`, and still has to assign. -/
def Call.notice (k : ℕ) : Call T → Option (T × T)
  | .notifying old val rest => if k ∈ rest then none else some (old, val)
  | .assigning old val => some (old, val)
  | .idle | .entered _ => none

/-- What each thread has told the listener `k`, and still has to assign. -/
def State.pending (s : State τ T) (k : ℕ) (t : τ) : Option (T × T) := (s.calls t).notice k

variable [DecidableEq T]

/-- The assignments that change `_value`. -/
def State.changes (s : State τ T) : List (T × T) := s.assignments.filter fun p => p.1 ≠ p.2

/-- The listener `k` was told of the changes, and of those that the calls under way will make. -/
def Described (k : ℕ) (s : State τ T) : Prop :=
  ∃ ps, Collects (s.pending k) ps ∧ (s.received k).Perm (s.changes ++ ps)

variable [DecidableEq τ]

omit [DecidableEq T] in
theorem pending_setCall (hcalls : u.calls = Function.update s.calls t c) :
    u.pending k = Function.update (s.pending k) t (c.notice k) := by
  funext w
  rw [State.pending, hcalls]
  exact Function.apply_update (fun _ => Call.notice k) s.calls t c w

/-- A step of a thread that tells the listener nothing and assigns nothing. -/
theorem Described.keep (h : Described k s) (hcalls : u.calls = Function.update s.calls t c)
    (hn : c.notice k = s.pending k t) (hr : u.received k = s.received k)
    (hc : u.changes = s.changes) : Described k u := by
  obtain ⟨ps, hps, hperm⟩ := h
  refine ⟨ps, ?_, by rwa [hr, hc]⟩
  rw [pending_setCall hcalls, hn, Function.update_eq_self]
  exact hps

/-- The listener is told. -/
theorem Described.tell (h : Described k s) (hcalls : u.calls = Function.update s.calls t c)
    (hs : s.pending k t = none) (hn : c.notice k = some p)
    (hr : u.received k = s.received k ++ [p]) (hc : u.changes = s.changes) : Described k u := by
  obtain ⟨ps, hps, hperm⟩ := h
  refine ⟨p :: ps, ?_, ?_⟩
  · rw [pending_setCall hcalls, hn]
    exact hps.insert hs
  · rw [hr, hc]
    exact (hperm.append_right [p]).trans (by
      rw [List.append_assoc]
      exact List.Perm.append_left _ List.perm_append_comm)

/-- The change of which the listener was told is made. -/
theorem Described.change (h : Described k s) (hcalls : u.calls = Function.update s.calls t c)
    (hs : s.pending k t = some p) (hn : c.notice k = none) (hr : u.received k = s.received k)
    (hc : u.changes = s.changes ++ [p]) : Described k u := by
  obtain ⟨ps, hps, hperm⟩ := h
  obtain ⟨qs, hqs, hcollect⟩ := hps.erase hs
  refine ⟨qs, ?_, ?_⟩
  · rw [pending_setCall hcalls, hn]
    exact hcollect
  · rw [hr, hc, List.append_assoc]
    exact hperm.trans (List.Perm.append_left _ hqs)

/-! ## The invariant -/

/-- What a call knows at its next statement; a thread that holds `_mutex` shared sees `value`. -/
def Call.Ok (value : T) (holds : Prop) : Call T → Prop
  | .notifying old val rest => holds ∧ value = old ∧ old ≠ val ∧ rest.Nodup
  | .assigning old val => old ≠ val
  | .idle | .entered _ => True

/-- The invariant of a variable that had the value `v` and has the listener `k`. -/
structure Inv (k : ℕ) (v : T) (s : State τ T) : Prop where
  listens : k ∈ s.func.keys
  calls : ∀ t, (s.calls t).Ok s.value (t ∈ s.mutex)
  chain : Chain v s.changes s.value
  described : Described k s

omit [DecidableEq τ] in
theorem init_inv {l : Listeners} (hk : k ∈ l.keys) : Inv k v (init v l : State τ T) where
  listens := hk
  calls _ := trivial
  chain := rfl
  described := ⟨[], .nil fun _ => rfl, .nil⟩

omit [DecidableEq T] in
/-- A step of `t` that leaves `_value` alone and takes the mutex from no other thread. -/
theorem Call.Ok.frame (h : ∀ w, (s.calls w).Ok s.value (w ∈ s.mutex))
    (hcalls : u.calls = Function.update s.calls t c) (hvalue : u.value = s.value)
    (hmutex : ∀ w, w ≠ t → w ∈ s.mutex → w ∈ u.mutex) (hc : c.Ok s.value (t ∈ u.mutex)) (w : τ) :
    (u.calls w).Ok u.value (w ∈ u.mutex) := by
  rw [hcalls, hvalue]
  by_cases hw : w = t
  · rw [hw, Function.update_self]
    exact hc
  · rw [Function.update_of_ne hw]
    have hs := h w
    cases hcw : s.calls w with
    | notifying old val rest =>
      rw [hcw] at hs
      exact ⟨hmutex w hw hs.1, hs.2⟩
    | assigning old val =>
      rw [hcw] at hs
      exact hs
    | idle => trivial
    | entered val => trivial

omit [DecidableEq T] in
/-- An exclusive section of `t`: nobody compares or notifies. -/
theorem Call.Ok.assigned (h : ∀ w, (s.calls w).Ok s.value (w ∈ s.mutex)) (hs : s.mutex = [])
    (hcalls : u.calls = Function.update s.calls t .idle) (hu : u.mutex = []) (w : τ) :
    (u.calls w).Ok u.value (w ∈ u.mutex) := by
  rw [hcalls, hu]
  by_cases hw : w = t
  · rw [hw, Function.update_self]
    trivial
  · rw [Function.update_of_ne hw]
    have hsw := h w
    rw [hs] at hsw
    cases hcw : s.calls w with
    | notifying old val rest =>
      rw [hcw] at hsw
      exact absurd hsw.1 List.not_mem_nil
    | assigning old val =>
      rw [hcw] at hsw
      exact hsw
    | idle => trivial
    | entered val => trivial

/-- A call that is about to assign finds the value with which it compared. -/
def Call.Fresh (value : T) : Call T → Prop
  | .assigning old _ => value = old
  | _ => True

instance (value : T) : (c : Call T) → Decidable (c.Fresh value)
  | .assigning old _ => inferInstanceAs (Decidable (value = old))
  | .idle | .entered _ | .notifying .. => inferInstanceAs (Decidable True)

/-- The listener `k` stays registered, and an exclusive section of `setValue` finds the value with
which the shared one compared. -/
def Ok (k : ℕ) (s : State τ T) : Action τ T → Prop
  | .assign t => (s.calls t).Fresh s.value
  | .deleteListener j => j ≠ k
  | .clearListener => False
  | _ => True

instance (k : ℕ) (s : State τ T) : (a : Action τ T) → Decidable (Ok k s a)
  | .assign t => inferInstanceAs (Decidable ((s.calls t).Fresh s.value))
  | .deleteListener j => inferInstanceAs (Decidable (j ≠ k))
  | .clearListener => inferInstanceAs (Decidable False)
  | .call .. | .compare _ | .notify _ | .release _ | .addListener =>
    inferInstanceAs (Decidable True)

omit [DecidableEq τ] in
theorem changes_append (hl : u.assignments = s.assignments ++ [p]) :
    u.changes = s.changes ++ if p.1 ≠ p.2 then [p] else [] := by
  rw [State.changes, hl, List.filter_append]
  by_cases hp : p.1 = p.2
  · simp [State.changes, hp]
  · simp [State.changes, hp]

/-- **Step lemma**: every step of any thread, an exclusive section only if it finds the value it
compared with. -/
theorem Inv.step {l : Listeners} {a : Action τ T} (h : Inv k v s)
    (hok : Ok k s a) (hs : (machine τ T v l).Step s a u) : Inv k v u := by
  simp only [Machine.Step, machine] at hs
  cases a with
  | call t val =>
    simp only [act] at hs
    split at hs
    · next hc =>
      obtain rfl := Except.ok.inj (Option.some.inj hs)
      have hnone : s.pending k t = none := by rw [State.pending, hc]; rfl
      refine ⟨h.listens, Call.Ok.frame h.calls rfl rfl (fun _ _ hw => hw) trivial, h.chain, ?_⟩
      exact h.described.keep rfl hnone.symm rfl rfl
    · cases hs
  | compare t =>
    simp only [act] at hs
    split at hs
    · next val hc =>
      have hnone : s.pending k t = none := by rw [State.pending, hc]; rfl
      split at hs
      · obtain rfl := Except.ok.inj (Option.some.inj hs)
        refine ⟨h.listens, Call.Ok.frame h.calls rfl rfl (fun _ _ hw => hw) trivial, h.chain, ?_⟩
        exact h.described.keep rfl hnone.symm rfl rfl
      · next hne =>
        obtain rfl := Except.ok.inj (Option.some.inj hs)
        have hnew : (Call.notifying s.value val s.func.keys).notice k = none := if_pos h.listens
        refine ⟨h.listens, Call.Ok.frame h.calls rfl rfl ?_ ?_, h.chain, ?_⟩
        · exact fun w _ hw => List.mem_cons_of_mem t hw
        · exact ⟨List.mem_cons_self, rfl, fun heq => hne heq.symm, s.func.nodup⟩
        · exact h.described.keep rfl (hnew.trans hnone.symm) rfl rfl
    · cases hs
  | notify t =>
    simp only [act] at hs
    split at hs
    · next old val j rest hc =>
      obtain rfl := Except.ok.inj (Option.some.inj hs)
      have hct := h.calls t
      rw [hc] at hct
      obtain ⟨hmem, hvalue, hne, hnodup⟩ := hct
      obtain ⟨hj, hrest⟩ := List.nodup_cons.mp hnodup
      refine ⟨h.listens, Call.Ok.frame h.calls rfl rfl (fun _ _ hw => hw) ⟨hmem, hvalue, hne, hrest⟩,
        h.chain, ?_⟩
      by_cases hjk : j = k
      · subst hjk
        refine h.described.tell (p := (old, val)) rfl ?_ (if_neg hj) ?_ rfl
        · rw [State.pending, hc]
          exact if_pos List.mem_cons_self
        · simp [State.received, List.filter_append, hvalue]
      · refine h.described.keep rfl ?_ ?_ rfl
        · rw [State.pending, hc]
          simp [Call.notice, Ne.symm hjk]
        · simp [State.received, List.filter_append, hjk]
    · cases hs
  | release t =>
    simp only [act] at hs
    split at hs
    · next old val hc =>
      obtain rfl := Except.ok.inj (Option.some.inj hs)
      have hct := h.calls t
      rw [hc] at hct
      obtain ⟨-, -, hne, -⟩ := hct
      refine ⟨h.listens, Call.Ok.frame h.calls rfl rfl ?_ hne, h.chain, ?_⟩
      · exact fun w hw hmem => (List.mem_erase_of_ne hw).mpr hmem
      · refine h.described.keep rfl ?_ rfl rfl
        rw [State.pending, hc]
        show some (old, val) = if k ∈ [] then none else some (old, val)
        rw [if_neg List.not_mem_nil]
    · cases hs
  | assign t =>
    simp only [act] at hs
    split at hs
    · next old val hc =>
      obtain ⟨hmutex, heq⟩ := guarded_eq.mp hs
      obtain rfl := Except.ok.inj heq
      have hvalue : s.value = old := by
        have hfresh : (s.calls t).Fresh s.value := hok
        rw [hc] at hfresh
        exact hfresh
      have hne : old ≠ val := by
        have hct := h.calls t
        rw [hc] at hct
        exact hct
      have hchanges : s.changes ++ (if s.value ≠ val then [(s.value, val)] else []) =
          s.changes ++ [(s.value, val)] := by
        rw [if_pos (hvalue ▸ hne)]
      refine ⟨h.listens, Call.Ok.assigned h.calls hmutex rfl hmutex, ?_, ?_⟩
      · show Chain v (State.changes _) val
        rw [changes_append rfl, hchanges]
        exact h.chain.concat
      · refine h.described.change (p := (old, val)) rfl ?_ rfl rfl ?_
        · rw [State.pending, hc]
          rfl
        · rw [changes_append rfl, hchanges, hvalue]
    · cases hs
  | addListener =>
    obtain ⟨-, heq⟩ := guarded_eq.mp hs
    obtain rfl := Except.ok.inj heq
    exact ⟨List.mem_append_left _ h.listens, h.calls, h.chain, h.described⟩
  | deleteListener j =>
    obtain ⟨-, heq⟩ := guarded_eq.mp hs
    obtain rfl := Except.ok.inj heq
    have hne : k ≠ j := Ne.symm hok
    exact ⟨(List.mem_erase_of_ne hne).mpr h.listens, h.calls, h.chain, h.described⟩
  | clearListener => exact absurd hok id

/-- **Run lemma**: the invariant holds of every state reached. -/
theorem reach_inv {l : Listeners} (hk : k ∈ l.keys) (h : (machine τ T v l).Reach (Ok k) s) :
    Inv k v s := by
  refine Machine.Reach.induct ?_ ?_ h
  · rintro s rfl
    exact init_inv hk
  · intro s a u _ hi hok hs
    exact hi.step hok hs

/-! ## What the listener is told -/

/-- **The notices describe the changes**, in runs in which every exclusive section of `setValue`
finds the value with which its shared section compared: the changes are a chain from the first value
to the current one; the listener was told of them, and of those that the calls under way will make;
and while no call is under way, of nothing else. -/
theorem described {l : Listeners} (hk : k ∈ l.keys) (h : (machine τ T v l).Reach (Ok k) s) :
    Chain v s.changes s.getValue ∧ Described k s ∧
      ((∀ t, s.calls t = .idle) →
        (s.received k).Perm s.changes ∧ ∀ p, s.changes.getLast? = some p → p.2 = s.getValue) := by
  have hi := reach_inv hk h
  refine ⟨hi.chain, hi.described, fun hidle => ⟨?_, fun p hp => ?_⟩⟩
  · obtain ⟨ps, hps, hperm⟩ := hi.described
    have hnil : ps = [] := hps.eq_nil fun t => by rw [State.pending, hidle t]; rfl
    rwa [hnil, List.append_nil] at hperm
  · obtain ⟨l, hl⟩ := List.getLast?_eq_some_iff.mp hp
    have hchain := hi.chain
    rw [hl] at hchain
    exact hchain.last_eq

/-- Two threads set the value one after the other, and the second of them reads the new value. -/
def oneAfterTheOther : List (Action Bool ℕ) :=
  [.call true 1, .call false 2, .compare true, .notify true, .release true, .assign true,
    .compare false, .notify false, .release false, .assign false]

/-- The listener 1. -/
def oneListener : Listeners := ⟨[1], 1, List.nodup_singleton 1, fun _ hk => by simp_all⟩

theorem described_oneAfterTheOther : ∃ s : State Bool ℕ,
    (machine Bool ℕ 0 oneListener).Reach (Ok 1) s ∧ s.received 1 = [(0, 1), (1, 2)] ∧
      s.getValue = 2 ∧ Chain 0 s.changes s.getValue ∧ (s.received 1).Perm s.changes := by
  obtain ⟨s, hs, hreceived, hvalue, htrue, hfalse⟩ : ∃ s : State Bool ℕ,
      (machine Bool ℕ 0 oneListener).exec (Ok 1) (init 0 oneListener) oneAfterTheOther = some s ∧
        s.received 1 = [(0, 1), (1, 2)] ∧ s.getValue = 2 ∧ s.calls true = .idle ∧
        s.calls false = .idle := ⟨_, rfl, rfl, rfl, rfl, rfl⟩
  have hr : (machine Bool ℕ 0 oneListener).Reach (Ok 1) s := .of_exec (.init rfl) hs
  obtain ⟨hchain, -, hquiet⟩ := described (List.mem_singleton_self 1) hr
  have hidle : ∀ t, s.calls t = .idle := by
    intro t
    cases t
    · exact hfalse
    · exact htrue
  exact ⟨s, hr, hreceived, hvalue, hchain, (hquiet hidle).1⟩

/-- Both threads compare before either assigns. -/
def bothCompareFirst : List (Action Bool ℕ) :=
  [.call true 1, .call false 2, .compare true, .compare false, .notify true, .notify false,
    .release true, .release false, .assign true, .assign false]

/-- The listener is told of `(0, 2)` while the value goes from 1 to 2. -/
theorem notice_not_change : ∃ s : State Bool ℕ,
    (machine Bool ℕ 0 oneListener).Reach anyAction s ∧ s.func.keys = [1] ∧
      (∀ t, s.calls t = .idle) ∧ s.received 1 = [(0, 1), (0, 2)] ∧
      s.changes = [(0, 1), (1, 2)] ∧ ¬ (s.received 1).Perm s.changes := by
  obtain ⟨s, hs, hkeys, htrue, hfalse, hreceived, hchanges⟩ : ∃ s : State Bool ℕ,
      (machine Bool ℕ 0 oneListener).exec anyAction (init 0 oneListener) bothCompareFirst = some s ∧
        s.func.keys = [1] ∧ s.calls true = .idle ∧ s.calls false = .idle ∧
        s.received 1 = [(0, 1), (0, 2)] ∧ s.changes = [(0, 1), (1, 2)] :=
    ⟨_, rfl, rfl, rfl, rfl, rfl, rfl⟩
  refine ⟨s, .of_exec (.init rfl) hs, hkeys, fun t => ?_, hreceived, hchanges, ?_⟩
  · cases t
    · exact hfalse
    · exact htrue
  · rw [hreceived, hchanges]
    decide

/-! ## The condition is sharp -/

/-- **A stale assignment is not described**: in a run without one so far, it breaks the
correspondence at once. -/
theorem stale_not_described {l : Listeners} (hk : k ∈ l.keys) (h : (machine τ T v l).Reach (Ok k) s)
    (hs : (machine τ T v l).Step s (.assign t) u) (hstale : ¬ (s.calls t).Fresh s.value) :
    ¬ Described k u := by
  have hi := reach_inv hk h
  simp only [Machine.Step, machine, act] at hs
  split at hs
  · next old val hc =>
    obtain ⟨-, heq⟩ := guarded_eq.mp hs
    have hu := Except.ok.inj heq
    have hcalls : u.calls = Function.update s.calls t .idle := hu ▸ rfl
    have hassignments : u.assignments = s.assignments ++ [(s.value, val)] := hu ▸ rfl
    have hreceived : u.received k = s.received k := hu ▸ rfl
    rw [hc] at hstale
    replace hstale : s.value ≠ old := hstale
    rintro ⟨ps, hps, hperm⟩
    obtain ⟨qs, hqs, hold⟩ := hi.described
    obtain ⟨rs, hrs, hrest⟩ := hqs.erase (t := t) (b := (old, val)) (by rw [State.pending, hc]; rfl)
    rw [pending_setCall hcalls] at hps
    have hpending : ps.Perm rs := hps.unique hrest
    -- what the listener was told, counted before and after the step
    rw [hreceived, changes_append hassignments, List.append_assoc] at hperm
    have hboth := (hold.trans (hrs.append_left _)).symm.trans hperm
    have hcons := ((List.perm_append_left_iff _).mp hboth).trans (hpending.append_left _)
    by_cases hne : s.value = val
    · rw [if_neg (not_not_intro hne)] at hcons
      exact absurd hcons.length_eq (by simp)
    · rw [if_pos hne] at hcons
      have hpair : [(old, val)].Perm [(s.value, val)] := (List.perm_append_right_iff rs).mp hcons
      have heq := List.singleton_perm_singleton.mp hpair
      exact hstale (congrArg Prod.fst heq).symm
  · cases hs

end MengSen.ConfigVar

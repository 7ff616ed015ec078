import Mathlib.Logic.Relation

/-!
# Lib.Machine — action machines with faults

A machine reads one action at a time.  `act s a` is `none` when `a` is not enabled in `s`,
`some (.error e)` when the action fails an internal check, and `some (.ok t)` when it leads to `t`.
All nondeterminism (which thread moves, what the environment answers) is in the choice of actions,
so `act` is a function and runs can be computed.

`Reach ok s`: `s` is reached from an initial state by actions that all meet `ok`.  The rules are
the invariant rules (`Reach.induct`, `Path.induct`), computed runs (`Reach.of_exec`) and transport
along a stuttering simulation (`Reach.map`).  The machine of a system with parts writes its actions
as sequences of actions `within` them.
-/

universe u v w

/-- A machine over states `σ` and actions `α` whose internal checks fail with `ε`. -/
structure Machine (σ : Type u) (α : Type v) (ε : Type w) where
  init : σ → Prop
  act : σ → α → Option (Except ε σ)

namespace Machine

variable {σ τ : Type u} {α β : Type v} {ε ζ : Type w}

/-- An internal check: `e` when `p` fails. -/
def check (p : Prop) [Decidable p] (e : ε) : Except ε Unit := if p then .ok () else .error e

/-- The action `t`, enabled when `p` holds. -/
def guarded (p : Prop) [Decidable p] (t : σ) : Option (Except ε σ) := if p then some (.ok t) else none

@[simp] theorem guarded_eq {p : Prop} [Decidable p] {t : σ} {r : Except ε σ} :
    guarded p t = some r ↔ p ∧ .ok t = r := by
  unfold guarded
  rw [Option.ite_none_right_eq_some, Option.some.injEq]

theorem check_pos {p : Prop} [Decidable p] (e : ε) (h : p) : check p e = .ok () := if_pos h

theorem check_bind {γ : Type} {p : Prop} [Decidable p] (e : ε) (h : p) (f : Unit → Except ε γ) :
    (check p e >>= f) = f () := by rw [check_pos e h]; rfl

/-- A computation behind a check succeeds when the check does. -/
theorem check_bind_eq_ok {γ : Type} {p : Prop} [Decidable p] {e : ε} {f : Unit → Except ε γ}
    {x : γ} : (check p e >>= f) = .ok x ↔ p ∧ f () = .ok x := by
  by_cases h : p
  · rw [check_bind e h]
    exact ⟨fun hx => ⟨h, hx⟩, fun hx => hx.2⟩
  · simp [check, h, bind, Except.bind]

/-- A bind succeeds when its first computation and the second on its result do. -/
theorem bind_eq_ok {γ δ : Type} {x : Except ε γ} {f : γ → Except ε δ} {y : δ} :
    (x >>= f) = .ok y ↔ ∃ z, x = .ok z ∧ f z = .ok y := by
  cases x with
  | error e => simp [bind, Except.bind]
  | ok z => simp [bind, Except.bind]

theorem mapError_eq_ok {γ : Type} {x : Except ε γ} {f : ε → ζ} {y : γ} (h : x.mapError f = .ok y) :
    x = .ok y := by
  cases x with
  | error e => cases h
  | ok z => rw [Except.ok.inj h]

/-- One action after another leads to `y` when the first leads somewhere and the second from there. -/
theorem seq_eq_ok {γ δ : Type w} {x : ExceptT ε Option γ} {f : γ → ExceptT ε Option δ} {y : δ} :
    (x >>= f).run = some (.ok y) ↔ ∃ z, x.run = some (.ok z) ∧ (f z).run = some (.ok y) := by
  rw [ExceptT.run_bind]
  rcases x.run with _ | _ | z
  · simp
  · simp
  · simp

theorem ite_eq_ok {γ : Type w} {p : Prop} [Decidable p] {x : ExceptT ε Option γ} {y : γ} :
    (if p then x else .mk none).run = some (.ok y) ↔ p ∧ x.run = some (.ok y) := by
  by_cases h : p
  · simp [h]
  · simp [h]

/-- An action of a component, `f` putting the new component back. -/
def within {σ τ : Type w} (g : ε → ζ) (f : σ → τ) : Option (Except ε σ) → ExceptT ζ Option τ
  | some (.ok s) => .mk (some (.ok (f s)))
  | some (.error e) => .mk (some (.error (g e)))
  | none => .mk none

theorem within_eq_ok {σ τ : Type w} {g : ε → ζ} {f : σ → τ} {x : Option (Except ε σ)} {t : τ} :
    (within g f x).run = some (.ok t) ↔ ∃ s, x = some (.ok s) ∧ f s = t := by
  rcases x with _ | _ | s
  · simp [within]
  · simp [within]
  · simp [within]

@[simp] theorem ok_bind {γ δ : Type} (x : γ) (f : γ → Except ε δ) :
    ((Except.ok x : Except ε γ) >>= f) = f x := rfl

@[simp] theorem pure_eq_ok {γ : Type} (x : γ) : (pure x : Except ε γ) = .ok x := rfl

/-- `x` fails no check. -/
def Safe {γ : Type w} (x : ExceptT ε Option γ) : Prop := ∀ e, x.run ≠ some (.error e)

namespace Safe

variable {γ δ : Type w} {x : ExceptT ε Option γ}

theorem pure (y : γ) : Safe (pure y : ExceptT ε Option γ) := by
  intro e he
  cases he

theorem ite {p : Prop} [Decidable p] (hx : p → Safe x) : Safe (if p then x else .mk none) := by
  by_cases h : p
  · rw [if_pos h]
    exact hx h
  · rw [if_neg h]
    intro e he
    cases he

theorem bind {f : γ → ExceptT ε Option δ} (hx : Safe x)
    (hf : ∀ y, x.run = some (.ok y) → Safe (f y)) : Safe (x >>= f) := by
  intro e
  rw [ExceptT.run_bind]
  rcases hr : x.run with _ | e' | y
  · simp
  · exact absurd hr (hx e')
  · simpa using hf y hr e

theorem within {σ τ : Type w} {g : ε → ζ} {f : σ → τ} {y : Option (Except ε σ)}
    (hy : ∀ e, y ≠ some (.error e)) : Safe (within g f y) := by
  rcases y with _ | e | s
  · simp [Safe, Machine.within]
  · exact absurd rfl (hy e)
  · simp [Safe, Machine.within]

end Safe

/-- `a` leads from `s` to `t`. -/
def Step (M : Machine σ α ε) (s : σ) (a : α) (t : σ) : Prop := M.act s a = some (.ok t)

/-- `a` is enabled in `s` and fails an internal check. -/
def Faults (M : Machine σ α ε) (s : σ) (a : α) : Prop := ∃ e, M.act s a = some (.error e)

/-- No restriction on the actions of a run. -/
def anyAction : σ → α → Prop := fun _ _ => True

instance : ∀ (s : σ) (a : α), Decidable (anyAction s a) := fun _ _ => inferInstanceAs (Decidable True)

/-- States reached by actions that all meet `ok` in the state in which they are taken. -/
inductive Reach (M : Machine σ α ε) (ok : σ → α → Prop) : σ → Prop
  | init {s : σ} : M.init s → Reach M ok s
  | step {s t : σ} {a : α} : Reach M ok s → ok s a → M.Step s a t → Reach M ok t

/-- Finite continuations of a run by actions that all meet `ok`. -/
inductive Path (M : Machine σ α ε) (ok : σ → α → Prop) (s : σ) : σ → Prop
  | refl : Path M ok s s
  | step {t u : σ} {a : α} : Path M ok s t → ok t a → M.Step t a u → Path M ok s u

section Rules

variable {M : Machine σ α ε} {ok ok' : σ → α → Prop}

theorem Step.det {s t t' : σ} {a : α} (h : M.Step s a t) (h' : M.Step s a t') : t = t' := by
  unfold Step at h h'
  rw [h] at h'
  simpa using h'

/-- **Invariant rule**: what holds initially and is kept by every allowed step holds of every
state reached.  The step may use that its source is itself reached. -/
theorem Reach.induct {I : σ → Prop} (h0 : ∀ s, M.init s → I s)
    (hstep : ∀ s a t, M.Reach ok s → I s → ok s a → M.Step s a t → I t) {s : σ}
    (h : M.Reach ok s) : I s := by
  induction h with
  | init hi => exact h0 _ hi
  | step hr ho hs ih => exact hstep _ _ _ hr ih ho hs

theorem Reach.path {s t : σ} (h : M.Reach ok s) (hp : M.Path ok s t) : M.Reach ok t := by
  induction hp with
  | refl => exact h
  | step _ ho hs ih => exact .step ih ho hs

theorem Path.single {s t : σ} {a : α} (ho : ok s a) (hs : M.Step s a t) : M.Path ok s t :=
  .step .refl ho hs

theorem Path.trans {s t u : σ} (h : M.Path ok s t) (h' : M.Path ok t u) : M.Path ok s u := by
  induction h' with
  | refl => exact h
  | step _ ho hs ih => exact .step ih ho hs

/-- What one allowed step from a reached state keeps, a continuation keeps. -/
theorem Path.induct {I : σ → Prop} {s : σ} (hr : M.Reach ok s) (h0 : I s)
    (hstep : ∀ t a u, M.Reach ok t → I t → ok t a → M.Step t a u → I u) {t : σ}
    (h : M.Path ok s t) : I t := by
  induction h with
  | refl => exact h0
  | step hp ho hs ih => exact hstep _ _ _ (hr.path hp) ih ho hs

end Rules

/-! ## Computed runs -/

section Exec

variable (M : Machine σ α ε) (ok : σ → α → Prop) [∀ s a, Decidable (ok s a)]

/-- The state after a list of allowed actions, `none` when one is not allowed, not enabled or
fails a check. -/
def exec : σ → List α → Option σ
  | s, [] => some s
  | s, a :: as =>
    if ok s a then
      match M.act s a with
      | some (.ok t) => exec t as
      | _ => none
    else none

variable {M ok}

theorem exec_cons {s t : σ} {a : α} {as : List α} (ho : ok s a) (hs : M.Step s a t) :
    M.exec ok s (a :: as) = M.exec ok t as := by
  unfold Step at hs
  simp only [exec, if_pos ho, hs]

theorem exec_append {s t : σ} {as bs : List α} (h : M.exec ok s as = some t) :
    M.exec ok s (as ++ bs) = M.exec ok t bs := by
  induction as generalizing s with
  | nil =>
    simp only [exec, Option.some.injEq] at h
    rw [List.nil_append, h]
  | cons a as ih =>
    simp only [exec, List.cons_append] at h ⊢
    split at h
    · next ha =>
      rw [if_pos ha]
      split at h
      · exact ih h
      · cases h
    · cases h

/-- A computed run continues a run. -/
theorem Path.of_exec {r s t : σ} {as : List α} (hp : M.Path ok r s)
    (h : M.exec ok s as = some t) : M.Path ok r t := by
  induction as generalizing s with
  | nil =>
    simp only [exec, Option.some.injEq] at h
    exact h ▸ hp
  | cons a as ih =>
    simp only [exec] at h
    split at h
    · next ha =>
      split at h
      · next u hu => exact ih (.step hp ha hu) h
      · cases h
    · cases h

theorem Reach.of_exec {s t : σ} {as : List α} (hs : M.Reach ok s) (h : M.exec ok s as = some t) :
    M.Reach ok t := hs.path (.of_exec .refl h)

end Exec

/-! ## Simulation -/

/-- **Stuttering simulation**: if every step of `M` is matched by a finite continuation of `N`
along `f`, then `f` sends reached states to reached states. -/
theorem Reach.map {M : Machine σ α ε} {N : Machine τ β ζ} {ok : σ → α → Prop} {ok' : τ → β → Prop}
    (f : σ → τ) (h0 : ∀ s, M.init s → N.init (f s))
    (hstep : ∀ s a t, M.Reach ok s → ok s a → M.Step s a t → N.Path ok' (f s) (f t)) {s : σ}
    (h : M.Reach ok s) : N.Reach ok' (f s) := by
  induction h with
  | init hi => exact .init (h0 _ hi)
  | step hr ho hs ih => exact ih.path (hstep _ _ _ hr ho hs)

end Machine

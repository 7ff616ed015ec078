import Mathlib.Data.List.Basic
import Mathlib.Data.Nat.Notation

/-!
# Lib.Load — computations that stop and leave what they have done

`Load ε σ`: a computation over a state `σ` that may stop with an `ε`; what it has done to the state
until then stays.  `Yields x s a t`: `x` does not stop in `s`, and leads to `t` with the result `a`.
`Keeps R x`: what `x` leaves is in the relation `R` to the state before, also when it stops.  `times` is
a loop with a fixed number of rounds.
-/

/-- Computations over `σ` that may stop with `ε`. -/
abbrev Load (ε σ : Type) := ExceptT ε (StateM σ)

namespace Load

variable {ε σ α β : Type}

/-- The result of `x`, unless it stops, and the state it leaves. -/
def result (x : Load ε σ α) (s : σ) : Except ε α × σ := x.run.run s

/-- `x` leads from `s` to `t`, with the result `a`. -/
def Yields (x : Load ε σ α) (s : σ) (a : α) (t : σ) : Prop := result x s = (.ok a, t)

theorem result_bind (x : Load ε σ α) (f : α → Load ε σ β) (s : σ) :
    result (x >>= f) s =
      match result x s with
      | (.ok a, t) => result (f a) t
      | (.error e, t) => (.error e, t) := by
  show ExceptT.bindCont f (result x s).1 (result x s).2 = _
  rcases result x s with ⟨_ | a, t⟩
  · rfl
  · rfl

theorem yields_bind {x : Load ε σ α} {f : α → Load ε σ β} {s u : σ} {b : β} :
    Yields (x >>= f) s b u ↔ ∃ a t, Yields x s a t ∧ Yields (f a) t b u := by
  unfold Yields
  rw [result_bind]
  rcases result x s with ⟨_ | a, t⟩
  · simp
  · simp

@[simp] theorem yields_pure {a b : α} {s t : σ} :
    Yields (pure a : Load ε σ α) s b t ↔ b = a ∧ t = s := by
  show ((.ok a, s) : Except ε α × σ) = (.ok b, t) ↔ _
  simp [eq_comm]

@[simp] theorem not_yields_throw {e : ε} {a : α} {s t : σ} :
    ¬ Yields (throw e : Load ε σ α) s a t := by
  show ¬ ((.error e, s) : Except ε α × σ) = (.ok a, t)
  simp

@[simp] theorem yields_modify {f : σ → σ} {a : PUnit} {s t : σ} :
    Yields (modify f : Load ε σ PUnit) s a t ↔ t = f s := by
  show ((.ok PUnit.unit, f s) : Except ε PUnit × σ) = (.ok a, t) ↔ _
  simp [eq_comm]

@[simp] theorem yields_get {a s t : σ} : Yields (get : Load ε σ σ) s a t ↔ a = s ∧ t = s := by
  show ((.ok s, s) : Except ε σ × σ) = (.ok a, t) ↔ _
  simp [eq_comm]

/-- What follows a computation that does not stop. -/
theorem Yields.result_bind {x : Load ε σ α} {s t : σ} {a : α} (h : Yields x s a t)
    (f : α → Load ε σ β) : result (x >>= f) s = result (f a) t := by
  rw [Load.result_bind, h]

/-- Whether or not it stops, `x` leads to a state that is in the relation `R` to the one before. -/
def Keeps (R : σ → σ → Prop) (x : Load ε σ α) : Prop := ∀ s, R s (result x s).2

section Keeps

variable {R : σ → σ → Prop}

theorem keeps_pure [Std.Refl R] (a : α) : Keeps R (pure a : Load ε σ α) := fun s => Std.Refl.refl s

theorem keeps_throw [Std.Refl R] (e : ε) : Keeps R (throw e : Load ε σ α) := fun s => Std.Refl.refl s

theorem keeps_modify {f : σ → σ} (h : ∀ s, R s (f s)) : Keeps R (modify f : Load ε σ PUnit) := h

theorem Keeps.bind [IsTrans σ R] {x : Load ε σ α} {f : α → Load ε σ β} (hx : Keeps R x)
    (hf : ∀ a, Keeps R (f a)) : Keeps R (x >>= f) := by
  intro s
  have hs := hx s
  rw [Load.result_bind]
  rcases hr : result x s with ⟨_ | a, t⟩
  · rwa [hr] at hs
  · rw [hr] at hs
    exact IsTrans.trans _ _ _ hs (hf a t)

end Keeps

/-- Stops with `e` unless `p` holds. -/
def require (p : Prop) [Decidable p] (e : ε) : Load ε σ PUnit := if p then pure () else throw e

@[simp] theorem yields_require {p : Prop} [Decidable p] {e : ε} {a : PUnit} {s t : σ} :
    Yields (require p e : Load ε σ PUnit) s a t ↔ p ∧ t = s := by
  by_cases h : p
  · simp [require, h]
  · simp [require, h]

/-- `n` rounds of `x`, with their results. -/
def times (x : Load ε σ α) : ℕ → Load ε σ (List α)
  | 0 => pure []
  | n + 1 => do
    let a ← x
    let l ← times x n
    return a :: l

theorem yields_times_succ {x : Load ε σ α} {n : ℕ} {s u : σ} {l : List α} :
    Yields (times x (n + 1)) s l u ↔
      ∃ a t l', Yields x s a t ∧ Yields (times x n) t l' u ∧ l = a :: l' := by
  rw [times, yields_bind]
  simp only [yields_bind, yields_pure]
  refine exists_congr fun a => exists_congr fun t => ?_
  refine ⟨?_, ?_⟩
  · rintro ⟨hx, l', u', hl', rfl, rfl⟩
    exact ⟨l', hx, hl', rfl⟩
  · rintro ⟨l', hx, hl', rfl⟩
    exact ⟨hx, l', u, hl', rfl, rfl⟩

end Load

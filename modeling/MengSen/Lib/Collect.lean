import Mathlib.Data.List.Basic
import Mathlib.Data.List.Nodup
import Mathlib.Logic.Function.Basic

/-!
# Lib.Collect — the values that threads hold

`Collects f bs`: only finitely many threads hold a value under `f`, and `bs` are these values, in
some order.  A thread that comes to hold a value adds it, one that gives it up removes it.
-/

universe u v

variable {τ : Type u} {β : Type v}

/-- `bs` are the values of `f`, one for each argument that has one. -/
def Collects (f : τ → Option β) (bs : List β) : Prop :=
  ∃ l : List τ, l.Nodup ∧ (∀ t, t ∈ l ↔ (f t).isSome = true) ∧ bs.Perm (l.filterMap f)

namespace Collects

variable {f g : τ → Option β} {bs cs : List β} {b : β} {t : τ}

theorem nil (h : ∀ t, f t = none) : Collects f [] :=
  ⟨[], List.nodup_nil, fun t => by simp [h t], .nil⟩

/-- The values are determined up to their order. -/
theorem unique (h : Collects f bs) (h' : Collects f cs) : bs.Perm cs := by
  obtain ⟨l, hn, hmem, hbs⟩ := h
  obtain ⟨l', hn', hmem', hcs⟩ := h'
  have hl : l.Perm l' := (List.perm_ext_iff_of_nodup hn hn').mpr fun t => by rw [hmem, hmem']
  exact hbs.trans ((hl.filterMap f).trans hcs.symm)

theorem eq_nil (h : Collects f bs) (hf : ∀ t, f t = none) : bs = [] :=
  List.perm_nil.mp (h.unique (nil hf))

variable [DecidableEq τ]

theorem filterMap_update {l : List τ} {o : Option β} (ht : t ∉ l) :
    l.filterMap (Function.update f t o) = l.filterMap f :=
  List.filterMap_congr fun v hv =>
    have hne : v ≠ t := fun heq => ht (heq ▸ hv)
    Function.update_of_ne hne _ _

/-- A thread comes to hold `b`. -/
theorem insert (h : Collects f bs) (ht : f t = none) :
    Collects (Function.update f t (some b)) (b :: bs) := by
  obtain ⟨l, hn, hmem, hbs⟩ := h
  have hnot : t ∉ l := fun hl => by
    have hsome := (hmem t).mp hl
    rw [ht] at hsome
    cases hsome
  refine ⟨t :: l, List.nodup_cons.mpr ⟨hnot, hn⟩, fun v => ?_, ?_⟩
  · by_cases hv : v = t
    · simp [hv]
    · simp [hv, hmem]
  · rw [List.filterMap_cons, Function.update_self, filterMap_update hnot]
    exact hbs.cons b

/-- A thread gives up the value it holds. -/
theorem erase (h : Collects f bs) (ht : f t = some b) :
    ∃ cs, bs.Perm (b :: cs) ∧ Collects (Function.update f t none) cs := by
  obtain ⟨l, hn, hmem, hbs⟩ := h
  have hin : t ∈ l := (hmem t).mpr (by rw [ht]; rfl)
  have hl : l.Perm (t :: l.erase t) := List.perm_cons_erase hin
  have hnot : t ∉ l.erase t := hn.not_mem_erase
  refine ⟨(l.erase t).filterMap f, ?_, l.erase t, hn.erase t, fun v => ?_, ?_⟩
  · have hvalues := hbs.trans (hl.filterMap f)
    rwa [List.filterMap_cons, ht] at hvalues
  · by_cases hv : v = t
    · simp [hv, hnot]
    · simp [hv, hmem]
  · rw [filterMap_update hnot]

end Collects

import Mathlib.Data.List.Basic
import Mathlib.Data.Nat.Notation

/-!
# Lib.LowerBound — `std::lower_bound`

`lowerBound p l` is the index that the binary search with the test `p` returns: the middle of the
range is tested, and the search goes on behind it when `p` holds, else before it.  Whatever the list,
the element before the result meets `p` and the one at the result does not (`lowerBound_spec`); when
`p` is monotone along the list, that is a partition (`Partitioned.lowerBound_eq`).
-/

universe u

variable {α : Type u}

/-- The loop over `first` and `len`. -/
def lowerBoundLoop (p : α → Bool) (l : List α) : ℕ → ℕ → ℕ → ℕ
  | 0, first, _ => first
  | fuel + 1, first, len =>
    if len = 0 then first
    else
      let half := len / 2
      if (l[first + half]?).any p then lowerBoundLoop p l fuel (first + half + 1) (len - half - 1)
      else lowerBoundLoop p l fuel first half

/-- The range shrinks in every round, so that the length of the list is enough fuel. -/
def lowerBound (p : α → Bool) (l : List α) : ℕ := lowerBoundLoop p l l.length 0 l.length

/-- `p` holds before `k` and not from `k` on. -/
def Partitioned (p : α → Bool) (l : List α) (k : ℕ) : Prop :=
  k ≤ l.length ∧ ∀ i x, l[i]? = some x → (p x = true ↔ i < k)

section

variable {p : α → Bool} {l : List α}

/-- What the loop returns is in the range, and was tested at its ends unless these are the ends of the
range. -/
theorem lowerBoundLoop_spec {fuel : ℕ} (first : ℕ) {len : ℕ} (hfuel : len ≤ fuel) :
    first ≤ lowerBoundLoop p l fuel first len ∧ lowerBoundLoop p l fuel first len ≤ first + len ∧
      (first < lowerBoundLoop p l fuel first len →
        (l[lowerBoundLoop p l fuel first len - 1]?).any p = true) ∧
      (lowerBoundLoop p l fuel first len < first + len →
        (l[lowerBoundLoop p l fuel first len]?).any p = false) := by
  induction fuel generalizing first len with
  | zero =>
    obtain rfl : len = 0 := by omega
    exact ⟨Nat.le_refl _, Nat.le_refl _, fun h => absurd h (Nat.lt_irrefl _),
      fun h => absurd h (Nat.lt_irrefl _)⟩
  | succ fuel ih =>
    rw [lowerBoundLoop]
    by_cases h0 : len = 0
    · rw [if_pos h0, h0]
      exact ⟨Nat.le_refl _, Nat.le_refl _, fun h => absurd h (Nat.lt_irrefl _),
        fun h => absurd h (Nat.lt_irrefl _)⟩
    · rw [if_neg h0]
      have hhalf : len / 2 < len := Nat.div_lt_self (by omega) (by omega)
      by_cases hp : (l[first + len / 2]?).any p = true
      · simp only [hp, if_true]
        obtain ⟨hge, hle, hlow, hhigh⟩ :=
          ih (first + len / 2 + 1) (show len - len / 2 - 1 ≤ fuel by omega)
        refine ⟨by omega, by omega, fun _ => ?_, fun hlt => hhigh (by omega)⟩
        rcases Nat.eq_or_lt_of_le hge with heq | hlt
        · rw [← heq, Nat.add_sub_cancel]
          exact hp
        · exact hlow hlt
      · rw [Bool.not_eq_true] at hp
        simp only [hp, Bool.false_eq_true, if_false]
        obtain ⟨hge, hle, hlow, hhigh⟩ := ih first (show len / 2 ≤ fuel by omega)
        refine ⟨hge, Nat.le_trans hle (by omega), hlow, fun _ => ?_⟩
        rcases Nat.eq_or_lt_of_le hle with heq | hlt
        · rw [heq]
          exact hp
        · exact hhigh hlt

/-- **The result of `lower_bound`** on any list: the element before it meets `p`, the one at it does
not. -/
theorem lowerBound_spec : lowerBound p l ≤ l.length ∧
    (0 < lowerBound p l → (l[lowerBound p l - 1]?).any p = true) ∧
    (lowerBound p l < l.length → (l[lowerBound p l]?).any p = false) := by
  obtain ⟨-, hle, hlow, hhigh⟩ :=
    lowerBoundLoop_spec (p := p) (l := l) 0 (Nat.le_refl l.length)
  rw [Nat.zero_add] at hle hhigh
  exact ⟨hle, hlow, hhigh⟩

/-- On a partitioned list, the result is where `p` ceases to hold. -/
theorem Partitioned.lowerBound_eq {k : ℕ} (h : Partitioned p l k) : lowerBound p l = k := by
  obtain ⟨hk, hpart⟩ := h
  obtain ⟨hle, hlow, hhigh⟩ := lowerBound_spec (p := p) (l := l)
  refine Nat.le_antisymm (Nat.le_of_not_lt fun hlt => ?_) (Nat.le_of_not_lt fun hlt => ?_)
  · have hin : lowerBound p l - 1 < l.length := by omega
    have hp := hlow (by omega)
    rw [List.getElem?_eq_getElem hin, Option.any_some] at hp
    have hk' := (hpart _ _ (List.getElem?_eq_getElem hin)).mp hp
    omega
  · have hin : lowerBound p l < l.length := by omega
    have hp := hhigh hin
    rw [List.getElem?_eq_getElem hin, Option.any_some] at hp
    rw [(hpart _ _ (List.getElem?_eq_getElem hin)).mpr hlt] at hp
    cases hp

/-- The elements with `p` are those in front. -/
theorem Partitioned.filter_eq {k : ℕ} (h : Partitioned p l k) : l.filter p = l.take k := by
  obtain ⟨hk, hpart⟩ := h
  have hfront : (l.take k).filter p = l.take k := by
    refine List.filter_eq_self.mpr fun x hx => ?_
    obtain ⟨i, hi⟩ := List.mem_iff_getElem?.mp hx
    rw [List.getElem?_take] at hi
    split at hi
    · next hik => exact (hpart i x hi).mpr hik
    · cases hi
  have hback : (l.drop k).filter p = [] := by
    refine List.filter_eq_nil_iff.mpr fun x hx hp => ?_
    obtain ⟨i, hi⟩ := List.mem_iff_getElem?.mp hx
    rw [List.getElem?_drop] at hi
    exact absurd ((hpart (k + i) x hi).mp hp) (by omega)
  calc l.filter p = (l.take k ++ l.drop k).filter p := by rw [List.take_append_drop]
    _ = l.take k := by rw [List.filter_append, hfront, hback, List.append_nil]

/-- A list along which `p` can only cease to hold is partitioned. -/
theorem exists_partitioned (h : l.Pairwise fun x y => p y = true → p x = true) :
    ∃ k, Partitioned p l k := by
  induction l with
  | nil => exact ⟨0, Nat.le_refl 0, nofun⟩
  | cons x l ih =>
    obtain ⟨hx, hl⟩ := List.pairwise_cons.mp h
    obtain ⟨k, hk, hpart⟩ := ih hl
    by_cases hp : p x = true
    · refine ⟨k + 1, Nat.succ_le_succ hk, fun i y hy => ?_⟩
      rcases i with _ | i
      · rw [List.getElem?_cons_zero, Option.some.injEq] at hy
        subst hy
        exact ⟨fun _ => Nat.succ_pos k, fun _ => hp⟩
      · rw [List.getElem?_cons_succ] at hy
        rw [hpart i y hy, Nat.succ_lt_succ_iff]
    · refine ⟨0, Nat.zero_le _, fun i y hy => ?_⟩
      refine ⟨fun hpy => absurd ?_ hp, fun hi => absurd hi (Nat.not_lt_zero i)⟩
      rcases List.mem_cons.mp (List.mem_of_getElem? hy) with rfl | hmem
      · exact hpy
      · exact hx y hmem hpy

end

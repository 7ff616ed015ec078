import Mathlib.Data.List.Infix

/-!
# Lib.Find — first occurrences in a list

`First P s r`: the answer `r` of a search from `s` on is the first position with `P`, or nothing when
there is none.  `search` looks for a sublist, `List.findIdx?` for an element.
-/

namespace Find

variable {α : Type*}

/-- `r` is the first position from `start` on with `P`, `none` when there is none. -/
def First (P : ℕ → Prop) (start : ℕ) : Option ℕ → Prop
  | some p => start ≤ p ∧ P p ∧ ∀ q, start ≤ q → q < p → ¬ P q
  | none => ∀ q, start ≤ q → ¬ P q

theorem First.congr {P Q : ℕ → Prop} {start : ℕ} {r : Option ℕ} (h : First P start r)
    (hPQ : ∀ p, start ≤ p → (P p ↔ Q p)) : First Q start r := by
  cases r with
  | none => exact fun q hq hQ => h q hq ((hPQ q hq).mpr hQ)
  | some p =>
    obtain ⟨hp, hP, hmin⟩ := h
    exact ⟨hp, (hPQ p hp).mp hP, fun q hq hlt hQ => hmin q hq hlt ((hPQ q hq).mpr hQ)⟩

/-- A search in the part of a list from position `s` on. -/
theorem First.shift {P : ℕ → Prop} {r : Option ℕ} {s : ℕ} (h : First (fun i => P (s + i)) 0 r) :
    First P s (r.map (s + ·)) := by
  have hq : ∀ q, s ≤ q → s + (q - s) = q := fun q hq => by omega
  cases r with
  | none =>
    intro q hs hP
    exact h (q - s) (Nat.zero_le _) (by simpa only [hq q hs] using hP)
  | some p =>
    obtain ⟨-, hP, hmin⟩ := h
    refine ⟨Nat.le_add_right _ _, hP, fun q hs hlt hPq => ?_⟩
    have hlt' : q < s + p := hlt
    exact hmin (q - s) (Nat.zero_le _) (by omega) (by simpa only [hq q hs] using hPq)

theorem First.here {P : ℕ → Prop} (h : P 0) : First P 0 (some 0) :=
  ⟨le_rfl, h, fun q _ hlt => absurd hlt (Nat.not_lt_zero q)⟩

/-- Not at the head: the answer is that of the tail, one further. -/
theorem First.there {P : ℕ → Prop} {r : Option ℕ} (h0 : ¬ P 0) (h : First (fun i => P (i + 1)) 0 r) :
    First P 0 (r.map (· + 1)) := by
  cases r with
  | none =>
    intro q _ hq
    cases q with
    | zero => exact h0 hq
    | succ q => exact h q (Nat.zero_le _) hq
  | some p =>
    obtain ⟨-, hP, hmin⟩ := h
    refine ⟨Nat.zero_le _, hP, fun q _ hlt hq => ?_⟩
    cases q with
    | zero => exact h0 hq
    | succ q => exact hmin q (Nat.zero_le _) (Nat.lt_of_succ_lt_succ hlt) hq

/-- The offset of the first occurrence of `pat`. -/
def search [DecidableEq α] (pat : List α) : List α → Option ℕ
  | [] => none
  | x :: xs => if pat <+: x :: xs then some 0 else (search pat xs).map (· + 1)

/-- **A search for a sublist.** -/
theorem first_search [DecidableEq α] {pat : List α} (hpat : pat ≠ []) (l : List α) :
    First (fun i => pat <+: l.drop i) 0 (search pat l) := by
  induction l with
  | nil =>
    intro q _ hq
    rw [List.drop_nil] at hq
    exact hpat (List.prefix_nil.mp hq)
  | cons x xs ih =>
    rw [search]
    by_cases hhere : pat <+: x :: xs
    · rw [if_pos hhere]
      exact .here hhere
    · rw [if_neg hhere]
      exact .there hhere ih

/-- An occurrence is before the end. -/
theorem search_lt [DecidableEq α] {pat l : List α} (hpat : pat ≠ []) {i : ℕ}
    (h : search pat l = some i) : i < l.length := by
  obtain ⟨-, hP, -⟩ := h ▸ first_search hpat l
  by_contra hle
  simp only [List.drop_of_length_le (not_lt.mp hle)] at hP
  exact hpat (List.prefix_nil.mp hP)

/-- **A search for an element.** -/
theorem first_findIdx? (p : α → Bool) (l : List α) :
    First (fun i => ∃ x, l[i]? = some x ∧ p x = true) 0 (l.findIdx? p) := by
  induction l with
  | nil =>
    rintro q - ⟨x, hx, -⟩
    cases hx
  | cons y ys ih =>
    rw [List.findIdx?_cons]
    by_cases hy : p y = true
    · rw [if_pos hy]
      exact .here ⟨y, rfl, hy⟩
    · rw [if_neg hy]
      refine .there ?_ ih
      rintro ⟨x, hx, hpx⟩
      exact hy (Option.some.inj hx ▸ hpx)

/-! ## The last occurrence -/

/-- The position of the last element with `p`. -/
def findLast? (p : α → Bool) (l : List α) : Option ℕ :=
  (l.reverse.findIdx? p).map fun i => l.length - 1 - i

theorem findLast?_eq_none {p : α → Bool} {l : List α} (h : ∀ x ∈ l, p x = false) :
    findLast? p l = none := by
  rw [findLast?, List.findIdx?_eq_none_iff.mpr fun x hx => h x (List.mem_reverse.mp hx),
    Option.map_none]

theorem findLast?_append_cons {p : α → Bool} {a b : List α} {x : α} (hx : p x = true)
    (hb : ∀ y ∈ b, p y = false) : findLast? p (a ++ x :: b) = some a.length := by
  have hrev : (a ++ x :: b).reverse = b.reverse ++ x :: a.reverse := by
    rw [List.reverse_append, List.reverse_cons, List.append_assoc, List.singleton_append]
  have hnone : b.reverse.findIdx? p = none :=
    List.findIdx?_eq_none_iff.mpr fun y hy => hb y (List.mem_reverse.mp hy)
  rw [findLast?, hrev, List.findIdx?_append, hnone, List.findIdx?_cons, if_pos hx]
  simp only [Option.map_some, Option.none_or, List.length_reverse, List.length_append,
    List.length_cons]
  congr 1
  omega

/-- A list with `x` is split at the last one. -/
theorem split_last {l : List α} {x : α} (h : x ∈ l) : ∃ a b, l = a ++ x :: b ∧ x ∉ b := by
  obtain ⟨as, bs, hl, hnot⟩ := List.eq_append_cons_of_mem (List.mem_reverse.mpr h)
  refine ⟨bs.reverse, as.reverse, ?_, fun hx => hnot (List.mem_reverse.mp hx)⟩
  rw [← List.reverse_reverse l, hl, List.reverse_append, List.reverse_cons, List.append_assoc,
    List.singleton_append]

end Find

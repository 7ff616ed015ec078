import Mathlib.Algebra.BigOperators.Group.List.Basic
import Mathlib.Algebra.GroupWithZero.Nat

/-!
# Lib.Rolling — cutting a sequence where it has grown over a limit

Items with sizes are put into parts, one after the other.  A part is closed by the item with which it
grows over the limit (`add`), and the next item opens another.  `IsCut` says what comes of it without
the order of the steps, and `isCut_add` is the step.
-/

namespace MengSen.Rolling

variable {α : Type*}

/-- The parts that are closed, and the one that is not. -/
structure Parts (α : Type*) where
  closed : List (List α)
  last : List α

variable (size : α → ℕ) (limit : ℕ)

/-- The size of a part. -/
def total (part : List α) : ℕ := (part.map size).sum

def add (p : Parts α) (x : α) : Parts α :=
  if total size (p.last ++ [x]) > limit then ⟨p.closed ++ [p.last ++ [x]], []⟩
  else ⟨p.closed, p.last ++ [x]⟩

/-- A part that its last item brings over the limit. -/
def Full (part : List α) : Prop := total size part > limit ∧ total size part.dropLast ≤ limit

/-- `l` is cut into the parts. -/
structure IsCut (l : List α) (p : Parts α) : Prop where
  flatten : p.closed.flatten ++ p.last = l
  full : ∀ part ∈ p.closed, Full size limit part
  fits : total size p.last ≤ limit

variable {size} {limit} {l : List α} {p : Parts α}

theorem isCut_nil : IsCut size limit [] ⟨[], []⟩ where
  flatten := rfl
  full _ h := absurd h List.not_mem_nil
  fits := Nat.zero_le limit

/-- **One item more.** -/
theorem isCut_add (h : IsCut size limit l p) (x : α) :
    IsCut size limit (l ++ [x]) (add size limit p x) := by
  have hall : p.closed.flatten ++ (p.last ++ [x]) = l ++ [x] := by
    rw [← List.append_assoc, h.flatten]
  rw [add]
  split_ifs with hover
  · refine ⟨?_, fun part hpart => ?_, Nat.zero_le limit⟩
    · rw [List.flatten_concat, List.append_nil]
      exact hall
    · rcases List.mem_append.mp hpart with hold | hnew
      · exact h.full part hold
      · obtain rfl := List.mem_singleton.mp hnew
        refine ⟨hover, ?_⟩
        rw [List.dropLast_concat]
        exact h.fits
  · exact ⟨hall, h.full, Nat.le_of_not_lt hover⟩

/-- Where every item is over the limit, every part holds one. -/
theorem IsCut.singletons (h : IsCut size limit l p) (hover : ∀ x ∈ l, size x > limit) :
    p.closed = l.map ([·]) ∧ p.last = [] := by
  have hone : ∀ part : List α, (∀ x ∈ part, x ∈ l) → total size part ≤ limit → part = [] := by
    intro part hmem hfits
    cases part with
    | nil => rfl
    | cons x part =>
      have hx := hover x (hmem x List.mem_cons_self)
      rw [total, List.map_cons, List.sum_cons] at hfits
      omega
  have hlast : p.last = [] := hone _ (fun x hx => by
    rw [← h.flatten]
    exact List.mem_append_right _ hx) h.fits
  have hflatten : p.closed.flatten = l := by
    have := h.flatten
    rwa [hlast, List.append_nil] at this
  refine ⟨?_, hlast⟩
  have hpart : ∀ part ∈ p.closed, ∃ x, part = [x] := by
    intro part hpart
    obtain ⟨hbig, hsmall⟩ := h.full part hpart
    have hmem : ∀ x ∈ part, x ∈ l := fun x hx => by
      rw [← hflatten]
      exact List.mem_flatten_of_mem hpart hx
    have hfront := hone _ (fun x hx => hmem x (List.dropLast_subset part hx)) hsmall
    cases part with
    | nil => exact absurd hbig (Nat.not_lt_zero limit)
    | cons x part =>
      refine ⟨x, ?_⟩
      cases part with
      | nil => rfl
      | cons y part => cases hfront
  rw [← hflatten]
  generalize p.closed = closed at hpart
  induction closed with
  | nil => rfl
  | cons part closed ih =>
    obtain ⟨x, rfl⟩ := hpart _ List.mem_cons_self
    rw [List.flatten_cons, List.map_append, List.map_singleton, List.singleton_append,
      ← ih fun part h => hpart part (List.mem_cons_of_mem _ h)]

end MengSen.Rolling

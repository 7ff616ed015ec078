import Mathlib.Data.List.Lex
import Mathlib.Order.Lattice
import Mathlib.Order.Monotone.Basic

/-!
# Lib.Lex — the lexicographic order of lists

Lists over a linear order are compared at the first place where they differ, and a proper prefix is
smaller.  The lemmas compare lists field by field: heads of one length decide before what follows
them, and the common length decides before the lengths.  `StrictTotal` is what sorting by a comparison
relies on.  Bytes are ordered as unsigned numbers.
-/

namespace Lex

variable {α : Type*} [LinearOrder α] {a b c d l m : List α} {x : α}

theorem nil_lt_iff : [] < l ↔ l ≠ [] := by
  cases l with
  | nil => exact iff_of_false (lt_irrefl _) (fun h => h rfl)
  | cons x l => exact iff_of_true (List.nil_lt_cons x l) (List.cons_ne_nil x l)

theorem cons_lt_cons {y : α} : x :: a < y :: b ↔ x < y ∨ x = y ∧ a < b := List.cons_lt_cons_iff

/-- **Heads of one length decide first**. -/
theorem append_lt_append (h : a.length = b.length) : a ++ c < b ++ d ↔ a < b ∨ a = b ∧ c < d := by
  induction a generalizing b with
  | nil =>
    obtain rfl := List.length_eq_zero_iff.mp h.symm
    simp
  | cons x a ih =>
    obtain _ | ⟨y, b⟩ := b
    · cases h
    · rw [List.cons_append, List.cons_append, cons_lt_cons, cons_lt_cons,
        ih (Nat.succ_injective h), List.cons.injEq]
      tauto

/-- **The common length decides before the lengths**. -/
theorem lt_iff_take {n : ℕ} (hn : n = min l.length m.length) :
    l < m ↔ l.take n < m.take n ∨ l.take n = m.take n ∧ l.length < m.length := by
  have hl : (l.take n).length = (m.take n).length := by
    rw [List.length_take, List.length_take]
    omega
  have hsplit : l < m ↔ l.take n ++ l.drop n < m.take n ++ m.drop n := by
    rw [List.take_append_drop, List.take_append_drop]
  have hrest : l.drop n < m.drop n ↔ l.length < m.length := by
    rcases Nat.lt_or_ge l.length m.length with hlt | hge
    · have hnil : l.drop n = [] := List.drop_eq_nil_iff.mpr (by omega)
      have hne : m.drop n ≠ [] := fun h => by
        have := List.drop_eq_nil_iff.mp h
        omega
      rw [hnil]
      exact iff_of_true (nil_lt_iff.mpr hne) hlt
    · have hnil : m.drop n = [] := List.drop_eq_nil_iff.mpr (by omega)
      rw [hnil]
      exact iff_of_false (List.not_lt_nil _) (by omega)
  rw [hsplit, append_lt_append hl, hrest]

/-- A comparison that decides two orders alike decides two equalities alike. -/
theorem eq_iff_of_lt_iff {β : Type*} [LinearOrder β] {x' : α} {y y' : β} (h : x < x' ↔ y < y')
    (h' : x' < x ↔ y' < y) : x = x' ↔ y = y' := by
  rw [le_antisymm_iff, le_antisymm_iff, ← not_lt, ← not_lt, ← not_lt, ← not_lt, h, h']

omit [LinearOrder α] in
theorem eq_iff_take {n : ℕ} (hn : n = min l.length m.length) :
    l = m ↔ l.take n = m.take n ∧ l.length = m.length := by
  refine ⟨fun h => h ▸ ⟨rfl, rfl⟩, fun ⟨htake, hlen⟩ => ?_⟩
  rwa [hn, ← hlen, min_self, List.take_length, hlen, List.take_length] at htake

/-- A monotone renaming of the elements keeps the order. -/
theorem map_lt_map {β : Type*} [LinearOrder β] {f : α → β} {s : Set α} (hf : StrictMonoOn f s)
    (hl : ∀ x ∈ l, x ∈ s) (hm : ∀ x ∈ m, x ∈ s) : l.map f < m.map f ↔ l < m := by
  induction l generalizing m with
  | nil =>
    rw [List.map_nil, nil_lt_iff, nil_lt_iff, ne_eq, List.map_eq_nil_iff]
  | cons x l ih =>
    obtain _ | ⟨y, m⟩ := m
    · exact iff_of_false (List.not_lt_nil _) (List.not_lt_nil _)
    · have hx := hl x List.mem_cons_self
      have hy := hm y List.mem_cons_self
      have hinj : f x = f y ↔ x = y := ⟨fun h => hf.injOn hx hy h, congrArg f⟩
      rw [List.map_cons, List.map_cons, cons_lt_cons, cons_lt_cons, hf.lt_iff_lt hx hy, hinj, ih
        (fun z hz => hl z (List.mem_cons_of_mem _ hz)) fun z hz => hm z (List.mem_cons_of_mem _ hz)]

/-! ## Comparison by a key -/

/-- `lt` is a strict total order of which `eq` is the equality: what sorting by `lt`, or a container
that is keyed by it, relies on. -/
structure StrictTotal {S : Type*} (lt eq : S → S → Bool) : Prop where
  equivalence : Equivalence fun a b => eq a b = true
  irrefl : ∀ a, lt a a = false
  trans : ∀ a b c, lt a b = true → lt b c = true → lt a c = true
  incomparable : ∀ a b, (lt a b = false ∧ lt b a = false) ↔ eq a b = true
  congr : ∀ a a' b b', eq a a' = true → eq b b' = true → lt a b = lt a' b'

/-- A comparison of keys in a linear order is one. -/
theorem StrictTotal.ofKey {S : Type*} {lt eq : S → S → Bool} (key : S → α)
    (hlt : ∀ a b, lt a b = true ↔ key a < key b) (heq : ∀ a b, eq a b = true ↔ key a = key b) :
    StrictTotal lt eq where
  equivalence :=
    { refl := fun a => (heq a a).mpr rfl
      symm := fun h => (heq _ _).mpr ((heq _ _).mp h).symm
      trans := fun h k => (heq _ _).mpr (((heq _ _).mp h).trans ((heq _ _).mp k)) }
  irrefl a := Bool.eq_false_iff.mpr fun h => lt_irrefl _ ((hlt a a).mp h)
  trans a b c hab hbc := (hlt a c).mpr (((hlt a b).mp hab).trans ((hlt b c).mp hbc))
  incomparable a b := by
    rw [Bool.eq_false_iff, Bool.eq_false_iff, ne_eq, ne_eq, hlt, hlt, heq, not_lt, not_lt,
      and_comm]
    exact le_antisymm_iff.symm
  congr a a' b b' ha hb := by
    rw [Bool.eq_iff_iff, hlt, hlt, (heq a a').mp ha, (heq b b').mp hb]

end Lex

/-- Bytes are ordered as unsigned numbers. -/
instance byteLinearOrder : LinearOrder UInt8 where
  le_refl _ := UInt8.le_refl _
  le_trans _ _ _ := UInt8.le_trans
  lt_iff_le_not_ge a b := by
    rw [UInt8.lt_iff_toNat_lt, UInt8.le_iff_toNat_le, UInt8.le_iff_toNat_le]
    omega
  le_antisymm _ _ := UInt8.le_antisymm
  le_total := UInt8.le_total
  toDecidableLE := inferInstance
  toDecidableLT := inferInstance
  toDecidableEq := inferInstance

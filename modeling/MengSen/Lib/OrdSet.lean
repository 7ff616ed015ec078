import Mathlib.Data.List.Sort
import Mathlib.Order.Basic

/-!
# Lib.OrdSet — ordered sets without repetition

A finite set kept as its strictly increasing list of elements, with the operations of an ordered
container: insertion and removal report whether and how much they changed, `begin?` is the least
element, `below x` the elements before the lower bound of `x`, `lowerBound? x` the element at it.
The order is a field of the structure, so every value is an ordered set.
-/

/-- A finite set as its strictly increasing list of elements. -/
structure OrdSet (α : Type*) [LinearOrder α] where
  toList : List α
  sorted : toList.Pairwise (· < ·)

namespace OrdSet

variable {α : Type*} [LinearOrder α] {s : OrdSet α} {a b x : α}

instance : Membership α (OrdSet α) := ⟨fun s a => a ∈ s.toList⟩

instance (a : α) (s : OrdSet α) : Decidable (a ∈ s) := inferInstanceAs (Decidable (a ∈ s.toList))

/-- The empty set. -/
def empty : OrdSet α := ⟨[], .nil⟩

/-- Number of elements. -/
def size (s : OrdSet α) : ℕ := s.toList.length

/-- The least element, `none` for the empty set. -/
def begin? (s : OrdSet α) : Option α := s.toList.head?

theorem sorted_orderedInsert {l : List α} (h : l.Pairwise (· < ·)) (ha : a ∉ l) :
    (l.orderedInsert (· ≤ ·) a).Pairwise (· < ·) := by
  have hle : (l.orderedInsert (· ≤ ·) a).Pairwise (· ≤ ·) :=
    (h.imp le_of_lt).orderedInsert a l
  have hnd : (l.orderedInsert (· ≤ ·) a).Nodup :=
    (List.perm_orderedInsert (· ≤ ·) a l).nodup_iff.mpr
      (List.nodup_cons.mpr ⟨ha, h.imp ne_of_lt⟩)
  exact (hle.and hnd).imp fun h => lt_of_le_of_ne h.1 h.2

/-- Insertion; the flag says whether the element was new. -/
def insert (s : OrdSet α) (a : α) : OrdSet α × Bool :=
  if h : a ∈ s.toList then (s, false)
  else (⟨s.toList.orderedInsert (· ≤ ·) a, sorted_orderedInsert s.sorted h⟩, true)

/-- Removal by key; the number says how many elements were removed. -/
def erase (s : OrdSet α) (a : α) : OrdSet α × ℕ :=
  (⟨s.toList.erase a, s.sorted.sublist List.erase_sublist⟩, if a ∈ s then 1 else 0)

/-- The elements before the lower bound of `x`, in order. -/
def below (s : OrdSet α) (x : α) : List α := s.toList.takeWhile (· < x)

/-- The element at the lower bound of `x`, `none` at the end. -/
def lowerBound? (s : OrdSet α) (x : α) : Option α := (s.toList.dropWhile (· < x)).head?

/-- Removal of the elements before the lower bound of `x`. -/
def eraseBelow (s : OrdSet α) (x : α) : OrdSet α :=
  ⟨s.toList.dropWhile (· < x), s.sorted.sublist (List.dropWhile_sublist _)⟩

/-! ## Membership and size -/

theorem mem_def : a ∈ s ↔ a ∈ s.toList := Iff.rfl

@[simp] theorem notMem_empty (a : α) : a ∉ (empty : OrdSet α) := by simp [mem_def, empty]

theorem nodup (s : OrdSet α) : s.toList.Nodup := s.sorted.imp ne_of_lt

/-- Sets with the same elements are the same list. -/
theorem ext_mem {t : OrdSet α} (h : ∀ a, a ∈ s ↔ a ∈ t) : s = t := by
  obtain ⟨l, hl⟩ := s
  obtain ⟨m, hm⟩ := t
  obtain rfl : l = m := List.Pairwise.eq_of_mem_iff hl hm fun {a} => h a
  rfl

@[simp] theorem insert_snd : (s.insert a).2 = decide (a ∉ s) := by
  unfold insert
  split
  · next h => simp [mem_def, h]
  · next h => simp [mem_def, h]

@[simp] theorem mem_insert : b ∈ (s.insert a).1 ↔ b = a ∨ b ∈ s := by
  unfold insert
  split
  · next h => exact ⟨Or.inr, fun hb => hb.elim (fun e => e ▸ h) id⟩
  · exact List.mem_orderedInsert _

theorem size_insert (h : a ∉ s) : (s.insert a).1.size = s.size + 1 := by
  unfold insert
  rw [dif_neg (mem_def.not.mp h)]
  exact List.orderedInsert_length _ _ _

@[simp] theorem erase_snd : (s.erase a).2 = if a ∈ s then 1 else 0 := rfl

@[simp] theorem mem_erase : b ∈ (s.erase a).1 ↔ b ≠ a ∧ b ∈ s := s.nodup.mem_erase_iff

theorem size_erase (h : a ∈ s) : (s.erase a).1.size + 1 = s.size := by
  have hpos : 0 < s.toList.length := List.length_pos_of_mem h
  have hlen : (s.toList.erase a).length = s.toList.length - 1 := List.length_erase_of_mem h
  change (s.toList.erase a).length + 1 = s.toList.length
  omega

/-! ## The least element -/

theorem begin?_eq_none : s.begin? = none ↔ ∀ a, a ∉ s := by
  simp [begin?, mem_def, List.eq_nil_iff_forall_not_mem]

theorem begin?_mem (h : s.begin? = some b) : b ∈ s := List.mem_of_head? h

theorem begin?_le (h : s.begin? = some b) (ha : a ∈ s) : b ≤ a := by
  obtain ⟨l, hs⟩ := s
  cases l with
  | nil => simp [begin?] at h
  | cons c l =>
    obtain rfl : c = b := by simpa [begin?] using h
    rcases List.mem_cons.mp ha with rfl | ha
    · exact le_rfl
    · exact le_of_lt ((List.pairwise_cons.mp hs).1 a ha)

/-! ## Lower bounds -/

theorem mem_takeWhile_lt {l : List α} (hl : l.Pairwise (· < ·)) :
    a ∈ l.takeWhile (· < x) ↔ a ∈ l ∧ a < x := by
  induction l with
  | nil => simp
  | cons c l ih =>
    obtain ⟨hc, hl⟩ := List.pairwise_cons.mp hl
    by_cases h : c < x
    · simp only [List.takeWhile_cons, decide_eq_true h, if_true, List.mem_cons, ih hl]
      refine ⟨?_, ?_⟩
      · rintro (rfl | ⟨ha, hx⟩)
        · exact ⟨.inl rfl, h⟩
        · exact ⟨.inr ha, hx⟩
      · rintro ⟨rfl | ha, hx⟩
        · exact .inl rfl
        · exact .inr ⟨ha, hx⟩
    · simp only [List.takeWhile_cons, decide_eq_false h, Bool.false_eq_true, if_false,
        List.not_mem_nil, false_iff, not_and, List.mem_cons]
      rintro (rfl | ha) hx
      · exact h hx
      · exact h (lt_trans (hc a ha) hx)

theorem mem_dropWhile_lt {l : List α} (hl : l.Pairwise (· < ·)) :
    a ∈ l.dropWhile (· < x) ↔ a ∈ l ∧ x ≤ a := by
  induction l with
  | nil => simp
  | cons c l ih =>
    obtain ⟨hc, hl⟩ := List.pairwise_cons.mp hl
    by_cases h : c < x
    · simp only [List.dropWhile_cons, decide_eq_true h, if_true, List.mem_cons, ih hl]
      refine ⟨?_, ?_⟩
      · exact fun ⟨ha, hx⟩ => ⟨.inr ha, hx⟩
      · rintro ⟨rfl | ha, hx⟩
        · exact absurd h (not_lt.mpr hx)
        · exact ⟨ha, hx⟩
    · simp only [List.dropWhile_cons, decide_eq_false h, Bool.false_eq_true, if_false,
        List.mem_cons]
      refine ⟨fun ha => ⟨ha, ?_⟩, fun ha => ha.1⟩
      rcases ha with rfl | ha
      · exact not_lt.mp h
      · exact le_trans (not_lt.mp h) (le_of_lt (hc a ha))

theorem mem_below : a ∈ s.below x ↔ a ∈ s ∧ a < x := mem_takeWhile_lt s.sorted

theorem below_sorted (s : OrdSet α) (x : α) : (s.below x).Pairwise (· < ·) :=
  s.sorted.sublist (List.takeWhile_sublist _)

theorem mem_eraseBelow : a ∈ s.eraseBelow x ↔ a ∈ s ∧ x ≤ a := mem_dropWhile_lt s.sorted

theorem size_eraseBelow (s : OrdSet α) (x : α) :
    (s.below x).length + (s.eraseBelow x).size = s.size := by
  have h := congrArg List.length
    (List.takeWhile_append_dropWhile (p := fun a => decide (a < x)) (l := s.toList))
  rwa [List.length_append] at h

theorem lowerBound?_mem (h : s.lowerBound? x = some b) : b ∈ s ∧ x ≤ b :=
  (mem_dropWhile_lt s.sorted).mp (List.mem_of_head? h)

end OrdSet

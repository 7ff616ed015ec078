import Mathlib.Data.List.Basic
import Mathlib.Data.List.Range

/-!
# Lib.Layout — what stands where in a block

`At file pos d`: the cells of `file` from `pos` on are those of `d`.  A block that is put together from
parts is taken apart by `left` and `right`, and one that is put together from records of one length by
`map_range`.
-/

namespace Layout

variable {α β γ : Type*} {file d e : List α} {pos k : ℕ}

/-- The list `d` stands at `pos`. -/
def At (file : List α) (pos : ℕ) (d : List α) : Prop :=
  ∃ front back, file = front ++ (d ++ back) ∧ front.length = pos

theorem at_zero (d back : List α) : At (d ++ back) 0 d := ⟨[], back, rfl, rfl⟩

theorem length_flatMap {l : List β} {f : β → List α} (hf : ∀ x, (f x).length = k) :
    (l.flatMap f).length = k * l.length := by
  induction l with
  | nil => rfl
  | cons x l ih => rw [List.flatMap_cons, List.length_append, hf, ih, List.length_cons, Nat.mul_succ,
      Nat.add_comm]

namespace At

theorem left (h : At file pos (d ++ e)) : At file pos d := by
  obtain ⟨front, back, rfl, rfl⟩ := h
  exact ⟨front, e ++ back, by rw [List.append_assoc], rfl⟩

theorem right (h : At file pos (d ++ e)) : At file (pos + d.length) e := by
  obtain ⟨front, back, rfl, rfl⟩ := h
  refine ⟨front ++ d, back, ?_, List.length_append⟩
  rw [List.append_assoc, List.append_assoc]

/-- The part behind one of the length `k`. -/
theorem skip (h : At file pos (d ++ e)) (hk : d.length = k) : At file (pos + k) e := hk ▸ h.right

theorem length_le (h : At file pos d) : pos + d.length ≤ file.length := by
  obtain ⟨front, back, rfl, rfl⟩ := h
  rw [List.length_append, List.length_append]
  omega

theorem take_drop (h : At file pos d) : (file.drop pos).take d.length = d := by
  obtain ⟨front, back, rfl, rfl⟩ := h
  rw [List.drop_left, List.take_left]

theorem drop (h : At file pos d) : ∃ back, file.drop pos = d ++ back := by
  obtain ⟨front, back, rfl, rfl⟩ := h
  exact ⟨back, List.drop_left⟩

/-- **Records of one length** are read one by one. -/
theorem map_range {l : List β} {f : β → List α} {g : ℕ → γ} {r : β → γ}
    (h : At file pos (l.flatMap f)) (hf : ∀ x, (f x).length = k)
    (hg : ∀ x ∈ l, ∀ p, At file p (f x) → g p = r x) :
    (List.range l.length).map (fun i => g (pos + k * i)) = l.map r := by
  induction l generalizing pos with
  | nil => rfl
  | cons x l ih =>
    have hpos : ∀ i, pos + k * (i + 1) = pos + k + k * i := fun i => by
      rw [Nat.mul_succ]
      omega
    rw [List.flatMap_cons] at h
    rw [List.length_cons, List.range_succ_eq_map, List.map_cons, List.map_map, List.map_cons]
    simp only [Function.comp_def, Nat.succ_eq_add_one, hpos]
    rw [ih (h.skip (hf x)) fun y hy => hg y (List.mem_cons_of_mem x hy)]
    congr 1
    exact hg x List.mem_cons_self _ h.left

end At

end Layout

import MengSen.Lib.Collect

/-!
# Lib.Slots — threads that take the slots of a block

A block has `n` slots.  Threads take them in the order of an index that grows by one for each, and that
goes on growing when there are none left; each thread works on its slot and then counts itself out.
`Slots n slot index count`: `slot t` is the slot that the thread `t` works on.  When the count is `n`,
nobody works on the block any more (`Slots.none_of_full`).
-/

universe u

variable {τ : Type u}

structure Slots (n : ℕ) (slot : τ → Option ℕ) (index count : ℕ) : Prop where
  below : ∀ t i, slot t = some i → i < index ∧ i < n
  alone : ∀ t t' i, slot t = some i → slot t' = some i → t = t'
  counted : ∃ is, Collects slot is ∧ count + is.length = min index n

namespace Slots

variable {n index count i : ℕ} {slot slot' : τ → Option ℕ} {t : τ}

theorem init (h : ∀ t, slot t = none) : Slots n slot 0 0 where
  below t i ht := by
    rw [h t] at ht
    cases ht
  alone t t' i ht := by
    rw [h t] at ht
    cases ht
  counted := ⟨[], .nil h, (Nat.zero_min n).symm⟩

theorem congr (hs : Slots n slot index count) (h : ∀ t, slot' t = slot t) :
    Slots n slot' index count := funext h ▸ hs

theorem le_index_of_full (hs : Slots n slot index n) : n ≤ index := by
  obtain ⟨is, -, hcount⟩ := hs.counted
  omega

/-- A thread finds no slot left. -/
theorem pass (hs : Slots n slot index count) (hle : n ≤ index) : Slots n slot (index + 1) count where
  below t i ht := ⟨Nat.lt_succ_of_lt (hs.below t i ht).1, (hs.below t i ht).2⟩
  alone := hs.alone
  counted := by
    obtain ⟨is, his, hcount⟩ := hs.counted
    exact ⟨is, his, by omega⟩

/-- While the count is behind, somebody works on a slot. -/
theorem exists_slot (hs : Slots n slot index count) (hlt : count < min index n) :
    ∃ t i, slot t = some i := by
  obtain ⟨is, his, hcount⟩ := hs.counted
  by_contra hnone
  push Not at hnone
  have hnil := his.eq_nil fun t => Option.eq_none_iff_forall_ne_some.mpr fun i => hnone t i
  rw [hnil, List.length_nil] at hcount
  omega

variable [DecidableEq τ]

/-- While a thread works on its slot, it is not counted. -/
theorem count_lt (hs : Slots n slot index count) (ht : slot t = some i) : count < min index n := by
  obtain ⟨is, his, hcount⟩ := hs.counted
  obtain ⟨js, hperm, -⟩ := his.erase ht
  have hlen := hperm.length_eq
  rw [List.length_cons] at hlen
  omega

theorem none_of_full (hs : Slots n slot index n) (t : τ) : slot t = none := by
  rcases ht : slot t with _ | i
  · rfl
  · have hlt := hs.count_lt ht
    omega

/-- A thread takes the next slot. -/
theorem take (hs : Slots n slot index count) (ht : slot t = none) (hlt : index < n) :
    Slots n (Function.update slot t (some index)) (index + 1) count where
  below t' i ht' := by
    by_cases heq : t' = t
    · rw [heq, Function.update_self] at ht'
      obtain rfl := Option.some.inj ht'
      exact ⟨Nat.lt_succ_self _, hlt⟩
    · rw [Function.update_of_ne heq] at ht'
      obtain ⟨hi, hn⟩ := hs.below t' i ht'
      exact ⟨Nat.lt_succ_of_lt hi, hn⟩
  alone t₁ t₂ i h₁ h₂ := by
    have hnew : ∀ t', slot t' ≠ some index := fun t' ht' =>
      Nat.lt_irrefl _ (hs.below t' index ht').1
    by_cases heq₁ : t₁ = t
    · by_cases heq₂ : t₂ = t
      · rw [heq₁, heq₂]
      · rw [heq₁, Function.update_self] at h₁
        rw [Function.update_of_ne heq₂, ← h₁] at h₂
        exact absurd h₂ (hnew t₂)
    · rw [Function.update_of_ne heq₁] at h₁
      by_cases heq₂ : t₂ = t
      · rw [heq₂, Function.update_self] at h₂
        rw [← h₂] at h₁
        exact absurd h₁ (hnew t₁)
      · rw [Function.update_of_ne heq₂] at h₂
        exact hs.alone t₁ t₂ i h₁ h₂
  counted := by
    obtain ⟨is, his, hcount⟩ := hs.counted
    refine ⟨index :: is, his.insert ht, ?_⟩
    rw [List.length_cons]
    omega

/-- A thread counts itself out. -/
theorem release (hs : Slots n slot index count) (ht : slot t = some i) :
    Slots n (Function.update slot t none) index (count + 1) where
  below t' j ht' := by
    by_cases heq : t' = t
    · rw [heq, Function.update_self] at ht'
      cases ht'
    · rw [Function.update_of_ne heq] at ht'
      exact hs.below t' j ht'
  alone t₁ t₂ j h₁ h₂ := by
    by_cases heq₁ : t₁ = t
    · rw [heq₁, Function.update_self] at h₁
      cases h₁
    · by_cases heq₂ : t₂ = t
      · rw [heq₂, Function.update_self] at h₂
        cases h₂
      · rw [Function.update_of_ne heq₁] at h₁
        rw [Function.update_of_ne heq₂] at h₂
        exact hs.alone t₁ t₂ j h₁ h₂
  counted := by
    obtain ⟨is, his, hcount⟩ := hs.counted
    obtain ⟨js, hperm, hjs⟩ := his.erase ht
    have hlen := hperm.length_eq
    rw [List.length_cons] at hlen
    exact ⟨js, hjs, by omega⟩

/-- The next block is taken when the count says that all threads are through. -/
theorem restart (hs : Slots n slot index n) : Slots n slot 0 0 := init hs.none_of_full

end Slots

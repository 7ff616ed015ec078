import Mathlib.Data.Nat.Digits.Lemmas
import MengSen.Lib.Lex

/-!
# Lib.Numeral — numbers as lists of digits

`numeral b n` are the digits of `n` in base `b`, the most significant first and without leading zeros;
`padded b w n` are at least `w` digits.  A list of digits is the numeral of its value exactly when it is
`Canonical`.  Padded numerals of one width are in the order of their values, and the front of one is that
of a quotient.
-/

namespace Numeral

/-- The digits of `n`, the most significant first; one digit for 0. -/
def numeral (b n : ℕ) : List ℕ := if n = 0 then [0] else (b.digits n).reverse

/-- The digits of `n` with leading zeros up to the width `w`. -/
def padded (b w n : ℕ) : List ℕ := (b.digitsAppend w n).reverse

/-- The number with the given digits. -/
def value (b : ℕ) (l : List ℕ) : ℕ := Nat.ofDigits b l.reverse

/-- Digits without a leading zero. -/
structure Canonical (b : ℕ) (l : List ℕ) : Prop where
  ne_nil : l ≠ []
  lt_base : ∀ d ∈ l, d < b
  head : l.head? = some 0 → l = [0]

variable {b w n m k : ℕ}

/-! ## Numerals -/

theorem numeral_of_lt (h : n < b) : numeral b n = [n] := by
  by_cases hn : n = 0
  · rw [numeral, if_pos hn, hn]
  · rw [numeral, if_neg hn, Nat.digits_of_lt b n hn h]
    rfl

/-- **The last digit** and those before it. -/
theorem numeral_of_le (hb : 1 < b) (h : b ≤ n) : numeral b n = numeral b (n / b) ++ [n % b] := by
  have hdiv : n / b ≠ 0 := (Nat.div_pos h (by omega)).ne'
  rw [numeral, if_neg (by omega), numeral, if_neg hdiv, Nat.digits_eq_cons_digits_div hb (by omega),
    List.reverse_cons]

theorem numeral_ne_nil (b n : ℕ) : numeral b n ≠ [] := by
  by_cases hn : n = 0
  · rw [numeral, if_pos hn]
    exact List.cons_ne_nil _ _
  · rw [numeral, if_neg hn, ne_eq, List.reverse_eq_nil_iff]
    exact Nat.digits_ne_nil_iff_ne_zero.mpr hn

theorem lt_base_of_mem_numeral (hb : 1 < b) {d : ℕ} (hd : d ∈ numeral b n) : d < b := by
  by_cases hn : n = 0
  · rw [numeral, if_pos hn] at hd
    rw [List.mem_singleton.mp hd]
    omega
  · rw [numeral, if_neg hn, List.mem_reverse] at hd
    exact Nat.digits_lt_base hb hd

theorem canonical_numeral (hb : 1 < b) (n : ℕ) : Canonical b (numeral b n) where
  ne_nil := numeral_ne_nil b n
  lt_base _ := lt_base_of_mem_numeral hb
  head h := by
    by_cases hn : n = 0
    · rw [numeral, if_pos hn]
    · rw [numeral, if_neg hn, List.head?_reverse,
        List.getLast?_eq_some_getLast (Nat.digits_ne_nil_iff_ne_zero.mpr hn)] at h
      exact absurd (Option.some.inj h) (Nat.getLast_digit_ne_zero b hn)

@[simp] theorem value_numeral (b n : ℕ) : value b (numeral b n) = n := by
  by_cases hn : n = 0
  · rw [numeral, if_pos hn, value, hn]
    simp
  · rw [numeral, if_neg hn, value, List.reverse_reverse, Nat.ofDigits_digits]

/-- **A canonical list of digits is the numeral of its value**. -/
theorem Canonical.numeral_value (hb : 1 < b) {l : List ℕ} (h : Canonical b l) :
    numeral b (value b l) = l := by
  by_cases hz : l.head? = some 0
  · rw [h.head hz, value]
    simp [numeral]
  · have hrev : l.reverse ≠ [] := fun hnil => h.ne_nil (List.reverse_eq_nil_iff.mp hnil)
    have hdigits : b.digits (value b l) = l.reverse := by
      refine Nat.digits_ofDigits b hb _ (fun d hd => h.lt_base d (List.mem_reverse.mp hd)) ?_
      intro hne hlast
      refine hz ?_
      rw [← List.getLast?_reverse, List.getLast?_eq_some_getLast hne, hlast]
    have hne : value b l ≠ 0 := by
      rw [← Nat.digits_ne_nil_iff_ne_zero (b := b), hdigits]
      exact hrev
    rw [numeral, if_neg hne, hdigits, List.reverse_reverse]

theorem length_numeral_le (hb : 1 < b) (hk : 1 ≤ k) (h : n < b ^ k) :
    (numeral b n).length ≤ k := by
  by_cases hn : n = 0
  · rwa [numeral, if_pos hn]
  · rw [numeral, if_neg hn, List.length_reverse]
    exact (Nat.digits_length_le_iff hb n).mpr h

theorem length_numeral_mono (h : n ≤ m) : (numeral b n).length ≤ (numeral b m).length := by
  rcases n.eq_zero_or_pos with hn | hn
  · rw [numeral, if_pos hn]
    exact List.length_pos_iff.mpr (numeral_ne_nil b m)
  · rw [numeral, if_neg hn.ne', numeral, if_neg (hn.trans_le h).ne', List.length_reverse,
      List.length_reverse]
    exact Nat.le_length_digits_le b n m h

/-! ## Padded numerals -/

theorem length_padded (hb : 1 < b) (h : n < b ^ w) : (padded b w n).length = w := by
  rw [padded, List.length_reverse, Nat.length_digitsAppend hb w h]

theorem lt_base_of_mem_padded (hb : 1 < b) {d : ℕ} (hd : d ∈ padded b w n) : d < b :=
  Nat.lt_of_mem_digitsAppend hb w d (List.mem_reverse.mp hd)

@[simp] theorem value_padded (b w n : ℕ) : value b (padded b w n) = n := by
  rw [value, padded, List.reverse_reverse, Nat.digitsAppend, Nat.ofDigits_append_replicate_zero,
    Nat.ofDigits_digits]

theorem padded_inj : padded b w n = padded b w m ↔ n = m := by
  refine ⟨fun h => ?_, fun h => h ▸ rfl⟩
  rw [← value_padded b w n, h, value_padded]

/-- **The last digit of a padded numeral** and those before it. -/
theorem padded_succ (hb : 1 < b) (w n : ℕ) :
    padded b (w + 1) n = padded b w (n / b) ++ [n % b] := by
  have happend : b.digitsAppend (w + 1) n = n % b :: b.digitsAppend w (n / b) := by
    by_cases hn : n = 0
    · rw [hn, Nat.digitsAppend, Nat.digits_zero, Nat.zero_div, Nat.zero_mod, Nat.digitsAppend,
        Nat.digits_zero]
      rfl
    · rw [Nat.digitsAppend, Nat.digits_eq_cons_digits_div hb hn, List.length_cons,
        Nat.add_sub_add_right]
      rfl
  rw [padded, happend, List.reverse_cons]
  rfl

theorem numeral_eq_padded (hb : 1 < b) (hlo : b ^ w ≤ n) :
    numeral b n = padded b (w + 1) n := by
  have hpos : 0 < b ^ w := Nat.pow_pos (by omega)
  have hlen : w + 1 - (b.digits n).length = 0 := by
    have hlt := (Nat.lt_digits_length_iff hb n).mpr hlo
    omega
  rw [numeral, if_neg (by omega), padded, Nat.digitsAppend, hlen, List.replicate_zero,
    List.append_nil]

/-- **The front of a padded numeral** is that of a quotient. -/
theorem take_padded (hb : 1 < b) (h : n < b ^ w) (hk : k ≤ w) :
    (padded b w n).take k = padded b k (n / b ^ (w - k)) := by
  induction w generalizing n with
  | zero =>
    obtain rfl := Nat.le_zero.mp hk
    rw [Nat.sub_self, pow_zero, Nat.div_one, List.take_of_length_le (length_padded hb h).le]
  | succ w ih =>
    have hdiv : n / b < b ^ w := Nat.div_lt_of_lt_mul (by rwa [pow_succ'] at h)
    rcases Nat.lt_or_ge w k with hlt | hle
    · obtain rfl : k = w + 1 := by omega
      rw [Nat.sub_self, pow_zero, Nat.div_one, List.take_of_length_le (length_padded hb h).le]
    · rw [padded_succ hb, List.take_append_of_le_length (by rwa [length_padded hb hdiv]), ih hdiv hle,
        Nat.div_div_eq_div_mul, ← pow_succ', show w + 1 - k = w - k + 1 by omega]

/-- The quotients decide before the remainders. -/
theorem lt_iff_div_mod (b n m : ℕ) : n < m ↔ n / b < m / b ∨ n / b = m / b ∧ n % b < m % b := by
  have hsplit := Nat.div_add_mod n b
  have hsplit' := Nat.div_add_mod m b
  rcases lt_trichotomy (n / b) (m / b) with hlt | heq | hgt
  · exact iff_of_true (Nat.lt_of_div_lt_div hlt) (.inl hlt)
  · rw [heq] at hsplit
    simp only [heq, lt_self_iff_false, true_and, false_or]
    omega
  · have := Nat.lt_of_div_lt_div hgt
    exact iff_of_false (by omega) (by omega)

/-- **Padded numerals of one width are in the order of their values**. -/
theorem padded_lt_padded (hb : 1 < b) (hn : n < b ^ w) (hm : m < b ^ w) :
    padded b w n < padded b w m ↔ n < m := by
  induction w generalizing n m with
  | zero =>
    rw [pow_zero, Nat.lt_one_iff] at hn hm
    rw [hn, hm]
    exact iff_of_false (lt_irrefl _) (Nat.lt_irrefl 0)
  | succ w ih =>
    have hdivn : n / b < b ^ w := Nat.div_lt_of_lt_mul (by rwa [pow_succ'] at hn)
    have hdivm : m / b < b ^ w := Nat.div_lt_of_lt_mul (by rwa [pow_succ'] at hm)
    have hlast : [n % b] < [m % b] ↔ n % b < m % b := by
      rw [Lex.cons_lt_cons, lt_self_iff_false, and_false, or_false]
    rw [padded_succ hb, padded_succ hb, Lex.append_lt_append
      ((length_padded hb hdivn).trans (length_padded hb hdivm).symm), ih hdivn hdivm, padded_inj,
      hlast, ← lt_iff_div_mod]

end Numeral

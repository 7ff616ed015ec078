import Mathlib.Data.Int.Log
import Mathlib.Algebra.Order.Floor.Ring
import Mathlib.Tactic.Linarith

/-!
# Lib.Nearest — rounding to the nearest, ties to even

`toInt x` is the integer nearest to `x`, and the even one of two that are equally near.  `round p x`
rounds `x` to a significand of `p` binary digits in the same way; exponents are not bounded.  Both are
monotone, the second on what is not negative.
-/

namespace Nearest

variable {K : Type*} [Field K] [LinearOrder K] [FloorRing K]

/-- The nearest integer, the even one of two. -/
def toInt (x : K) : ℤ :=
  if x - ⌊x⌋ < 1 / 2 then ⌊x⌋
  else if 1 / 2 < x - ⌊x⌋ then ⌊x⌋ + 1
  else ⌊x⌋ + ⌊x⌋ % 2

/-- The unit of the last of `p` binary digits of `x`. -/
def ulp (p : ℕ) (x : K) : K := 2 ^ (Int.log 2 |x| + 1 - p)

/-- The nearest number with `p` binary digits. -/
def round (p : ℕ) (x : K) : K := toInt (x / ulp p x) * ulp p x

/-! ## Integers -/

section Integers

variable {x y : K}

theorem floor_le_toInt (x : K) : ⌊x⌋ ≤ toInt x := by
  unfold toInt
  split_ifs <;> omega

theorem toInt_le_floor_add_one (x : K) : toInt x ≤ ⌊x⌋ + 1 := by
  unfold toInt
  split_ifs <;> omega

theorem toInt_nonneg (h : 0 ≤ x) : 0 ≤ toInt x := (Int.floor_nonneg.mpr h).trans (floor_le_toInt x)

variable [IsStrictOrderedRing K]

/-- **The nearest integer is monotone**: within one unit the halves decide. -/
theorem toInt_mono (h : x ≤ y) : toInt x ≤ toInt y := by
  rcases (Int.floor_le_floor h).lt_or_eq with hlt | heq
  · have hx := toInt_le_floor_add_one x
    have hy := floor_le_toInt y
    omega
  · have hfrac : x - ⌊x⌋ ≤ y - ⌊y⌋ := by
      rw [heq]
      linarith
    unfold toInt
    rw [heq] at hfrac ⊢
    split_ifs <;> first | omega | (exfalso; linarith)

@[simp] theorem toInt_intCast (k : ℤ) : toInt (k : K) = k := by
  rw [toInt, Int.floor_intCast, sub_self, if_pos (by norm_num)]

end Integers

/-! ## Significands -/

section Significands

variable [IsStrictOrderedRing K] {p : ℕ} {x y : K}

theorem ulp_pos (p : ℕ) (x : K) : 0 < ulp p x := zpow_pos two_pos _

theorem round_nonneg (h : 0 ≤ x) : 0 ≤ round p x :=
  mul_nonneg (Int.cast_nonneg (toInt_nonneg (div_nonneg h (ulp_pos p x).le))) (ulp_pos p x).le

/-- A number of units is not passed. -/
theorem round_le {m : ℤ} (h : x ≤ m * ulp p x) : round p x ≤ m * ulp p x := by
  have hle : toInt (x / ulp p x) ≤ toInt (m : K) := toInt_mono ((div_le_iff₀ (ulp_pos p x)).mpr h)
  rw [toInt_intCast] at hle
  exact mul_le_mul_of_nonneg_right (Int.cast_le.mpr hle) (ulp_pos p x).le

theorem le_round {m : ℤ} (h : m * ulp p x ≤ x) : m * ulp p x ≤ round p x := by
  have hle : toInt (m : K) ≤ toInt (x / ulp p x) := toInt_mono ((le_div_iff₀ (ulp_pos p x)).mpr h)
  rw [toInt_intCast] at hle
  exact mul_le_mul_of_nonneg_right (Int.cast_le.mpr hle) (ulp_pos p x).le

/-- The units of a power of two. -/
theorem two_pow_mul_ulp (k p : ℕ) (x : K) :
    ((2 ^ k : ℤ) : K) * ulp p x = 2 ^ (Int.log 2 |x| + 1 + k - p) := by
  rw [ulp, Int.cast_pow, Int.cast_ofNat, ← zpow_natCast, ← zpow_add₀ two_pos.ne']
  exact congrArg _ (by omega)

/-- **Rounding is monotone**: a power of two between the two numbers is passed by neither, and without
one they have the same unit. -/
theorem round_mono (hp : 0 < p) (hx : 0 ≤ x) (h : x ≤ y) : round p x ≤ round p y := by
  rcases hx.eq_or_lt with rfl | hx
  · rw [round, zero_div, show toInt (0 : K) = 0 by simpa using toInt_intCast (K := K) 0, Int.cast_zero,
      zero_mul]
    exact round_nonneg h
  have hy := hx.trans_le h
  have hlog : Int.log 2 |x| ≤ Int.log 2 |y| := by
    rw [abs_of_pos hx, abs_of_pos hy]
    exact Int.log_mono_right hx h
  rcases hlog.lt_or_eq with hlt | heq
  · have hlo : x ≤ ((2 ^ p : ℤ) : K) * ulp p x := by
      have hx' := Int.lt_zpow_succ_log_self one_lt_two |x|
      rw [Nat.cast_ofNat] at hx'
      rw [two_pow_mul_ulp, add_sub_cancel_right]
      exact (le_abs_self x).trans hx'.le
    have hhi : ((2 ^ (p - 1) : ℤ) : K) * ulp p y ≤ y := by
      have hy' := Int.zpow_log_le_self one_lt_two (abs_pos.mpr hy.ne')
      rw [Nat.cast_ofNat] at hy'
      rw [two_pow_mul_ulp, show Int.log 2 |y| + 1 + (p - 1 : ℕ) - p = Int.log 2 |y| by omega]
      exact hy'.trans (abs_of_pos hy).le
    calc round p x ≤ ((2 ^ p : ℤ) : K) * ulp p x := round_le hlo
      _ ≤ ((2 ^ (p - 1) : ℤ) : K) * ulp p y := by
        rw [two_pow_mul_ulp, two_pow_mul_ulp]
        exact zpow_le_zpow_right₀ one_le_two (by omega)
      _ ≤ round p y := le_round hhi
  · have hulp : ulp p x = ulp p y := by rw [ulp, heq, ulp]
    rw [round, round, hulp]
    have hle := toInt_mono (div_le_div_of_nonneg_right h (ulp_pos p y).le)
    exact mul_le_mul_of_nonneg_right (Int.cast_le.mpr hle) (ulp_pos p y).le

end Significands

end Nearest

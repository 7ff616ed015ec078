import Mathlib.Algebra.Order.Ring.Nat
import Mathlib.Tactic.Positivity

/-!
# Lib.Word — unsigned machine arithmetic of a fixed width

A `w`-bit unsigned value is a natural number below `2 ^ w`; `add` and `sub` wrap around.  The
lemmas say when an operation agrees with the operation on `ℕ`, and what a wrapped difference is.
-/

namespace Word

variable {w : ℕ}

/-- Conversion to `w` bits: the value modulo `2 ^ w`. -/
def wrap (w n : ℕ) : ℕ := n % 2 ^ w

/-- Wrapping addition. -/
def add (w a b : ℕ) : ℕ := wrap w (a + b)

/-- Wrapping subtraction. -/
def sub (w a b : ℕ) : ℕ := wrap w (a + (2 ^ w - b))

/-- The two's complement reading of the low `w` bits. -/
def toSigned (w n : ℕ) : ℤ :=
  if 2 * wrap w n < 2 ^ w then (wrap w n : ℤ) else (wrap w n : ℤ) - 2 ^ w

/-- Conversion of a signed value to `w` unsigned bits. -/
def ofSigned (w : ℕ) (i : ℤ) : ℕ := (i % 2 ^ w).toNat

theorem wrap_of_lt {n : ℕ} (h : n < 2 ^ w) : wrap w n = n := Nat.mod_eq_of_lt h

theorem wrap_lt (n : ℕ) : wrap w n < 2 ^ w := Nat.mod_lt _ (by positivity)

theorem wrap_le (n : ℕ) : wrap w n ≤ n := Nat.mod_le _ _

theorem add_of_lt {a b : ℕ} (h : a + b < 2 ^ w) : add w a b = a + b := wrap_of_lt h

theorem sub_of_le {a b : ℕ} (hb : b ≤ a) (ha : a < 2 ^ w) : sub w a b = a - b := by
  unfold sub wrap
  have h : a + (2 ^ w - b) = (a - b) + 2 ^ w := by omega
  rw [h, Nat.add_mod_right, Nat.mod_eq_of_lt (by omega)]

/-- A difference that would be negative wraps to the top of the range. -/
theorem sub_of_lt {a b : ℕ} (hb : a < b) (h : b ≤ 2 ^ w) : sub w a b = a + 2 ^ w - b := by
  unfold sub
  rw [wrap_of_lt (by omega)]
  omega

theorem toSigned_of_lt {n : ℕ} (h : 2 * n < 2 ^ w) : toSigned w n = n := by
  unfold toSigned
  rw [wrap_of_lt (by omega), if_pos h]

theorem ofSigned_natCast {n : ℕ} (h : n < 2 ^ w) : ofSigned w (n : ℤ) = n := by
  unfold ofSigned
  have h2 : (n : ℤ) < 2 ^ w := by exact_mod_cast h
  rw [Int.emod_eq_of_lt (Int.natCast_nonneg n) h2, Int.toNat_natCast]

theorem ofSigned_lt (i : ℤ) : ofSigned w i < 2 ^ w := by
  have h : (0 : ℤ) < 2 ^ w := by positivity
  have hlt := Int.emod_lt_of_pos i h
  have hnn := Int.emod_nonneg i h.ne'
  have hcast : ((2 ^ w : ℕ) : ℤ) = 2 ^ w := by push_cast; rfl
  unfold ofSigned
  omega

/-- The two's complement reading converts back. -/
theorem ofSigned_toSigned {n : ℕ} (h : n < 2 ^ w) : ofSigned w (toSigned w n) = n := by
  have hcast : ((2 ^ w : ℕ) : ℤ) = 2 ^ w := by push_cast; rfl
  unfold toSigned
  rw [wrap_of_lt h]
  split
  · exact ofSigned_natCast h
  · unfold ofSigned
    rw [Int.sub_emod_right, Int.emod_eq_of_lt (Int.natCast_nonneg n) (by omega), Int.toNat_natCast]

/-- A value in the signed range is read back. -/
theorem toSigned_ofSigned {i : ℤ} (hlo : -2 ^ w ≤ 2 * i) (hhi : 2 * i < 2 ^ w) :
    toSigned w (ofSigned w i) = i := by
  have hcast : ((2 ^ w : ℕ) : ℤ) = 2 ^ w := by push_cast; rfl
  have hlt := ofSigned_lt (w := w) i
  have hpos : (0 : ℤ) < 2 ^ w := by positivity
  unfold toSigned
  rw [wrap_of_lt hlt]
  rcases lt_or_ge i 0 with hneg | hnn
  · -- a negative value is stored `2 ^ w` higher
    have hmod : i % 2 ^ w = i + 2 ^ w := by
      rw [← Int.add_emod_right, Int.emod_eq_of_lt (by omega) (by omega)]
    have hval : ofSigned w i = (i + 2 ^ w).toNat := by rw [ofSigned, hmod]
    rw [if_neg (by omega)]
    omega
  · have hval : ofSigned w i = i.toNat := by
      rw [ofSigned, Int.emod_eq_of_lt hnn (by omega)]
    rw [if_pos (by omega)]
    omega

end Word

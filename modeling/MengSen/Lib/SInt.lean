import Mathlib.Algebra.Order.Ring.Int
import Mathlib.Data.Int.Notation
import Mathlib.Tactic.Positivity

/-!
# Lib.SInt — signed expressions of a fixed width, undefined on overflow

The value of a signed `w`-bit expression in a language where overflow and division by zero are
undefined.  An expression that is defined has a value in the range, which is a field of the
structure, and an expression with an undefined part is undefined.  Division and remainder truncate
towards zero; a conversion from a wider type keeps the low bits.

`x.Is v`: the expression `x` is defined and has the value `v`.  Each operation has one rule, with the
range of its own result as side condition, so a proof that `x.Is v` shows that no intermediate value
leaves the range.
-/

/-- The range of the signed `w`-bit values. -/
def Fits (w : ℕ) (v : ℤ) : Prop := -2 ^ w ≤ 2 * v ∧ 2 * v < 2 ^ w

instance (w : ℕ) (v : ℤ) : Decidable (Fits w v) := inferInstanceAs (Decidable (_ ∧ _))

/-- The value of a signed `w`-bit expression, `none` when it is undefined. -/
@[ext] structure SInt (w : ℕ) where
  val? : Option ℤ
  fits : ∀ v ∈ val?, Fits w v

theorem fits_32 {v : ℤ} : Fits 32 v ↔ -2147483648 ≤ v ∧ v < 2147483648 := by
  unfold Fits
  omega

namespace SInt

variable {w : ℕ}

/-- An exact result, undefined outside the range. -/
def ofInt (w : ℕ) (v : ℤ) : SInt w :=
  if h : Fits w v then ⟨some v, fun _ hu => Option.some.inj hu ▸ h⟩
  else ⟨none, fun _ hu => nomatch hu⟩

/-- An undefined expression. -/
def undefined : SInt w := ⟨none, fun _ hu => nomatch hu⟩

/-- An operation on two expressions, undefined when one of them is. -/
def lift₂ (f : ℤ → ℤ → SInt w) (x y : SInt w) : SInt w :=
  match x.val?, y.val? with
  | some a, some b => f a b
  | _, _ => undefined

instance (n : ℕ) : OfNat (SInt w) n := ⟨ofInt w n⟩

instance : Add (SInt w) := ⟨lift₂ fun a b => ofInt w (a + b)⟩

instance : Sub (SInt w) := ⟨lift₂ fun a b => ofInt w (a - b)⟩

instance : Mul (SInt w) := ⟨lift₂ fun a b => ofInt w (a * b)⟩

/-- The truncated quotient. -/
instance : Div (SInt w) := ⟨lift₂ fun a b => if b = 0 then undefined else ofInt w (a.tdiv b)⟩

/-- The truncated remainder, undefined when the quotient is. -/
instance : Mod (SInt w) :=
  ⟨lift₂ fun a b => if b ≠ 0 ∧ Fits w (a.tdiv b) then ofInt w (a.tmod b) else undefined⟩

/-- Conversion to a width, keeping the low bits. -/
def cast {v : ℕ} (w : ℕ) (x : SInt v) : SInt w :=
  match x.val? with
  | some a => ofInt w ((a + 2 ^ (w - 1)) % 2 ^ w - 2 ^ (w - 1))
  | none => undefined

/-! ## Values -/

/-- The expression is defined and has the value `v`. -/
def Is (x : SInt w) (v : ℤ) : Prop := x.val? = some v

variable {x y : SInt w} {a b : ℤ}

theorem Is.unique (h : x.Is a) (h' : x.Is b) : a = b := Option.some.inj (h.symm.trans h')

theorem is_ofInt (h : Fits w a) : (ofInt w a).Is a := by
  unfold Is ofInt
  rw [dif_pos h]

/-- A literal that fits. -/
theorem is_ofNat {n : ℕ} (h : Fits w n) : (OfNat.ofNat n : SInt w).Is (OfNat.ofNat n : ℤ) :=
  is_ofInt h

theorem Is.lift₂ {f : ℤ → ℤ → SInt w} {c : ℤ} (hx : x.Is a) (hy : y.Is b) (h : (f a b).Is c) :
    (SInt.lift₂ f x y).Is c := by
  unfold Is at hx hy
  unfold SInt.lift₂
  rw [hx, hy]
  exact h

theorem Is.add (hx : x.Is a) (hy : y.Is b) (h : Fits w (a + b)) : (x + y).Is (a + b) :=
  hx.lift₂ hy (is_ofInt h)

theorem Is.sub (hx : x.Is a) (hy : y.Is b) (h : Fits w (a - b)) : (x - y).Is (a - b) :=
  hx.lift₂ hy (is_ofInt h)

theorem Is.mul (hx : x.Is a) (hy : y.Is b) (h : Fits w (a * b)) : (x * y).Is (a * b) :=
  hx.lift₂ hy (is_ofInt h)

/-! ## Division by a positive divisor -/

theorem tdiv_fits (ha : Fits w a) (hb : 0 < b) : Fits w (a.tdiv b) := by
  have habs := Int.natAbs_tdiv_le_natAbs a b
  unfold Fits at ha ⊢
  rcases le_total 0 a with hpos | hneg
  · have hnn := Int.tdiv_nonneg hpos hb.le
    omega
  · have hnp : 0 ≤ (-a).tdiv b := Int.tdiv_nonneg (neg_nonneg.mpr hneg) hb.le
    rw [Int.neg_tdiv] at hnp
    omega

theorem tmod_fits (ha : Fits w a) (b : ℤ) : Fits w (a.tmod b) := by
  have habs : (a.tmod b).natAbs ≤ a.natAbs := by
    rw [Int.natAbs_tmod]
    exact Nat.mod_le _ _
  unfold Fits at ha ⊢
  rcases le_total 0 a with hpos | hneg
  · have hnn := Int.tmod_nonneg b hpos
    omega
  · have hnn := Int.tmod_nonneg b (neg_nonneg.mpr hneg)
    rw [Int.neg_tmod] at hnn
    omega

theorem Is.tdiv (hx : x.Is a) (hy : y.Is b) (hb : 0 < b) : (x / y).Is (a.tdiv b) := by
  refine hx.lift₂ hy ?_
  rw [if_neg hb.ne']
  exact is_ofInt (tdiv_fits (x.fits a hx) hb)

theorem Is.tmod (hx : x.Is a) (hy : y.Is b) (hb : 0 < b) : (x % y).Is (a.tmod b) := by
  refine hx.lift₂ hy ?_
  rw [if_pos ⟨hb.ne', tdiv_fits (x.fits a hx) hb⟩]
  exact is_ofInt (tmod_fits (x.fits a hx) b)

/-- On a value that is not negative the quotient is the floor. -/
theorem Is.div (hx : x.Is a) (hy : y.Is b) (ha : 0 ≤ a) (hb : 0 < b) : (x / y).Is (a / b) := by
  rw [← Int.tdiv_eq_ediv_of_nonneg ha]
  exact hx.tdiv hy hb

theorem Is.mod (hx : x.Is a) (hy : y.Is b) (ha : 0 ≤ a) (hb : 0 < b) : (x % y).Is (a % b) := by
  rw [← Int.tmod_eq_emod_of_nonneg ha]
  exact hx.tmod hy hb

/-- A conversion keeps a value that fits. -/
theorem Is.cast {v : ℕ} {x : SInt v} (hx : x.Is a) (hw : 0 < w) (h : Fits w a) :
    (x.cast w).Is a := by
  have hpow : (2 : ℤ) ^ w = 2 * 2 ^ (w - 1) := by
    rw [← pow_succ', Nat.sub_add_cancel hw]
  have hval : (a + 2 ^ (w - 1)) % 2 ^ w - 2 ^ (w - 1) = a := by
    unfold Fits at h
    rw [Int.emod_eq_of_lt (by omega) (by omega)]
    omega
  unfold Is at hx
  unfold SInt.cast
  simp only [hx, hval]
  exact is_ofInt h

/-! ## From the truncated quotient to the floor -/

/-- A remainder that is negative is corrected by one divisor. -/
theorem floor_of_tmod_neg (hb : 0 < b) (h : a.tmod b < 0) :
    a.tdiv b - 1 = a / b ∧ a.tmod b + b = a % b := by
  have hdiv := Int.tmod_add_mul_tdiv a b
  have hlt := Int.lt_tmod_of_pos a hb
  have hsum : a.tmod b + b + b * (a.tdiv b - 1) = a := by
    rw [mul_sub, mul_one]
    omega
  obtain ⟨hq, hr⟩ := (Int.ediv_emod_unique hb).mpr ⟨hsum, by omega, by omega⟩
  exact ⟨hq.symm, hr.symm⟩

/-- A remainder that is not negative is that of the floor. -/
theorem floor_of_tmod_nonneg (hb : 0 < b) (h : 0 ≤ a.tmod b) :
    a.tdiv b = a / b ∧ a.tmod b = a % b := by
  have hdiv := Int.tmod_add_mul_tdiv a b
  obtain ⟨hq, hr⟩ := (Int.ediv_emod_unique hb).mpr
    ⟨hdiv, h, Int.tmod_lt_of_pos a hb⟩
  exact ⟨hq.symm, hr.symm⟩

end SInt

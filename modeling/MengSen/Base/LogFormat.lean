import MengSen.Base.LogConvert
import MengSen.Lib.Nearest
import Mathlib.Data.Rat.Floor

/-!
# Base.LogFormat — human-readable sizes

`formatSI` and `formatIEC` of `base/LogStream.cpp`.  A `double` is the rational number it stands for:
a conversion and an operation round to 53 binary digits, and `"%.*f"` rounds once more, to the nearest
decimal.

Both roundings are monotone, so that the text of a branch is longest for its last number
(`length_entry_mono`).
-/

namespace MengSen.LogFormat

open detail Numeral

/-! ## The code -/

/-- The `double` that is nearest to a number. -/
def double (q : ℚ) : ℚ := Nearest.round 53 q

/-- The quotient and the product of two doubles. -/
def div (a b : ℚ) : ℚ := double (a / b)

def mul (a b : ℚ) : ℚ := double (a * b)

/-- `"%.*f"`, with `k` digits behind the point. -/
def fixed (k : ℕ) (q : ℚ) : List UInt8 :=
  let m := (Nearest.toInt (|q| * 10 ^ k)).toNat
  (if q < 0 then literal "-" else []) ++ decimal (m / 10 ^ k : ℕ) ++
    if k = 0 then [] else literal "." ++ (padded 10 k (m % 10 ^ k)).map decimalDigit

/-- What `snprintf(buf, sizeof(buf), ...)` leaves in the 64 characters of `buf`. -/
def buf (text : List UInt8) : List UInt8 := text.take 63

/-- Format a number with 5 characters, including SI units.  The powers of ten are doubles. -/
def formatSI (s : ℤ) : List UInt8 :=
  let n := double s
  if s < 1000 then buf (decimal s)
  else if s < 9995 then buf (fixed 2 (div n 1e3) ++ literal "k")
  else if s < 99950 then buf (fixed 1 (div n 1e3) ++ literal "k")
  else if s < 999500 then buf (fixed 0 (div n 1e3) ++ literal "k")
  else if s < 9995000 then buf (fixed 2 (div n 1e6) ++ literal "M")
  else if s < 99950000 then buf (fixed 1 (div n 1e6) ++ literal "M")
  else if s < 999500000 then buf (fixed 0 (div n 1e6) ++ literal "M")
  else if s < 9995000000 then buf (fixed 2 (div n 1e9) ++ literal "G")
  else if s < 99950000000 then buf (fixed 1 (div n 1e9) ++ literal "G")
  else if s < 999500000000 then buf (fixed 0 (div n 1e9) ++ literal "G")
  else if s < 9995000000000 then buf (fixed 2 (div n 1e12) ++ literal "T")
  else if s < 99950000000000 then buf (fixed 1 (div n 1e12) ++ literal "T")
  else if s < 999500000000000 then buf (fixed 0 (div n 1e12) ++ literal "T")
  else if s < 9995000000000000 then buf (fixed 2 (div n 1e15) ++ literal "P")
  else if s < 99950000000000000 then buf (fixed 1 (div n 1e15) ++ literal "P")
  else if s < 999500000000000000 then buf (fixed 0 (div n 1e15) ++ literal "P")
  else buf (fixed 2 (div n 1e18) ++ literal "E")

def Ki : ℚ := 1024
def Mi : ℚ := mul Ki 1024
def Gi : ℚ := mul Mi 1024
def Ti : ℚ := mul Gi 1024
def Pi : ℚ := mul Ti 1024
def Ei : ℚ := mul Pi 1024

def formatIEC (s : ℤ) : List UInt8 :=
  let n := double s
  if n < Ki then buf (decimal s)
  else if n < mul Ki (double 9.995) then buf (fixed 2 (div n Ki) ++ literal "Ki")
  else if n < mul Ki (double 99.95) then buf (fixed 1 (div n Ki) ++ literal "Ki")
  else if n < mul Ki (double 1023.5) then buf (fixed 0 (div n Ki) ++ literal "Ki")
  else if n < mul Mi (double 9.995) then buf (fixed 2 (div n Mi) ++ literal "Mi")
  else if n < mul Mi (double 99.95) then buf (fixed 1 (div n Mi) ++ literal "Mi")
  else if n < mul Mi (double 1023.5) then buf (fixed 0 (div n Mi) ++ literal "Mi")
  else if n < mul Gi (double 9.995) then buf (fixed 2 (div n Gi) ++ literal "Gi")
  else if n < mul Gi (double 99.95) then buf (fixed 1 (div n Gi) ++ literal "Gi")
  else if n < mul Gi (double 1023.5) then buf (fixed 0 (div n Gi) ++ literal "Gi")
  else if n < mul Ti (double 9.995) then buf (fixed 2 (div n Ti) ++ literal "Ti")
  else if n < mul Ti (double 99.95) then buf (fixed 1 (div n Ti) ++ literal "Ti")
  else if n < mul Ti (double 1023.5) then buf (fixed 0 (div n Ti) ++ literal "Ti")
  else if n < mul Pi (double 9.995) then buf (fixed 2 (div n Pi) ++ literal "Pi")
  else if n < mul Pi (double 99.95) then buf (fixed 1 (div n Pi) ++ literal "Pi")
  else if n < mul Pi (double 1023.5) then buf (fixed 0 (div n Pi) ++ literal "Pi")
  else if n < mul Ei (double 9.995) then buf (fixed 2 (div n Ei) ++ literal "Ei")
  else buf (fixed 1 (div n Ei) ++ literal "Ei")

/-! ## The length of a branch -/

section Entry

variable {s t : ℤ} {q r d : ℚ} {k m : ℕ}

theorem double_mono (hq : 0 ≤ q) (h : q ≤ r) : double q ≤ double r :=
  Nearest.round_mono (by decide) hq h

theorem double_intCast_mono (hs : 0 ≤ s) (h : s ≤ t) : double s ≤ double t :=
  double_mono (Int.cast_nonneg hs) (Int.cast_le.mpr h)

theorem length_decimal_mono (hs : 0 ≤ s) (h : s ≤ t) : (decimal s).length ≤ (decimal t).length := by
  rw [decimal, decimal, if_neg (not_lt.mpr hs), if_neg (not_lt.mpr (hs.trans h)), List.nil_append,
    List.nil_append, List.length_map, List.length_map]
  exact length_numeral_mono (by omega)

/-- The digits before the point are as many as those of the integral part. -/
theorem length_fixed (hq : 0 ≤ q) (k : ℕ) :
    (fixed k q).length =
      (decimal ((Nearest.toInt (q * 10 ^ k)).toNat / 10 ^ k : ℕ)).length + if k = 0 then 0 else 1 + k := by
  have hfrac : (padded 10 k ((Nearest.toInt (q * 10 ^ k)).toNat % 10 ^ k)).length = k :=
    length_padded (by decide) (Nat.mod_lt _ (Nat.pow_pos (by decide)))
  rw [fixed, abs_of_nonneg hq, if_neg (not_lt.mpr hq), List.nil_append, List.length_append]
  split
  · rfl
  · rw [List.length_append, List.length_map, hfrac]
    rfl

theorem length_fixed_mono (hq : 0 ≤ q) (h : q ≤ r) (k : ℕ) : (fixed k q).length ≤ (fixed k r).length := by
  have hpow : (0 : ℚ) ≤ 10 ^ k := by positivity
  have hint : Nearest.toInt (q * 10 ^ k) ≤ Nearest.toInt (r * 10 ^ k) :=
    Nearest.toInt_mono (mul_le_mul_of_nonneg_right h hpow)
  rw [length_fixed hq, length_fixed (hq.trans h)]
  refine Nat.add_le_add_right (length_decimal_mono (Int.natCast_nonneg _) (Int.ofNat_le.mpr ?_)) _
  exact Nat.div_le_div_right (Int.toNat_le_toNat hint)

/-- **The text of a branch is longest for its last number.** -/
theorem length_entry_mono (hs : 0 ≤ s) (h : s ≤ t) (hd : 0 ≤ d) (k : ℕ) (unit : List UInt8) :
    (buf (fixed k (div (double s) d) ++ unit)).length ≤
      (buf (fixed k (div (double t) d) ++ unit)).length := by
  have hn : 0 ≤ double s := Nearest.round_nonneg (Int.cast_nonneg hs)
  have hquot : 0 ≤ double s / d := div_nonneg hn hd
  have hdiv : div (double s) d ≤ div (double t) d :=
    double_mono hquot (div_le_div_of_nonneg_right (double_intCast_mono hs h) hd)
  have hlen : (fixed k (div (double s) d)).length ≤ (fixed k (div (double t) d)).length :=
    length_fixed_mono (Nearest.round_nonneg hquot) hdiv k
  rw [buf, buf, List.length_take, List.length_take, List.length_append, List.length_append]
  omega

/-- A branch that ends with the number `t`. -/
theorem entry_le {unit : List UInt8} (hs : 0 ≤ s) (t : ℤ) (h : s ≤ t) (hd : 0 ≤ d)
    (ht : (buf (fixed k (div (double t) d) ++ unit)).length ≤ m) :
    (buf (fixed k (div (double s) d) ++ unit)).length ≤ m :=
  (length_entry_mono hs h hd k unit).trans ht

theorem decimal_le (hs : 0 ≤ s) (t : ℤ) (h : s ≤ t) (ht : (decimal t).length ≤ m) :
    (buf (decimal s)).length ≤ m := by
  rw [buf, List.length_take]
  exact (min_le_right _ _).trans ((length_decimal_mono hs h).trans ht)

/-- A branch and the branches behind it. -/
theorem length_ite_le {c : Prop} [Decidable c] {a b : List UInt8} {m : ℕ} (ha : c → a.length ≤ m)
    (hb : ¬ c → b.length ≤ m) : (if c then a else b).length ≤ m := by
  by_cases h : c
  · rw [if_pos h]
    exact ha h
  · rw [if_neg h]
    exact hb h

/-- A comparison of doubles that the number `t` is the last to pass. -/
theorem le_of_double_lt (h : double s < r) (t : ℕ) (ht : r ≤ double ((t + 1 : ℕ) : ℤ)) : s ≤ t := by
  by_contra hlt
  have hle : ((t + 1 : ℕ) : ℤ) ≤ s := by omega
  exact absurd h (not_lt.mpr (ht.trans (double_intCast_mono (Int.natCast_nonneg _) hle)))

variable {c : Prop} [Decidable c] {unit rest : List UInt8}

/-- A branch that the number `t` is the last to take. -/
theorem branch_le (hs : 0 ≤ s) (t : ℤ) (hc : c → s ≤ t) (hd : 0 ≤ d)
    (ht : (buf (fixed k (div (double t) d) ++ unit)).length ≤ m) (hrest : ¬ c → rest.length ≤ m) :
    (if c then buf (fixed k (div (double s) d) ++ unit) else rest).length ≤ m :=
  length_ite_le (fun h => entry_le hs t (hc h) hd ht) hrest

/-- A branch that compares doubles. -/
theorem double_branch_le (hs : 0 ≤ s) (t : ℕ)
    (ht : r ≤ double ((t + 1 : ℕ) : ℤ) ∧ 0 ≤ d ∧
      (buf (fixed k (div (double (t : ℤ)) d) ++ unit)).length ≤ m)
    (hrest : ¬ double s < r → rest.length ≤ m) :
    (if double s < r then buf (fixed k (div (double s) d) ++ unit) else rest).length ≤ m :=
  branch_le hs t (fun h => le_of_double_lt h t ht.1) ht.2.1 ht.2.2 hrest

end Entry

/-! ## The two functions -/

section Width

variable {s : ℤ}

/-- **Elsewhere, the last number of each branch has at most five characters.** -/
theorem length_formatSI_le (h0 : 0 ≤ s) (h63 : s < 2 ^ 63)
    (hs : ¬ (99949999999999992 ≤ s ∧ s < 99950000000000000)) : (formatSI s).length ≤ 5 := by
  rw [formatSI]
  refine length_ite_le (fun h => decimal_le h0 999 (by omega) (by decide +kernel)) fun _ => ?_
  refine branch_le h0 9994 (by omega) (by norm_num) (by decide +kernel) fun _ => ?_
  refine branch_le h0 99949 (by omega) (by norm_num) (by decide +kernel) fun _ => ?_
  refine branch_le h0 999499 (by omega) (by norm_num) (by decide +kernel) fun _ => ?_
  refine branch_le h0 9994999 (by omega) (by norm_num) (by decide +kernel) fun _ => ?_
  refine branch_le h0 99949999 (by omega) (by norm_num) (by decide +kernel) fun _ => ?_
  refine branch_le h0 999499999 (by omega) (by norm_num) (by decide +kernel) fun _ => ?_
  refine branch_le h0 9994999999 (by omega) (by norm_num) (by decide +kernel) fun _ => ?_
  refine branch_le h0 99949999999 (by omega) (by norm_num) (by decide +kernel) fun _ => ?_
  refine branch_le h0 999499999999 (by omega) (by norm_num) (by decide +kernel) fun _ => ?_
  refine branch_le h0 9994999999999 (by omega) (by norm_num) (by decide +kernel) fun _ => ?_
  refine branch_le h0 99949999999999 (by omega) (by norm_num) (by decide +kernel) fun _ => ?_
  refine branch_le h0 999499999999999 (by omega) (by norm_num) (by decide +kernel) fun _ => ?_
  refine branch_le h0 9994999999999999 (by omega) (by norm_num) (by decide +kernel) fun _ => ?_
  refine branch_le h0 99949999999999991 (by omega) (by norm_num) (by decide +kernel) fun _ => ?_
  refine branch_le h0 999499999999999999 (by omega) (by norm_num) (by decide +kernel) fun _ => ?_
  exact entry_le h0 9223372036854775807 (by omega) (by norm_num) (by decide +kernel)

/-- These numbers are converted to the first one of the next branch. -/
theorem length_formatSI_wide (h : 99949999999999992 ≤ s) (h' : s < 99950000000000000) :
    5 < (formatSI s).length := by
  have hsix : 5 < (buf (fixed 1 (div (double (99949999999999992 : ℤ)) 1e15) ++ literal "P")).length := by
    decide +kernel
  have hlen := length_entry_mono (d := 1e15) (show (0 : ℤ) ≤ 99949999999999992 by decide) h
    (by norm_num) 1 (literal "P")
  have hbranch : formatSI s = buf (fixed 1 (div (double s) 1e15) ++ literal "P") := by
    rw [formatSI]
    repeat rw [if_neg (by omega)]
    rw [if_pos h']
  rw [hbranch]
  exact hsix.trans_le hlen

theorem length_formatIEC_le (h0 : 0 ≤ s) (h63 : s < 2 ^ 63) : (formatIEC s).length ≤ 6 := by
  rw [formatIEC]
  refine length_ite_le (fun h => decimal_le h0 1023 (le_of_double_lt h 1023 (by decide +kernel))
    (by decide +kernel)) fun _ => ?_
  refine double_branch_le h0 10234 (by decide +kernel) fun _ => ?_
  refine double_branch_le h0 102348 (by decide +kernel) fun _ => ?_
  refine double_branch_le h0 1048063 (by decide +kernel) fun _ => ?_
  refine double_branch_le h0 10480517 (by decide +kernel) fun _ => ?_
  refine double_branch_le h0 104805171 (by decide +kernel) fun _ => ?_
  refine double_branch_le h0 1073217535 (by decide +kernel) fun _ => ?_
  refine double_branch_le h0 10732049530 (by decide +kernel) fun _ => ?_
  refine double_branch_le h0 107320495308 (by decide +kernel) fun _ => ?_
  refine double_branch_le h0 1098974756863 (by decide +kernel) fun _ => ?_
  refine double_branch_le h0 10989618719621 (by decide +kernel) fun _ => ?_
  refine double_branch_le h0 109896187196211 (by decide +kernel) fun _ => ?_
  refine double_branch_le h0 1125350151028735 (by decide +kernel) fun _ => ?_
  refine double_branch_le h0 11253369568892025 (by decide +kernel) fun _ => ?_
  refine double_branch_le h0 112533695688920264 (by decide +kernel) fun _ => ?_
  refine double_branch_le h0 1152358554653425599 (by decide +kernel) fun _ => ?_
  refine branch_le h0 9223372036854775807 (fun _ => by omega) (by decide +kernel) (by decide +kernel)
    fun _ => ?_
  exact entry_le h0 9223372036854775807 (by omega) (by decide +kernel) (by decide +kernel)

/-- **Sizes keep their width, except for eight numbers** that `double` rounds up to the first number
of the next branch. -/
theorem sizes_keep_width_iff {s : ℤ} (h0 : 0 ≤ s) (h63 : s < 2 ^ 63) :
    ((formatSI s).length ≤ 5 ∧ (formatIEC s).length ≤ 6) ↔
      ¬ (99949999999999992 ≤ s ∧ s < 99950000000000000) := by
  refine ⟨fun ⟨hlen, _⟩ hs => ?_, fun hs => ⟨length_formatSI_le h0 h63 hs, length_formatIEC_le h0 h63⟩⟩
  exact absurd hlen (not_le.mpr (length_formatSI_wide hs.1 hs.2))

theorem sizes_keep_width_largest :
    (formatSI 9223372036854775807).length ≤ 5 ∧ (formatIEC 9223372036854775807).length ≤ 6 :=
  (sizes_keep_width_iff (by decide) (by decide)).mpr (by decide)

theorem formatSI_six_characters :
    formatSI 99949999999999999 = literal "100.0P" ∧ ¬ (formatSI 99949999999999999).length ≤ 5 := by
  decide +kernel

/-- Two branches, and the numbers at which the second begins. -/
example : formatSI 9994 = literal "9.99k" ∧ formatSI 9995 = literal "10.0k" ∧
    formatIEC 10234 = literal "9.99Ki" ∧ formatIEC 10235 = literal "10.0Ki" := by decide +kernel

end Width

end MengSen.LogFormat

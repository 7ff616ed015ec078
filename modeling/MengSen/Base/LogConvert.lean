import MengSen.Lib.Mem
import MengSen.Lib.Numeral
import Mathlib.Data.Int.ConditionallyCompleteOrder
import Mathlib.Tactic.IntervalCases

/-!
# Base.LogConvert — integers as text

`detail::convert` and `detail::convertHex` of `base/LogStream.cpp`.  The digits are stored the least
significant first and reversed in place.  A C++ remainder has the sign of the dividend, so the decimal
table is mirrored around `zero`.  A store outside the block and an index outside the table fail.
-/

namespace MengSen.detail

/-! ## The code -/

/-- The characters of a string literal. -/
def literal (s : String) : List UInt8 := s.toList.map Char.toUInt8

/-- `digits`, with its NUL. -/
def digits : List UInt8 := literal "9876543210123456789" ++ [0]

/-- `zero[lsd]`, where `zero` is `digits + 9`. -/
def zero (lsd : ℤ) : Option UInt8 := if 0 ≤ 9 + lsd then digits[(9 + lsd).toNat]? else none

/-- `digitsHex`, with its NUL. -/
def digitsHex : List UInt8 := literal "0123456789ABCDEF" ++ [0]

/-- A base with its table of digits. -/
structure Radix where
  base : ℕ
  one_lt : 1 < base
  digit : ℤ → Option UInt8

def Radix.decimal : Radix := ⟨10, by decide, zero⟩

def Radix.hex : Radix :=
  ⟨16, by decide, fun lsd => if 0 ≤ lsd then digitsHex[lsd.toNat]? else none⟩

/-- The `do` loop, which returns `p`. -/
def convertLoop (R : Radix) (mem : List UInt8) (p : ℕ) (i : ℤ) : Option (List UInt8 × ℕ) := do
  let lsd := i.tmod R.base
  let c ← R.digit lsd
  let mem ← Mem.store? mem p [c]
  if _h : i.tdiv R.base ≠ 0 then convertLoop R mem (p + 1) (i.tdiv R.base)
  else return (mem, p + 1)
termination_by i.natAbs
decreasing_by
  have hne : i.natAbs ≠ 0 := by
    intro hz
    rw [Int.natAbs_eq_zero.mp hz, Int.zero_tdiv] at _h
    exact _h rfl
  rw [Int.natAbs_tdiv, Int.natAbs_natCast]
  exact Nat.div_lt_self (Nat.pos_of_ne_zero hne) R.one_lt

/-- `std::reverse` of the cells from `first` up to `last`. -/
def reverse (mem : List UInt8) (first last : ℕ) : Option (List UInt8) := do
  let d ← Mem.read? mem first (last - first)
  Mem.store? mem first d.reverse

/-- `*p++ = '-'` for a negative value. -/
def storeSign (mem : List UInt8) (p : ℕ) (value : ℤ) : Option (List UInt8 × ℕ) :=
  if value < 0 then (Mem.store? mem p [45]).map fun mem => (mem, p + 1) else some (mem, p)

/-- `convert`, with the block after it. -/
def convert (mem : List UInt8) (buf : ℕ) (value : ℤ) : Option (List UInt8 × ℕ) := do
  let (mem, p) ← convertLoop .decimal mem buf value
  let (mem, p) ← storeSign mem p value
  let mem ← Mem.store? mem p [0]
  let mem ← reverse mem buf p
  return (mem, p - buf)

/-- `convertHex`, with the block after it. -/
def convertHex (mem : List UInt8) (buf : ℕ) (value : ℕ) : Option (List UInt8 × ℕ) := do
  let (mem, p) ← convertLoop .hex mem buf value
  let mem ← Mem.store? mem p [0]
  let mem ← reverse mem buf p
  return (mem, p - buf)

/-! ## The texts -/

open Numeral (numeral)

def decimalDigit (d : ℕ) : UInt8 := .ofNat (48 + d)

def hexDigit (d : ℕ) : UInt8 := .ofNat (if d < 10 then 48 + d else 55 + d)

/-- The decimal numeral of `v`. -/
def decimal (v : ℤ) : List UInt8 :=
  (if v < 0 then [45] else []) ++ (numeral 10 v.natAbs).map decimalDigit

/-- The hexadecimal numeral of `n`. -/
def hex (n : ℕ) : List UInt8 := (numeral 16 n).map hexDigit

theorem zero_eq {d : ℕ} (h : d < 10) :
    zero d = some (decimalDigit d) ∧ zero (-d) = some (decimalDigit d) := by
  interval_cases d <;> decide

theorem hex_digit_eq {d : ℕ} (h : d < 16) : Radix.hex.digit d = some (hexDigit d) := by
  interval_cases d <;> decide

/-! ## The loop -/

section Loop

variable {R : Radix} {ascii : ℕ → UInt8}

/-- The digits that the loop stores, the least significant first. -/
def stored (R : Radix) (ascii : ℕ → UInt8) (i : ℤ) : List UInt8 :=
  ((numeral R.base i.natAbs).map ascii).reverse

/-- The digits of the table for the sign of `i`. -/
def Digits (R : Radix) (ascii : ℕ → UInt8) (i : ℤ) : Prop :=
  (0 ≤ i → ∀ d < R.base, R.digit d = some (ascii d)) ∧
    (i < 0 → ∀ d < R.base, R.digit (-d) = some (ascii d))

/-- The remainder of a C++ division indexes the table by the last digit. -/
theorem Digits.tmod {i : ℤ} (h : Digits R ascii i) :
    R.digit (i.tmod R.base) = some (ascii (i.natAbs % R.base)) := by
  have hbase := R.one_lt
  have hlt : i.natAbs % R.base < R.base := Nat.mod_lt _ (by omega)
  rcases le_or_gt 0 i with hi | hi
  · obtain ⟨n, rfl⟩ := Int.eq_ofNat_of_zero_le hi
    exact h.1 hi _ hlt
  · obtain ⟨n, rfl⟩ : ∃ n : ℕ, i = -n := ⟨i.natAbs, by omega⟩
    rw [Int.neg_tmod]
    rw [Int.natAbs_neg, Int.natAbs_natCast] at hlt ⊢
    exact h.2 hi _ hlt

theorem tdiv_sign {i : ℤ} (h : i.tdiv R.base ≠ 0) :
    (0 ≤ i.tdiv R.base → 0 ≤ i) ∧ (i.tdiv R.base < 0 → i < 0) := by
  refine ⟨fun hq => ?_, fun hq => ?_⟩
  · by_contra hi
    have hneg : 0 ≤ (-i).tdiv R.base := Int.tdiv_nonneg (by omega) (Int.natCast_nonneg _)
    rw [Int.neg_tdiv] at hneg
    omega
  · by_contra hi
    have hnn : 0 ≤ i.tdiv R.base := Int.tdiv_nonneg (by omega) (Int.natCast_nonneg _)
    omega

theorem Digits.tdiv {i : ℤ} (h : Digits R ascii i) (hne : i.tdiv R.base ≠ 0) :
    Digits R ascii (i.tdiv R.base) :=
  ⟨fun hq => h.1 ((tdiv_sign hne).1 hq), fun hq => h.2 ((tdiv_sign hne).2 hq)⟩

theorem natAbs_tdiv (i : ℤ) : (i.tdiv R.base).natAbs = i.natAbs / R.base := by
  rw [Int.natAbs_tdiv, Int.natAbs_natCast]
  rfl

/-- A round of the loop. -/
theorem stored_tdiv {i : ℤ} (h : i.tdiv R.base ≠ 0) :
    stored R ascii i = ascii (i.natAbs % R.base) :: stored R ascii (i.tdiv R.base) := by
  have hle : R.base ≤ i.natAbs := by
    by_contra hlt
    refine h (Int.natAbs_eq_zero.mp ?_)
    rw [natAbs_tdiv, Nat.div_eq_of_lt (not_le.mp hlt)]
  rw [stored, Numeral.numeral_of_le R.one_lt hle, List.map_append, List.reverse_append, stored,
    natAbs_tdiv]
  rfl

theorem stored_last {i : ℤ} (h : i.tdiv R.base = 0) :
    stored R ascii i = [ascii (i.natAbs % R.base)] := by
  have hlt : i.natAbs < R.base := by
    have hbase := R.one_lt
    have hzero : i.natAbs / R.base = 0 := by rw [← natAbs_tdiv, h]; rfl
    rcases (Nat.div_eq_zero_iff).mp hzero with hb | hlt
    · omega
    · exact hlt
  rw [stored, Numeral.numeral_of_lt hlt, Nat.mod_eq_of_lt hlt]
  rfl

/-- **The loop** stores the digits, whatever the sign, and stays inside the table and the block. -/
theorem convertLoop_eq {i : ℤ} {mem : List UInt8} {p : ℕ} (h : Digits R ascii i)
    (hfit : p + (stored R ascii i).length ≤ mem.length) :
    convertLoop R mem p i =
      some (Mem.store mem p (stored R ascii i), p + (stored R ascii i).length) := by
  induction hn : i.natAbs using Nat.strong_induction_on generalizing i mem p with
  | _ n ih =>
    rw [convertLoop, h.tmod]
    by_cases hq : i.tdiv R.base = 0
    · rw [stored_last hq] at hfit ⊢
      simp only [Option.bind_eq_bind, Option.bind_some, Mem.store?_of_le hfit, hq, ne_eq,
        not_true_eq_false, dite_false]
      rfl
    · rw [stored_tdiv hq, List.length_cons] at hfit ⊢
      have hone : p + [ascii (i.natAbs % R.base)].length ≤ mem.length := by
        rw [List.length_singleton]
        omega
      have hlt : (i.tdiv R.base).natAbs < n := by
        have hbase := R.one_lt
        have hpos : i.natAbs ≠ 0 := fun hz => hq (by rw [Int.natAbs_eq_zero.mp hz, Int.zero_tdiv])
        rw [natAbs_tdiv, ← hn]
        exact Nat.div_lt_self (Nat.pos_of_ne_zero hpos) hbase
      simp only [Option.bind_eq_bind, Option.bind_some, Mem.store?_of_le hone, ne_eq, hq,
        not_false_eq_true, dite_true]
      rw [ih _ hlt (h.tdiv hq) (by rw [Mem.length_store hone]; omega) rfl,
        show p + 1 = p + [ascii (i.natAbs % R.base)].length from rfl, Mem.store_store_append hone,
        List.singleton_append, List.length_singleton, Nat.add_assoc, Nat.add_comm 1]

end Loop

/-! ## The functions -/

section Functions

variable {mem : List UInt8} {buf : ℕ}

/-- The front of what was stored is reversed in place. -/
theorem reverse_store {d l : List UInt8} (h : buf + (d ++ l).length ≤ mem.length) :
    reverse (Mem.store mem buf (d ++ l)) buf (buf + d.length) =
      some (Mem.store mem buf (d.reverse ++ l)) := by
  have hlen := Mem.length_store h
  have hread := Mem.slice_store_front h
  rw [List.length_append] at h
  rw [reverse, Nat.add_sub_cancel_left, Mem.read?_of_le (by omega), hread]
  show Mem.store? _ _ _ = _
  rw [Mem.store?_of_le (by rw [List.length_reverse]; omega),
    Mem.store_store_front (by rwa [List.length_append]) List.length_reverse]

theorem digits_decimal (v : ℤ) : Digits .decimal decimalDigit v :=
  ⟨fun _ _ hd => (zero_eq hd).1, fun _ _ hd => (zero_eq hd).2⟩

theorem digits_hex (n : ℕ) : Digits .hex hexDigit n :=
  ⟨fun _ _ hd => hex_digit_eq hd, fun hn => absurd hn (not_lt.mpr (Int.natCast_nonneg n))⟩

/-- The NUL and the reversal. -/
theorem store_nul_reverse {d : List UInt8} (h : buf + d.length + 1 ≤ mem.length) :
    (do
      let mem ← Mem.store? (Mem.store mem buf d) (buf + d.length) [0]
      let mem ← reverse mem buf (buf + d.length)
      return (mem, buf + d.length - buf)) =
      some (Mem.store mem buf (d.reverse ++ [0]), d.length) := by
  have hd : buf + d.length ≤ mem.length := by omega
  have hlen := Mem.length_store hd
  rw [Option.bind_eq_bind, Mem.store?_bind (by rw [List.length_singleton, hlen]; omega),
    Mem.store_store_append hd,
    reverse_store (by rw [List.length_append, List.length_singleton]; omega), Nat.add_sub_cancel_left]
  rfl

/-- **`convertHex`** writes the hexadecimal numeral and a NUL behind it. -/
theorem convertHex_eq {n : ℕ} (h : buf + (hex n).length + 1 ≤ mem.length) :
    convertHex mem buf n = some (Mem.store mem buf (hex n ++ [0]), (hex n).length) := by
  have hstored : stored .hex hexDigit n = (hex n).reverse := by
    rw [stored, Int.natAbs_natCast]
    rfl
  have hlen : (stored .hex hexDigit n).length = (hex n).length := by
    rw [hstored, List.length_reverse]
  rw [convertHex, convertLoop_eq (digits_hex n) (by omega)]
  show (do
    let mem ← Mem.store? (Mem.store mem buf (stored .hex hexDigit n)) (buf + _) [0]
    let mem ← reverse mem buf (buf + (stored .hex hexDigit n).length)
    return (mem, buf + (stored .hex hexDigit n).length - buf)) = _
  rw [store_nul_reverse (by omega), hlen, hstored, List.reverse_reverse]

/-- The digits and the sign, in the order in which they are stored. -/
theorem reverse_decimal (v : ℤ) : (decimal v).reverse =
    stored .decimal decimalDigit v ++ if v < 0 then [45] else [] := by
  rw [decimal, List.reverse_append, stored]
  split <;> rfl

theorem storeSign_eq {v : ℤ} (h : buf + (decimal v).length ≤ mem.length) :
    storeSign (Mem.store mem buf (stored .decimal decimalDigit v))
      (buf + (stored .decimal decimalDigit v).length) v =
      some (Mem.store mem buf (decimal v).reverse, buf + (decimal v).reverse.length) := by
  have hlen := congrArg List.length (reverse_decimal v)
  rw [List.length_reverse, List.length_append] at hlen
  have hfit : buf + (stored .decimal decimalDigit v).length ≤ mem.length := by omega
  rw [reverse_decimal, storeSign]
  by_cases hv : v < 0
  · rw [if_pos hv] at hlen
    rw [if_pos hv, if_pos hv, Mem.store?_of_le (by rw [Mem.length_store hfit]; omega),
      Option.map_some, Mem.store_store_append hfit, List.length_append, Nat.add_assoc]
    rfl
  · rw [if_neg hv, if_neg hv, List.append_nil]

/-- **`convert`** writes the decimal numeral and a NUL behind it. -/
theorem convert_eq {v : ℤ} (h : buf + (decimal v).length + 1 ≤ mem.length) :
    convert mem buf v = some (Mem.store mem buf (decimal v ++ [0]), (decimal v).length) := by
  have hlen := congrArg List.length (reverse_decimal v)
  rw [List.length_reverse, List.length_append] at hlen
  rw [convert, convertLoop_eq (digits_decimal v) (by omega)]
  show (do
    let (mem, p) ← storeSign (Mem.store mem buf (stored .decimal decimalDigit v))
      (buf + (stored .decimal decimalDigit v).length) v
    let mem ← Mem.store? mem p [0]
    let mem ← reverse mem buf p
    return (mem, p - buf)) = _
  rw [storeSign_eq (by omega)]
  show (do
    let mem ← Mem.store? (Mem.store mem buf (decimal v).reverse) (buf + (decimal v).reverse.length) [0]
    let mem ← reverse mem buf (buf + (decimal v).reverse.length)
    return (mem, buf + (decimal v).reverse.length - buf)) = _
  rw [store_nul_reverse (by rw [List.length_reverse]; omega), List.reverse_reverse,
    List.length_reverse]

end Functions

/-! ## Canonical numerals -/

/-- An integer type of at most 64 bits. -/
structure IntType where
  signed : Bool
  width : ℕ
  width_pos : 0 < width
  width_le : width ≤ 64

/-- The values of the type. -/
def IntType.Holds (T : IntType) (v : ℤ) : Prop :=
  if T.signed then -2 ^ (T.width - 1) ≤ v ∧ v < 2 ^ (T.width - 1) else 0 ≤ v ∧ v < 2 ^ T.width

instance (T : IntType) (v : ℤ) : Decidable (T.Holds v) := by
  unfold IntType.Holds
  infer_instance

/-- A decimal text as a number. -/
def parseDecimal (text : List UInt8) : ℤ :=
  if text.head? = some 45 then -Numeral.value 10 (text.tail.map fun c => c.toNat - 48)
  else Numeral.value 10 (text.map fun c => c.toNat - 48)

/-- A hexadecimal text as a number. -/
def parseHex (text : List UInt8) : ℕ :=
  Numeral.value 16 (text.map fun c => if c < 65 then c.toNat - 48 else c.toNat - 55)

/-- `text` is the canonical numeral of `v` in a base: `-` exactly for a negative value, then digits
without a leading zero. -/
def CanonicalText (base : ℕ) (ascii : ℕ → UInt8) (v : ℤ) (text : List UInt8) : Prop :=
  ∃ l, Numeral.Canonical base l ∧ Numeral.value base l = v.natAbs ∧
    text = (if v < 0 then [45] else []) ++ l.map ascii

/-- There is one such text. -/
theorem canonicalText_iff {base : ℕ} {ascii : ℕ → UInt8} {v : ℤ} {text : List UInt8}
    (hbase : 1 < base) : CanonicalText base ascii v text ↔
      text = (if v < 0 then [45] else []) ++ (numeral base v.natAbs).map ascii := by
  refine ⟨?_, fun h => ⟨_, Numeral.canonical_numeral hbase _, Numeral.value_numeral _ _, h⟩⟩
  rintro ⟨l, hl, hvalue, rfl⟩
  rw [← hvalue, hl.numeral_value hbase]

theorem canonicalText_decimal (v : ℤ) : CanonicalText 10 decimalDigit v (decimal v) :=
  (canonicalText_iff (by decide)).mpr rfl

theorem canonicalText_hex (n : ℕ) : CanonicalText 16 hexDigit n (hex n) := by
  rw [canonicalText_iff (by decide), if_neg (not_lt.mpr (Int.natCast_nonneg n))]
  rfl

/-- **A value has at most 20 characters**: the longest are the least value of 64 bits and the largest
unsigned one. -/
theorem length_decimal_le {T : IntType} {v : ℤ} (h : T.Holds v) : (decimal v).length ≤ 20 := by
  have hwidth := T.width_le
  unfold IntType.Holds at h
  rw [decimal, List.length_append, List.length_map]
  by_cases hv : v < 0
  · have hsigned : T.signed = true := by
      by_contra hns
      rw [if_neg hns] at h
      omega
    have hpow : (2 : ℤ) ^ (T.width - 1) ≤ 2 ^ 63 := pow_le_pow_right₀ (by decide) (by omega)
    have hdigits : (numeral 10 v.natAbs).length ≤ 19 := by
      rw [if_pos hsigned] at h
      exact Numeral.length_numeral_le (by decide) (by decide) (by omega)
    rw [if_pos hv, List.length_singleton]
    omega
  · have hpow : (2 : ℤ) ^ (T.width - 1) ≤ 2 ^ 64 := pow_le_pow_right₀ (by decide) (by omega)
    have hpow' : (2 : ℤ) ^ T.width ≤ 2 ^ 64 := pow_le_pow_right₀ (by decide) hwidth
    have hlt : v < 2 ^ 64 := by
      split at h <;> omega
    have hdigits : (numeral 10 v.natAbs).length ≤ 20 :=
      Numeral.length_numeral_le (by decide) (by decide) (by omega)
    rw [if_neg hv, List.length_nil]
    omega

theorem length_hex_le {n : ℕ} (h : n < 2 ^ 64) : (hex n).length ≤ 16 := by
  rw [hex, List.length_map]
  exact Numeral.length_numeral_le (by decide) (by decide) (by omega)

theorem toNat_decimalDigit {d : ℕ} (h : d < 10) : (decimalDigit d).toNat = 48 + d := by
  rw [decimalDigit, UInt8.toNat_ofNat']
  omega

theorem toNat_hexDigit {d : ℕ} (h : d < 16) :
    (if hexDigit d < 65 then (hexDigit d).toNat - 48 else (hexDigit d).toNat - 55) = d := by
  interval_cases d <;> rfl

theorem map_map_digits {base : ℕ} {ascii : ℕ → UInt8} {back : UInt8 → ℕ} {l : List ℕ}
    (hl : ∀ d ∈ l, d < base) (hback : ∀ d < base, back (ascii d) = d) :
    (l.map ascii).map back = l := by
  rw [List.map_map]
  exact (List.map_congr_left fun d hd => hback d (hl d hd)).trans (List.map_id l)

/-- The text is read back. -/
theorem parseDecimal_decimal (v : ℤ) : parseDecimal (decimal v) = v := by
  have hdigits : ((numeral 10 v.natAbs).map decimalDigit).map (fun c => c.toNat - 48) =
      numeral 10 v.natAbs :=
    map_map_digits (fun d hd => Numeral.lt_base_of_mem_numeral (by decide) hd) fun d hd => by
      rw [toNat_decimalDigit hd, Nat.add_sub_cancel_left]
  by_cases hv : v < 0
  · have htext : decimal v = 45 :: (numeral 10 v.natAbs).map decimalDigit := by
      rw [decimal, if_pos hv]
      rfl
    rw [htext, parseDecimal, List.head?_cons, if_pos rfl, List.tail_cons, hdigits,
      Numeral.value_numeral]
    omega
  · have htext : decimal v = (numeral 10 v.natAbs).map decimalDigit := by
      rw [decimal, if_neg hv]
      rfl
    have hhead : (decimal v).head? ≠ some 45 := by
      intro h
      have hmem := List.mem_of_mem_head? h
      rw [htext, List.mem_map] at hmem
      obtain ⟨d, hd, hd45⟩ := hmem
      have hlt := Numeral.lt_base_of_mem_numeral (by decide) hd
      have hnat := congrArg UInt8.toNat hd45
      rw [toNat_decimalDigit hlt] at hnat
      have h45 : (45 : UInt8).toNat = 45 := rfl
      omega
    rw [parseDecimal, if_neg hhead, htext, hdigits, Numeral.value_numeral]
    omega

theorem parseHex_hex (n : ℕ) : parseHex (hex n) = n := by
  rw [parseHex, hex, map_map_digits (fun d hd => Numeral.lt_base_of_mem_numeral (by decide) hd)
    (fun d hd => toNat_hexDigit hd), Numeral.value_numeral]

/-- **The rendering of integers is canonical**: `convert` and `convertHex` write the numeral and a NUL
and nothing else, in at most 21 bytes; the text is read back, so distinct values have distinct
texts. -/
theorem convert_canonical :
    (∀ (T : IntType) (v : ℤ), T.Holds v → (decimal v).length + 1 ≤ 21 ∧
      ∀ (mem : List UInt8) (buf : ℕ), buf + (decimal v).length + 1 ≤ mem.length →
        convert mem buf v = some (Mem.store mem buf (decimal v ++ [0]), (decimal v).length)) ∧
    (∀ n : ℕ, n < 2 ^ 64 → (hex n).length + 1 ≤ 17 ∧
      ∀ (mem : List UInt8) (buf : ℕ), buf + (hex n).length + 1 ≤ mem.length →
        convertHex mem buf n = some (Mem.store mem buf (hex n ++ [0]), (hex n).length)) ∧
    (∀ v, CanonicalText 10 decimalDigit v (decimal v)) ∧
    (∀ n : ℕ, CanonicalText 16 hexDigit n (hex n)) ∧
    (∀ v, parseDecimal (decimal v) = v) ∧ (∀ n, parseHex (hex n) = n) ∧
    Function.Injective decimal ∧ Function.Injective hex := by
  refine ⟨fun T v hv => ⟨Nat.succ_le_succ (length_decimal_le hv), fun mem buf h => convert_eq h⟩,
    fun n hn => ⟨Nat.succ_le_succ (length_hex_le hn), fun mem buf h => convertHex_eq h⟩,
    canonicalText_decimal, canonicalText_hex, parseDecimal_decimal, parseHex_hex,
    Function.LeftInverse.injective parseDecimal_decimal,
    Function.LeftInverse.injective parseHex_hex⟩

/-- The least `long long`. -/
theorem convert_canonical_min :
    convert (List.replicate 21 7) 0 (-9223372036854775808) =
        some (literal "-9223372036854775808" ++ [0], 20) ∧
      parseDecimal (literal "-9223372036854775808") = -9223372036854775808 := by
  obtain ⟨hconvert, -, -, -, hparse, -⟩ := convert_canonical
  have htext : decimal (-9223372036854775808) = literal "-9223372036854775808" := by
    decide
  have h := (hconvert ⟨true, 64, by decide, le_rfl⟩ (-9223372036854775808) (by decide)).2
    (List.replicate 21 7) 0
  rw [htext] at h
  exact ⟨h (by decide), htext ▸ hparse (-9223372036854775808)⟩

end MengSen.detail

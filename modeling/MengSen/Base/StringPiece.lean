import MengSen.Lib.Lex
import Mathlib.Data.Int.ConditionallyCompleteOrder

/-!
# Base.StringPiece — comparison of string pieces

`StringPiece` of `base/StringPiece.h`: a pointer to bytes and a length.  All comparisons go through
`memcmp`, of which the sign of the result is documented and its size is not; so it is a parameter.
-/

namespace MengSen

/-- `memcmp(p, q, n)`: it compares the first `n` bytes as unsigned bytes, lexicographically. -/
structure Memcmp where
  memcmp : List UInt8 → List UInt8 → ℕ → ℤ
  neg_iff : ∀ {p q : List UInt8} {n : ℕ}, n ≤ p.length → n ≤ q.length →
    (memcmp p q n < 0 ↔ p.take n < q.take n)
  eq_zero_iff : ∀ {p q : List UInt8} {n : ℕ}, n ≤ p.length → n ≤ q.length →
    (memcmp p q n = 0 ↔ p.take n = q.take n)

/-- The difference of the first bytes that differ. -/
def firstDifference : List UInt8 → List UInt8 → ℕ → ℤ
  | a :: p, b :: q, n + 1 => if a = b then firstDifference p q n else (a.toNat : ℤ) - b.toNat
  | _, _, _ => 0

theorem firstDifference_iff {p q : List UInt8} {n : ℕ} (hp : n ≤ p.length) (hq : n ≤ q.length) :
    (firstDifference p q n < 0 ↔ p.take n < q.take n) ∧
      (firstDifference p q n = 0 ↔ p.take n = q.take n) := by
  induction n generalizing p q with
  | zero => simp [firstDifference]
  | succ n ih =>
    obtain _ | ⟨a, p⟩ := p
    · cases hp
    obtain _ | ⟨b, q⟩ := q
    · cases hq
    obtain ⟨hneg, hzero⟩ := ih (Nat.le_of_succ_le_succ hp) (Nat.le_of_succ_le_succ hq)
    rw [List.take_succ_cons, List.take_succ_cons, Lex.cons_lt_cons, List.cons.injEq,
      firstDifference]
    by_cases hab : a = b
    · rw [if_pos hab, hneg, hzero]
      simp [hab]
    · have hne : a.toNat ≠ b.toNat := fun h => hab (UInt8.toNat_inj.mp h)
      rw [if_neg hab, UInt8.lt_iff_toNat_lt]
      simp only [hab, false_and, or_false, iff_false]
      omega

/-- A `memcmp` that returns that difference. -/
def Memcmp.bytewise : Memcmp where
  memcmp := firstDifference
  neg_iff hp hq := (firstDifference_iff hp hq).1
  eq_zero_iff hp hq := (firstDifference_iff hp hq).2

/-- `length_` bytes from `ptr_` on, which may have more bytes behind them. -/
structure StringPiece where
  ptr_ : List UInt8
  length_ : ℕ
  readable : length_ ≤ ptr_.length

namespace StringPiece

/-- The bytes of the piece. -/
def bytes (s : StringPiece) : List UInt8 := s.ptr_.take s.length_

/-- `StringPiece(const char* offset, int len)` of an array of `len` bytes. -/
def ofBytes (l : List UInt8) : StringPiece := ⟨l, l.length, le_rfl⟩

/-- `remove_suffix(n)` of at most `size()` bytes. -/
def removeSuffix (s : StringPiece) (n : ℕ) : StringPiece :=
  ⟨s.ptr_, s.length_ - n, (Nat.sub_le _ _).trans s.readable⟩

section Operators

variable (C : Memcmp) (s x : StringPiece)

/-- `starts_with`, which takes the result of `memcmp` as a truth value. -/
def startsWith : Bool := s.length_ ≥ x.length_ && C.memcmp s.ptr_ x.ptr_ x.length_ != 0

/-- `operator==`. -/
def equal : Bool := s.length_ == x.length_ && C.memcmp s.ptr_ x.ptr_ s.length_ == 0

/-- `operator!=`. -/
def notEqual : Bool := !equal C s x

/-- `STRINGPIECE_BINARY_PREDICATE(cmp, auxcmp)`. -/
def binaryPredicate (cmp : ℕ → ℕ → Bool) (auxcmp : ℤ → ℤ → Bool) : Bool :=
  let r := C.memcmp s.ptr_ x.ptr_ (if s.length_ < x.length_ then s.length_ else x.length_)
  auxcmp r 0 || (r == 0 && cmp s.length_ x.length_)

/-- `operator<`. -/
def less : Bool := binaryPredicate C s x (fun a b => a < b) fun a b => a < b

/-- `operator<=`. -/
def lessEqual : Bool := binaryPredicate C s x (fun a b => a ≤ b) fun a b => a < b

/-- `operator>=`. -/
def greaterEqual : Bool := binaryPredicate C s x (fun a b => a ≥ b) fun a b => a > b

/-- `operator>`. -/
def greater : Bool := binaryPredicate C s x (fun a b => a > b) fun a b => a > b

def compare : ℤ :=
  let r := C.memcmp s.ptr_ x.ptr_ (if s.length_ < x.length_ then s.length_ else x.length_)
  if r == 0 then
    if s.length_ < x.length_ then -1 else if s.length_ > x.length_ then 1 else r
  else r

end Operators

/-! ## The bytes -/

section Bytes

variable (C : Memcmp) {s x : StringPiece}

@[simp] theorem length_bytes (s : StringPiece) : s.bytes.length = s.length_ := by
  rw [bytes, List.length_take, Nat.min_eq_left s.readable]

/-- The length up to which two pieces are compared. -/
def common (s x : StringPiece) : ℕ := if s.length_ < x.length_ then s.length_ else x.length_

theorem common_eq (s x : StringPiece) : common s x = min s.bytes.length x.bytes.length := by
  rw [length_bytes, length_bytes, common]
  split <;> omega

theorem take_bytes {n : ℕ} (h : n ≤ s.length_) : s.bytes.take n = s.ptr_.take n := by
  rw [bytes, List.take_take, Nat.min_eq_left h]

/-- How `memcmp` compares the common bytes. -/
theorem memcmp_common (s x : StringPiece) :
    (C.memcmp s.ptr_ x.ptr_ (common s x) < 0 ↔
        s.bytes.take (common s x) < x.bytes.take (common s x)) ∧
      (C.memcmp s.ptr_ x.ptr_ (common s x) = 0 ↔
        s.bytes.take (common s x) = x.bytes.take (common s x)) := by
  have hmin := common_eq s x
  rw [length_bytes, length_bytes] at hmin
  have hs := s.readable
  have hx := x.readable
  rw [take_bytes (show common s x ≤ s.length_ by omega),
    take_bytes (show common s x ≤ x.length_ by omega)]
  exact ⟨C.neg_iff (by omega) (by omega), C.eq_zero_iff (by omega) (by omega)⟩

/-- `memcmp` and the lengths decide as the lexicographic order of the bytes does. -/
theorem bytes_lt_iff (s x : StringPiece) : s.bytes < x.bytes ↔
    C.memcmp s.ptr_ x.ptr_ (common s x) < 0 ∨
      C.memcmp s.ptr_ x.ptr_ (common s x) = 0 ∧ s.length_ < x.length_ := by
  obtain ⟨hneg, hzero⟩ := memcmp_common C s x
  rw [Lex.lt_iff_take (common_eq s x), hneg, hzero, length_bytes, length_bytes]

theorem bytes_eq_iff (s x : StringPiece) : s.bytes = x.bytes ↔
    C.memcmp s.ptr_ x.ptr_ (common s x) = 0 ∧ s.length_ = x.length_ := by
  rw [Lex.eq_iff_take (common_eq s x), (memcmp_common C s x).2, length_bytes, length_bytes]

theorem bytes_gt_iff (s x : StringPiece) : x.bytes < s.bytes ↔
    0 < C.memcmp s.ptr_ x.ptr_ (common s x) ∨
      C.memcmp s.ptr_ x.ptr_ (common s x) = 0 ∧ x.length_ < s.length_ := by
  have hlt := bytes_lt_iff C s x
  have heq := bytes_eq_iff C s x
  have hgt : x.bytes < s.bytes ↔ ¬ s.bytes < x.bytes ∧ s.bytes ≠ x.bytes := by
    rw [← not_or, ← le_iff_lt_or_eq, not_le]
  rw [hgt, ne_eq, hlt, heq]
  omega

end Bytes

/-! ## The operators -/

section Order

variable (C : Memcmp) (s x : StringPiece)

theorem equal_iff : equal C s x = true ↔ s.bytes = x.bytes := by
  rw [bytes_eq_iff C, equal, Bool.and_eq_true, beq_iff_eq, beq_iff_eq, and_comm]
  refine and_congr_left fun hlen => ?_
  rw [common, hlen, ite_self]

theorem notEqual_iff : notEqual C s x = true ↔ s.bytes ≠ x.bytes := by
  rw [notEqual, Bool.not_eq_true', Bool.eq_false_iff, ne_eq, equal_iff]

/-- The macro with its two operators. -/
theorem binaryPredicate_iff {cmp : ℕ → ℕ → Bool} {auxcmp : ℤ → ℤ → Bool} :
    binaryPredicate C s x cmp auxcmp = true ↔
      auxcmp (C.memcmp s.ptr_ x.ptr_ (common s x)) 0 = true ∨
        C.memcmp s.ptr_ x.ptr_ (common s x) = 0 ∧ cmp s.length_ x.length_ = true := by
  simp only [binaryPredicate, common, Bool.or_eq_true, Bool.and_eq_true, beq_iff_eq]

theorem less_iff : less C s x = true ↔ s.bytes < x.bytes := by
  rw [less, binaryPredicate_iff, bytes_lt_iff C, decide_eq_true_iff, decide_eq_true_iff]

theorem greater_iff : greater C s x = true ↔ x.bytes < s.bytes := by
  rw [greater, binaryPredicate_iff, bytes_gt_iff C, decide_eq_true_iff, decide_eq_true_iff]

theorem lessEqual_iff : lessEqual C s x = true ↔ s.bytes ≤ x.bytes := by
  rw [lessEqual, binaryPredicate_iff, decide_eq_true_iff, decide_eq_true_iff,
    le_iff_lt_or_eq (a := s.bytes), bytes_lt_iff C, bytes_eq_iff C]
  omega

theorem greaterEqual_iff : greaterEqual C s x = true ↔ x.bytes ≤ s.bytes := by
  rw [greaterEqual, binaryPredicate_iff, decide_eq_true_iff, decide_eq_true_iff,
    le_iff_lt_or_eq (b := s.bytes), bytes_gt_iff C, eq_comm (a := x.bytes), bytes_eq_iff C]
  omega

/-- The sign of `compare`. -/
theorem compare_iff : (compare C s x < 0 ↔ s.bytes < x.bytes) ∧
    (compare C s x = 0 ↔ s.bytes = x.bytes) ∧ (0 < compare C s x ↔ x.bytes < s.bytes) := by
  rw [bytes_lt_iff C, bytes_eq_iff C, bytes_gt_iff C]
  generalize hr : C.memcmp s.ptr_ x.ptr_ (common s x) = r
  have hcompare : compare C s x = if r == 0 then
      if s.length_ < x.length_ then -1 else if s.length_ > x.length_ then 1 else r else r := by
    rw [← hr]
    rfl
  generalize compare C s x = c at hcompare ⊢
  split_ifs at hcompare with hzero <;> rw [beq_iff_eq] at hzero <;> omega

/-- **Every comparison is the lexicographic order of the bytes**, so each of the strict ones is a
total order with `==` as its equality. -/
theorem comparison_order (C : Memcmp) :
    (∀ s x, (less C s x = true ↔ s.bytes < x.bytes) ∧
      (lessEqual C s x = true ↔ s.bytes ≤ x.bytes) ∧
      (greater C s x = true ↔ x.bytes < s.bytes) ∧
      (greaterEqual C s x = true ↔ x.bytes ≤ s.bytes) ∧
      (equal C s x = true ↔ s.bytes = x.bytes) ∧ (notEqual C s x = true ↔ s.bytes ≠ x.bytes) ∧
      (compare C s x < 0 ↔ s.bytes < x.bytes) ∧ (compare C s x = 0 ↔ s.bytes = x.bytes) ∧
      (0 < compare C s x ↔ x.bytes < s.bytes)) ∧
    Lex.StrictTotal (less C) (equal C) ∧ Lex.StrictTotal (greater C) (equal C) ∧
    Lex.StrictTotal (fun s x => !lessEqual C s x) (equal C) ∧
    Lex.StrictTotal (fun s x => !greaterEqual C s x) (equal C) ∧
    Lex.StrictTotal (fun s x => compare C s x < 0) (equal C) := by
  have hgt : ∀ s x : StringPiece, OrderDual.toDual s.bytes < OrderDual.toDual x.bytes ↔ x.bytes < s.bytes :=
    fun _ _ => Iff.rfl
  refine ⟨fun s x => ⟨less_iff C s x, lessEqual_iff C s x, greater_iff C s x,
    greaterEqual_iff C s x, equal_iff C s x, notEqual_iff C s x, compare_iff C s x⟩,
    .ofKey bytes (less_iff C) (equal_iff C),
    .ofKey (OrderDual.toDual ∘ bytes) (greater_iff C) (equal_iff C),
    .ofKey (OrderDual.toDual ∘ bytes) (fun s x => ?_) (equal_iff C),
    .ofKey bytes (fun s x => ?_) (equal_iff C), .ofKey bytes (fun s x => ?_) (equal_iff C)⟩
  · rw [Bool.not_eq_true', Bool.eq_false_iff, ne_eq, lessEqual_iff, not_le]
    rfl
  · rw [Bool.not_eq_true', Bool.eq_false_iff, ne_eq, greaterEqual_iff, not_le]
  · rw [decide_eq_true_iff, (compare_iff C s x).1]

/-- A NUL byte and a byte above 127 inside the pieces. -/
example : less .bytewise (ofBytes [0x61, 0, 0x7f]) (ofBytes [0x61, 0, 0x80]) = true := by decide

end Order

/-! ## `starts_with` -/

section StartsWith

variable (C : Memcmp) {s x : StringPiece}

theorem common_of_le (h : x.length_ ≤ s.length_) : common s x = x.length_ := by
  rw [common]
  split <;> omega

/-- `memcmp` of the bytes of the shorter piece. -/
theorem memcmp_eq_zero_iff (h : x.length_ ≤ s.length_) :
    C.memcmp s.ptr_ x.ptr_ x.length_ = 0 ↔ x.bytes <+: s.bytes := by
  have hzero := (memcmp_common C s x).2
  rw [common_of_le h] at hzero
  rw [hzero, List.prefix_iff_eq_take, length_bytes, eq_comm, ← length_bytes x, List.take_length]

theorem startsWith_of_lt (h : s.length_ < x.length_) : startsWith C s x = false := by
  rw [startsWith, decide_eq_false (not_le.mpr h), Bool.false_and]

/-- **A piece that is not longer** is found exactly when it is not in front. -/
theorem startsWith_of_le (h : x.length_ ≤ s.length_) :
    startsWith C s x = true ↔ ¬ x.bytes <+: s.bytes := by
  rw [startsWith, decide_eq_true h, Bool.true_and, bne_iff_ne, ne_eq, memcmp_eq_zero_iff C h]

theorem startsWith_iff (s x : StringPiece) :
    startsWith C s x = true ↔ x.length_ ≤ s.length_ ∧ ¬ x.bytes <+: s.bytes := by
  rcases Nat.lt_or_ge s.length_ x.length_ with hlt | hle
  · rw [startsWith_of_lt C hlt]
    exact iff_of_false Bool.false_ne_true fun h => absurd h.1 (not_le.mpr hlt)
  · rw [startsWith_of_le C hle, and_iff_right hle]

/-- What is left of `s` when it is cut to the length of `x`. -/
theorem bytes_removeSuffix (h : x.length_ ≤ s.length_) :
    (s.removeSuffix (s.length_ - x.length_)).bytes = s.bytes.take x.length_ := by
  show s.ptr_.take (s.length_ - (s.length_ - x.length_)) = _
  rw [take_bytes h, Nat.sub_sub_self h]

/-- The comparison with `x` after `remove_suffix`. -/
theorem equal_removeSuffix (h : x.length_ ≤ s.length_) :
    equal C (s.removeSuffix (s.length_ - x.length_)) x = true ↔ x.bytes <+: s.bytes := by
  rw [equal_iff, bytes_removeSuffix h, List.prefix_iff_eq_take, length_bytes, eq_comm]

/-- **`starts_with` is the prefix relation only where the prefix is the longer piece**: otherwise its
answer is the opposite.  So it is not reflexive, no piece starts with the empty one, and it never
agrees with `==` after `remove_suffix`; the last two items say where it is below `<=` and where it is
transitive. -/
theorem startsWith_prefix_iff (C : Memcmp) (s x y : StringPiece) :
    ((startsWith C s x = true ↔ x.bytes <+: s.bytes) ↔ s.length_ < x.length_) ∧
      startsWith C s s = false ∧ (y.length_ = 0 → startsWith C s y = false) ∧
      (x.length_ ≤ s.length_ →
        startsWith C s x = !equal C (s.removeSuffix (s.length_ - x.length_)) x) ∧
      ((startsWith C s x = true → lessEqual C x s = true) ↔
        s.length_ < x.length_ ∨ x.bytes ≤ s.bytes) ∧
      ((startsWith C s x = true → startsWith C x y = true → startsWith C s y = true) ↔
        s.length_ < x.length_ ∨ x.length_ < y.length_ ∨ x.bytes <+: s.bytes ∨
          y.bytes <+: x.bytes ∨ ¬ y.bytes <+: s.bytes) := by
  have hlen : x.bytes <+: s.bytes → x.length_ ≤ s.length_ := fun h => by
    have hle := h.length_le
    rwa [length_bytes, length_bytes] at hle
  refine ⟨?_, ?_, fun h => ?_, fun h => ?_, ?_, ?_⟩
  · rw [startsWith_iff, ← not_le]
    tauto
  · exact Bool.eq_false_iff.mpr fun h => (startsWith_of_le C le_rfl).mp h List.prefix_rfl
  · have hnil : y.bytes = [] := List.eq_nil_of_length_eq_zero ((length_bytes y).trans h)
    rw [Bool.eq_false_iff, ne_eq, startsWith_of_le C (h.le.trans (Nat.zero_le _)), not_not, hnil]
    exact List.nil_prefix
  · rw [Bool.eq_iff_iff, startsWith_of_le C h, Bool.not_eq_true', Bool.eq_false_iff, ne_eq,
      equal_removeSuffix C h]
  · have hle : x.bytes <+: s.bytes → x.bytes ≤ s.bytes := fun h => not_lt.mp (List.IsPrefix.le h)
    rw [startsWith_iff, lessEqual_iff, ← not_le]
    tauto
  · rw [startsWith_iff, startsWith_iff, startsWith_iff, ← not_le, ← not_le]
    have htrans : x.length_ ≤ s.length_ → y.length_ ≤ x.length_ → y.length_ ≤ s.length_ :=
      fun h k => k.trans h
    tauto

/-- `"a"` does not start with itself, and `"b"` starts with `"a"`. -/
theorem startsWith_reversed :
    startsWith .bytewise (ofBytes [0x61]) (ofBytes [0x61]) = false ∧
      startsWith .bytewise (ofBytes [0x62]) (ofBytes [0x61]) = true ∧
      ¬ ∀ s x, startsWith .bytewise s x = true ↔ x.bytes <+: s.bytes := by
  refine ⟨by decide, by decide, fun h => ?_⟩
  have hself := (h (ofBytes [0x61]) (ofBytes [0x61])).mpr List.prefix_rfl
  exact absurd hself (by decide)

end StartsWith

end StringPiece

end MengSen

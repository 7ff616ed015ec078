import Mathlib.Algebra.BigOperators.Group.Finset.Basic
import Mathlib.Algebra.Order.BigOperators.Group.Finset

/-!
# Base.AppendFile — appending a line to a file

`FileUtil::AppendFile` of `base/FileUtil.cpp`.  The `k`-th call of `fwrite_unlocked` takes the front of
its request, `answer k` bytes of it or all of it when it is shorter; every sequence of results between
0 and the requests is that of some `answer`.  The message about a failure is left out.
-/

namespace MengSen

structure AppendFile where
  /-- the bytes that `fwrite_unlocked` has taken -/
  file : List UInt8
  /-- the number of its calls -/
  calls : ℕ
  writtenBytes_ : ℕ
  deriving DecidableEq

namespace AppendFile

/-- The constructor. -/
def make : AppendFile := ⟨[], 0, 0⟩

variable (answer : ℕ → ℕ)

/-- `write`, with its result. -/
def write (f : AppendFile) (logline : List UInt8) : ℕ × AppendFile :=
  let x := min (answer f.calls) logline.length
  (x, { f with file := f.file ++ logline.take x, calls := f.calls + 1 })

/-- The loop of `append`, of which `remain` is `len - n`. -/
def appendLoop (f : AppendFile) (logline : List UInt8) (n : ℕ) : AppendFile :=
  if _hremain : logline.length - n > 0 then
    let (x, f) := f.write answer (logline.drop n)
    if _hx : x = 0 then f else appendLoop f logline (n + x)
  else f
termination_by logline.length - n

def append (f : AppendFile) (logline : List UInt8) : AppendFile :=
  let (n, f) := f.write answer logline
  let f := f.appendLoop answer logline n
  { f with writtenBytes_ := f.writtenBytes_ + logline.length }

/-! ## What is written -/

/-- The calls from `k` on take `r` bytes before one of them returns 0. -/
def Takes (k r : ℕ) : Prop :=
  ∃ m, r ≤ ∑ i ∈ Finset.range m, answer (k + i) ∧ ∀ i < m, 0 < answer (k + i)

section Takes

variable {answer} {k r : ℕ}

theorem takes_zero : Takes answer k 0 := ⟨0, Nat.zero_le _, fun i hi => absurd hi (Nat.not_lt_zero i)⟩

theorem sum_answers_succ (answer : ℕ → ℕ) (k m : ℕ) :
    ∑ i ∈ Finset.range (m + 1), answer (k + i) =
      answer k + ∑ i ∈ Finset.range m, answer (k + 1 + i) := by
  rw [Finset.sum_range_succ', Nat.add_zero, Nat.add_comm]
  refine congrArg (answer k + ·) (Finset.sum_congr rfl fun i _ => ?_)
  rw [Nat.add_assoc, Nat.add_comm 1]

/-- The calls take `r` bytes if the first one takes some, and those after it the rest. -/
theorem takes_iff (hr : 0 < r) :
    Takes answer k r ↔ 0 < answer k ∧ Takes answer (k + 1) (r - answer k) := by
  have hshift : ∀ i, k + (i + 1) = k + 1 + i := fun i => by omega
  refine ⟨?_, ?_⟩
  · rintro ⟨m, hsum, hpos⟩
    obtain _ | m := m
    · rw [Finset.sum_range_zero] at hsum
      omega
    · rw [sum_answers_succ] at hsum
      refine ⟨hpos 0 (Nat.zero_lt_succ m), m, by omega, fun i hi => ?_⟩
      rw [← hshift]
      exact hpos (i + 1) (Nat.succ_lt_succ hi)
  · rintro ⟨hk, m, hsum, hpos⟩
    refine ⟨m + 1, ?_, fun i hi => ?_⟩
    · rw [sum_answers_succ]
      omega
    · obtain _ | i := i
      · exact hk
      · rw [hshift]
        exact hpos i (Nat.lt_of_succ_lt_succ hi)

end Takes

/-- What a piece of `append` does: it writes `w`, the front of `rest`, with at most `bound` calls, and
all of it unless a call returns 0. -/
structure Writes (f : AppendFile) (rest w : List UInt8) (f' : AppendFile) : Prop where
  file : f'.file = f.file ++ w
  front : w <+: rest
  writtenBytes : f'.writtenBytes_ = f.writtenBytes_
  calls_le : f.calls ≤ f'.calls
  calls_le' : f'.calls ≤ f.calls + rest.length
  whole : w ≠ rest → ∃ i, f.calls ≤ i ∧ i < f'.calls ∧ answer i = 0
  whole_iff : w = rest ↔ Takes answer f.calls rest.length

section Front

variable {rest w : List UInt8} {x : ℕ}

theorem take_append_prefix (h : w <+: rest.drop x) : rest.take x ++ w <+: rest := by
  have hfront := (List.prefix_append_right_inj (rest.take x)).mpr h
  rwa [List.take_append_drop] at hfront

theorem take_append_eq : rest.take x ++ w = rest ↔ w = rest.drop x := by
  refine ⟨fun h => List.append_cancel_left (h.trans (List.take_append_drop x rest).symm),
    fun h => ?_⟩
  rw [h, List.take_append_drop]

end Front

variable {answer} in
/-- A call that takes something, before the rest. -/
theorem Writes.cons {f f' : AppendFile} {rest w : List UInt8} (hrest : 0 < rest.length)
    (hpos : 0 < answer f.calls)
    (h : Writes answer (f.write answer rest).2 (rest.drop (f.write answer rest).1) w f') :
    Writes answer f rest (rest.take (f.write answer rest).1 ++ w) f' := by
  have hle := h.calls_le
  have hle' := h.calls_le'
  simp only [write, List.length_drop] at hle hle'
  refine ⟨?_, take_append_prefix h.front, h.writtenBytes, by omega, by omega, fun hne => ?_, ?_⟩
  · rw [h.file, write, List.append_assoc]
  · obtain ⟨i, hi, hlt, hzero⟩ := h.whole (mt take_append_eq.mpr hne)
    exact ⟨i, Nat.le_of_succ_le hi, hlt, hzero⟩
  · rw [take_append_eq, h.whole_iff, takes_iff hrest, and_iff_right hpos, List.length_drop]
    simp only [write]
    rw [show rest.length - min (answer f.calls) rest.length = rest.length - answer f.calls by omega]

/-- **The loop** writes the rest of the line without a gap, or stops at a result 0. -/
theorem appendLoop_writes (f : AppendFile) (logline : List UInt8) (n : ℕ) :
    ∃ w, Writes answer f (logline.drop n) w (f.appendLoop answer logline n) := by
  induction hr : logline.length - n using Nat.strong_induction_on generalizing f n with
  | _ r ih =>
    have hlen : (logline.drop n).length = r := by rw [List.length_drop, hr]
    rw [appendLoop, hr]
    by_cases hremain : r > 0
    · rw [dif_pos hremain]
      simp only [write, hlen]
      by_cases hx : min (answer f.calls) r = 0
      · -- nothing is taken, and the line is not complete
        have hzero : answer f.calls = 0 := by omega
        have hne : [] ≠ logline.drop n := by
          rw [ne_eq, eq_comm, ← List.length_eq_zero_iff]
          omega
        rw [dif_pos hx, hx]
        refine ⟨[], by simp, List.nil_prefix, rfl, by simp, ?_, fun _ => ?_, ?_⟩
        · simp only
          omega
        · exact ⟨f.calls, le_rfl, Nat.lt_succ_self _, hzero⟩
        · rw [hlen, takes_iff hremain]
          exact iff_of_false hne fun h => by omega
      · rw [dif_neg hx]
        have hdrop : logline.drop (n + min (answer f.calls) r) =
            (logline.drop n).drop (min (answer f.calls) r) := List.drop_drop.symm
        obtain ⟨w, hw⟩ := ih (r - min (answer f.calls) r) (by omega)
          (f.write answer (logline.drop n)).2 (n + min (answer f.calls) r) (by omega)
        rw [hdrop, ← hlen] at hw
        have hall := Writes.cons (by omega) (by omega) hw
        simp only [write, hlen] at hall
        exact ⟨_, hall⟩
    · have hnil : logline.drop n = [] := List.length_eq_zero_iff.mp (by omega)
      rw [dif_neg hremain, hnil]
      exact ⟨[], by simp, List.nil_prefix, rfl, le_rfl, Nat.le_add_right _ _,
        fun h => absurd rfl h, iff_of_true rfl takes_zero⟩

/-- **A line**: its front is written, the whole of it unless a call of the loop returns 0, with at most
one call more than it has bytes. -/
theorem append_writes (f : AppendFile) (logline : List UInt8) :
    ∃ w, (f.append answer logline).file = f.file ++ w ∧ w <+: logline ∧
      (f.append answer logline).calls ≤ f.calls + logline.length + 1 ∧
      (w ≠ logline → ∃ i, f.calls < i ∧ i < (f.append answer logline).calls ∧ answer i = 0) ∧
      (w = logline ↔ Takes answer (f.calls + 1) (logline.length - answer f.calls)) ∧
      (f.append answer logline).writtenBytes_ = f.writtenBytes_ + logline.length := by
  obtain ⟨w, hw⟩ := appendLoop_writes answer (f.write answer logline).2 logline
    (f.write answer logline).1
  have hbound := hw.calls_le'
  simp only [write, List.length_drop] at hbound
  refine ⟨logline.take (f.write answer logline).1 ++ w, ?_, take_append_prefix hw.front, ?_,
    fun hne => hw.whole (mt take_append_eq.mpr hne), ?_, ?_⟩
  · rw [append, hw.file, write, List.append_assoc]
  · show ((f.write answer logline).2.appendLoop answer logline _).calls ≤ _
    simp only [write]
    omega
  · rw [take_append_eq, hw.whole_iff, List.length_drop]
    simp only [write]
    rw [show logline.length - min (answer f.calls) logline.length =
      logline.length - answer f.calls by omega]
  · exact congrArg (· + logline.length) hw.writtenBytes

/-- A line that one call takes. -/
theorem append_accepted {f : AppendFile} {logline : List UInt8}
    (h : logline.length ≤ answer f.calls) : (f.append answer logline).file = f.file ++ logline ∧
      (f.append answer logline).writtenBytes_ = f.writtenBytes_ + logline.length := by
  obtain ⟨w, hfile, -, -, -, hwhole, hbytes⟩ := append_writes answer f logline
  have hw : w = logline := by
    rw [hwhole, Nat.sub_eq_zero_of_le h]
    exact takes_zero
  exact ⟨hw ▸ hfile, hbytes⟩

/-! ## What is accounted for -/

/-- `append` returns after finitely many calls, having written a front `w` of the line, the whole of it
unless a call of the loop returned 0; and `writtenBytes_` has gone up by the number of bytes
written. -/
def Accounts (f : AppendFile) (logline : List UInt8) (f' : AppendFile) : Prop :=
  f'.calls ≤ f.calls + logline.length + 1 ∧
    ∃ w, f'.file = f.file ++ w ∧ w <+: logline ∧
      (w ≠ logline → ∃ i, f.calls < i ∧ i < f'.calls ∧ answer i = 0) ∧
      f'.writtenBytes_ = f.writtenBytes_ + w.length

/-- **`append` accounts for what it wrote exactly when all is written**: the answers add up to the
length of the line before a call after the first returns 0. -/
theorem append_accounts_iff (f : AppendFile) (logline : List UInt8) :
    Accounts answer f logline (f.append answer logline) ↔
      Takes answer (f.calls + 1) (logline.length - answer f.calls) := by
  obtain ⟨w, hfile, hfront, hcalls, hzero, hwhole, hbytes⟩ := append_writes answer f logline
  rw [← hwhole]
  refine ⟨?_, fun h => ⟨hcalls, w, hfile, hfront, hzero, by rw [hbytes, h]⟩⟩
  rintro ⟨-, w', hfile', -, -, hbytes'⟩
  obtain rfl : w' = w := List.append_cancel_left (hfile'.symm.trans hfile)
  exact hfront.eq_of_length (by omega)

/-- A disk that is full: one byte is counted and none is written. -/
theorem append_miscounts :
    (make.append (fun _ => 0) [0x61]).file = [] ∧
      (make.append (fun _ => 0) [0x61]).writtenBytes_ = 1 ∧
      ¬ Accounts (fun _ => 0) make [0x61] (make.append (fun _ => 0) [0x61]) := by
  have happend : make.append (fun _ => 0) [0x61] = ⟨[], 2, 1⟩ := by
    simp [append, appendLoop, write, make]
  rw [happend]
  refine ⟨rfl, rfl, ?_⟩
  rintro ⟨-, w, hfile, -, -, hbytes⟩
  have hw : w = [] := hfile.symm
  rw [hw] at hbytes
  cases hbytes

end AppendFile

end MengSen

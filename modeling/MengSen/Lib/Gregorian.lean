import Mathlib.Algebra.Order.Group.Int
import Mathlib.Data.Int.ConditionallyCompleteOrder
import Mathlib.Data.Int.SuccPred
import Mathlib.Data.Prod.Lex
import Mathlib.Order.Monotone.Basic
import Mathlib.Tactic.IntervalCases

/-!
# Lib.Gregorian — the proleptic Gregorian calendar

Dates with astronomical year numbers and the 4/100/400 rule for leap years, valid by construction.
`next` is the following day and `dayNumber` counts the days: it goes up by one with `next`
(`dayNumber_next`) and is strictly increasing in the order of (year, month, day), so it is one to
one, and every number from that of a date on is the number of a date (`exists_dayNumber`).
-/

/-- The 4/100/400 rule. -/
def IsLeap (year : ℤ) : Prop := year % 4 = 0 ∧ (year % 100 ≠ 0 ∨ year % 400 = 0)

instance (year : ℤ) : Decidable (IsLeap year) := inferInstanceAs (Decidable (_ ∧ _))

/-- The number of days of a month, 0 for a number that is no month. -/
def daysInMonth (year : ℤ) : ℕ → ℕ
  | 2 => if IsLeap year then 29 else 28
  | 4 | 6 | 9 | 11 => 30
  | 1 | 3 | 5 | 7 | 8 | 10 | 12 => 31
  | _ => 0

/-- A date of the proleptic Gregorian calendar. -/
@[ext] structure GregorianDate where
  year : ℤ
  month : ℕ
  day : ℕ
  one_le_month : 1 ≤ month
  month_le : month ≤ 12
  one_le_day : 1 ≤ day
  day_le : day ≤ daysInMonth year month
  deriving DecidableEq

namespace GregorianDate

/-- Dates are ordered by year, month and day. -/
instance : LinearOrder GregorianDate :=
  LinearOrder.lift' (fun d => toLex (d.year, toLex (d.month, d.day))) fun d e h => by
    have hp := toLex.injective h
    have hq := toLex.injective (congrArg Prod.snd hp)
    exact GregorianDate.ext (congrArg Prod.fst hp) (congrArg Prod.fst hq) (congrArg Prod.snd hq)

theorem lt_iff {d e : GregorianDate} : d < e ↔ d.year < e.year ∨ d.year = e.year ∧
    (d.month < e.month ∨ d.month = e.month ∧ d.day < e.day) := by
  have hlex : d < e ↔ toLex (d.year, toLex (d.month, d.day)) <
      toLex (e.year, toLex (e.month, e.day)) := Iff.rfl
  rw [hlex, Prod.Lex.toLex_lt_toLex, Prod.Lex.toLex_lt_toLex]

theorem daysInMonth_pos (year : ℤ) {month : ℕ} (h1 : 1 ≤ month) (h12 : month ≤ 12) :
    1 ≤ daysInMonth year month := by
  by_cases h2 : month = 2
  · rw [h2]
    simp only [daysInMonth]
    split <;> decide
  · interval_cases month <;> simp [daysInMonth] at h2 ⊢

theorem daysInMonth_le (year : ℤ) (month : ℕ) : daysInMonth year month ≤ 31 := by
  unfold daysInMonth
  split
  · split <;> decide
  all_goals decide

/-- The following day. -/
def next (d : GregorianDate) : GregorianDate :=
  if hd : d.day < daysInMonth d.year d.month then
    { d with day := d.day + 1, one_le_day := Nat.le_add_left .., day_le := hd }
  else if hm : d.month < 12 then
    ⟨d.year, d.month + 1, 1, Nat.le_add_left .., hm, le_rfl,
      daysInMonth_pos _ (Nat.le_add_left ..) hm⟩
  else ⟨d.year + 1, 1, 1, le_rfl, by decide, le_rfl, daysInMonth_pos _ le_rfl (by decide)⟩

/-! ## Counting days -/

/-- The days from the first of January of the year 1 to that of `year`. -/
def daysBeforeYear (year : ℤ) : ℤ :=
  365 * (year - 1) + (year - 1) / 4 - (year - 1) / 100 + (year - 1) / 400

/-- The days of the months before `month`. -/
def daysBeforeMonth (year : ℤ) : ℕ → ℕ
  | 0 => 0
  | month + 1 => daysBeforeMonth year month + daysInMonth year month

/-- The number of a date, 1 for the first of January of the year 1. -/
def dayNumber (d : GregorianDate) : ℤ :=
  daysBeforeYear d.year + daysBeforeMonth d.year d.month + d.day

theorem daysBeforeMonth_succ (year : ℤ) (month : ℕ) :
    daysBeforeMonth year (month + 1) = daysBeforeMonth year month + daysInMonth year month := rfl

theorem daysBeforeMonth_mono (year : ℤ) : Monotone (daysBeforeMonth year) :=
  monotone_nat_of_le_succ fun _ => Nat.le_add_right ..

/-- The twelve months make the year. -/
theorem daysBeforeYear_succ (year : ℤ) :
    daysBeforeYear (year + 1) = daysBeforeYear year + daysBeforeMonth year 13 := by
  by_cases hleap : IsLeap year
  · have hdays : daysBeforeMonth year 13 = 366 := by
      simp only [daysBeforeMonth, daysInMonth, if_pos hleap]
    rw [hdays]
    unfold IsLeap at hleap
    unfold daysBeforeYear
    omega
  · have hdays : daysBeforeMonth year 13 = 365 := by
      simp only [daysBeforeMonth, daysInMonth, if_neg hleap]
    rw [hdays]
    unfold IsLeap at hleap
    unfold daysBeforeYear
    omega

theorem daysBeforeYear_mono : Monotone daysBeforeYear := by
  refine monotone_int_of_le_succ fun year => ?_
  rw [daysBeforeYear_succ]
  omega

/-- **The following day has the following number**. -/
theorem dayNumber_next (d : GregorianDate) : d.next.dayNumber = d.dayNumber + 1 := by
  have hday := d.day_le
  have hmonth := d.month_le
  unfold next
  split
  · simp only [dayNumber]
    omega
  · split
    · -- the last day of a month before December
      simp only [dayNumber, daysBeforeMonth_succ]
      omega
    · -- the last day of the year
      have h12 : d.month = 12 := by omega
      have hfirst : daysBeforeMonth (d.year + 1) 1 = 0 := rfl
      simp only [dayNumber, daysBeforeYear_succ, daysBeforeMonth_succ d.year 12, hfirst, h12] at *
      omega

/-- A date is numbered within its month. -/
theorem dayNumber_le (d : GregorianDate) :
    d.dayNumber ≤ daysBeforeYear d.year + daysBeforeMonth d.year (d.month + 1) := by
  have hday := d.day_le
  rw [daysBeforeMonth_succ]
  unfold dayNumber
  omega

/-- **Later dates have larger numbers**. -/
theorem dayNumber_strictMono : StrictMono dayNumber := by
  intro d e hlt
  have hd := d.dayNumber_le
  have he := e.one_le_day
  rcases lt_iff.mp hlt with hyear | ⟨hyear, hmonth | ⟨hmonth, hday⟩⟩
  · have hmonths : daysBeforeMonth d.year (d.month + 1) ≤ daysBeforeMonth d.year 13 :=
      daysBeforeMonth_mono _ (Nat.succ_le_succ d.month_le)
    have hyears : daysBeforeYear (d.year + 1) ≤ daysBeforeYear e.year :=
      daysBeforeYear_mono hyear
    rw [daysBeforeYear_succ] at hyears
    unfold dayNumber at hd ⊢
    omega
  · have hmonths : daysBeforeMonth d.year (d.month + 1) ≤ daysBeforeMonth d.year e.month :=
      daysBeforeMonth_mono _ hmonth
    unfold dayNumber at hd ⊢
    rw [← hyear]
    omega
  · unfold dayNumber
    rw [← hyear, ← hmonth]
    omega

theorem lt_next (d : GregorianDate) : d < d.next := by
  rw [← dayNumber_strictMono.lt_iff_lt, dayNumber_next]
  omega

/-- The day of the week, 0 for Sunday: the first of January of the year 1 is a Monday. -/
def weekday (d : GregorianDate) : ℤ := d.dayNumber % 7

/-- A Thursday. -/
example : weekday ⟨1970, 1, 1, by decide, by decide, by decide, by decide⟩ = 4 := by decide

/-- The first of January of a year. -/
def newYear (year : ℤ) : GregorianDate :=
  ⟨year, 1, 1, le_rfl, by decide, le_rfl, daysInMonth_pos _ le_rfl (by decide)⟩

/-- A date is in the year that begins with the first of January. -/
theorem dayNumber_newYear (d : GregorianDate) :
    (newYear d.year).dayNumber ≤ d.dayNumber ∧ d.dayNumber < (newYear d.year).dayNumber + 366 := by
  have hle := d.dayNumber_le
  have hday := d.one_le_day
  have hmonths : daysBeforeMonth d.year (d.month + 1) ≤ daysBeforeMonth d.year 13 :=
    daysBeforeMonth_mono _ (Nat.succ_le_succ d.month_le)
  have hyear : daysBeforeMonth d.year 13 ≤ 366 := by
    simp only [daysBeforeMonth, daysInMonth]
    split <;> decide
  have hfirst : (newYear d.year).dayNumber = daysBeforeYear d.year + 1 := by
    simp only [dayNumber, newYear, daysBeforeMonth, daysInMonth]
    omega
  unfold dayNumber at hle hfirst ⊢
  omega

/-- **Every number from that of a date on is the number of a date**. -/
theorem exists_dayNumber (d : GregorianDate) {n : ℤ} (h : d.dayNumber ≤ n) :
    ∃ e, d ≤ e ∧ e.dayNumber = n := by
  induction n, h using Int.leInduction with
  | base => exact ⟨d, le_rfl, rfl⟩
  | succ n _ ih =>
    obtain ⟨e, hle, rfl⟩ := ih
    exact ⟨e.next, hle.trans e.lt_next.le, e.dayNumber_next⟩

end GregorianDate

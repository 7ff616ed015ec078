import MengSen.Lib.Gregorian
import MengSen.Lib.SInt
import Mathlib.Tactic.Ring

/-!
# Base.Date — dates as Julian day numbers

`base/Date.h` and `base/Date.cpp`.  An `int` expression is undefined when it overflows, so a result
that is defined had no intermediate value outside the 32-bit range.  The text form of a date and the
constructor from a `struct tm` are left out.
-/

namespace MengSen

/-- `Date::YearMonthDay`. -/
structure YearMonthDay where
  year : SInt 32
  month : SInt 32
  day : SInt 32

namespace detail

def getJulianDayNumber (year month day : SInt 32) : SInt 32 :=
  let a := (14 - month) / 12
  let y := year + 4800 - a
  let m := month + 12 * a - 3
  day + (153 * m + 2) / 5 + y * 365 + y / 4 - y / 100 + y / 400 - 32045

def getYearMonthDay (julianDayNumber : SInt 32) : YearMonthDay :=
  let a := julianDayNumber + 32044
  let b := (4 * a + 3) / 146097
  let c := a - (b * 146097) / 4
  let d := (4 * c + 3) / 1461
  let e := c - (1461 * d) / 4
  let m := (5 * e + 2) / 153
  { day := e - (153 * m + 2) / 5 + 1
    month := m + 3 - 12 * (m / 10)
    year := b * 100 + d - 4800 + m / 10 }

end detail

structure Date where
  julianDayNumber_ : SInt 32

namespace Date

def kDaysPerWeek : SInt 32 := 7

def kJulianDayOf1970_01_01 : SInt 32 := detail.getJulianDayNumber 1970 1 1

/-- `Date(int y, int m, int d)`. -/
def make (y m d : SInt 32) : Date := ⟨detail.getJulianDayNumber y m d⟩

def yearMonthDay (date : Date) : YearMonthDay := detail.getYearMonthDay date.julianDayNumber_

def weekDay (date : Date) : SInt 32 := (date.julianDayNumber_ + 1) % kDaysPerWeek

/-- `operator<`, `none` on an undefined number. -/
def less (x y : Date) : Option Bool := do
  return (← x.julianDayNumber_.val?) < (← y.julianDayNumber_.val?)

/-- `operator==`. -/
def equal (x y : Date) : Option Bool := do
  return (← x.julianDayNumber_.val?) == (← y.julianDayNumber_.val?)

end Date

/-! ## Julian day numbers of the calendar -/

/-- The Julian day number of a date: that of the first of January of the year 1 is 1721426. -/
def julianDay (date : GregorianDate) : ℤ := date.dayNumber + 1721425

theorem julianDay_next (date : GregorianDate) : julianDay date.next = julianDay date + 1 := by
  have hnext := date.dayNumber_next
  unfold julianDay
  omega

theorem julianDay_strictMono : StrictMono julianDay := fun _ _ hlt =>
  add_lt_add_left (GregorianDate.dayNumber_strictMono hlt) _

/-- The first date that the functions convert. -/
def firstDate : GregorianDate := ⟨-4800, 3, 1, by decide, by decide, by decide, by decide⟩

theorem julianDay_firstDate : julianDay firstDate = -32044 := by decide

/-- Every Julian day number from -32044 on is that of a date. -/
theorem exists_julianDay {jd : ℤ} (h : -32044 ≤ jd) : ∃ date, firstDate ≤ date ∧ julianDay date = jd := by
  have hfirst := julianDay_firstDate
  obtain ⟨date, hle, hnum⟩ := firstDate.exists_dayNumber (n := jd - 1721425) (by
    unfold julianDay at hfirst
    omega)
  refine ⟨date, hle, ?_⟩
  unfold julianDay
  omega

/-! ## Years from March on -/

/-- The year that begins in March, counted from -4800. -/
def marchYear (date : GregorianDate) : ℤ := date.year + 4800 - (14 - date.month) / 12

/-- The month in that year, 0 for March. -/
def marchMonth (date : GregorianDate) : ℤ := date.month + 12 * ((14 - date.month) / 12) - 3

/-- The day in that year, 0 for the first of March. -/
def marchDay (date : GregorianDate) : ℤ := date.day - 1 + (153 * marchMonth date + 2) / 5

theorem isLeap_add_4800 (year : ℤ) : IsLeap (year + 4800) ↔ IsLeap year := by
  unfold IsLeap
  omega

/-- From March to February the months before a month have `(153 * m + 2) / 5` days. -/
theorem daysBeforeMonth_march (year : ℤ) {month : ℕ} (h3 : 3 ≤ month) (h13 : month ≤ 13) :
    (GregorianDate.daysBeforeMonth year month : ℤ) =
      GregorianDate.daysBeforeMonth year 3 + (153 * (month - 3) + 2) / 5 := by
  interval_cases month <;> simp only [GregorianDate.daysBeforeMonth, daysInMonth] <;> omega

theorem daysBeforeMonth_january (year : ℤ) {month : ℕ} (h1 : 1 ≤ month) (h2 : month ≤ 2) :
    (GregorianDate.daysBeforeMonth year month : ℤ) + 306 = (153 * (month + 9) + 2) / 5 := by
  interval_cases month <;> simp only [GregorianDate.daysBeforeMonth, daysInMonth] <;> omega

/-- The first of March of a year, by the number of the year from -4800 on. -/
theorem daysBeforeYear_march (year : ℤ) :
    GregorianDate.daysBeforeYear year + GregorianDate.daysBeforeMonth year 3 =
      365 * (year + 4800) + (year + 4800) / 4 - (year + 4800) / 100 + (year + 4800) / 400 -
        1753470 := by
  have hmarch : GregorianDate.daysBeforeMonth year 3 = 31 + daysInMonth year 2 := rfl
  rw [hmarch]
  unfold GregorianDate.daysBeforeYear daysInMonth
  by_cases hleap : IsLeap year
  · simp only [if_pos hleap]
    unfold IsLeap at hleap
    omega
  · simp only [if_neg hleap]
    unfold IsLeap at hleap
    omega

/-- What the conversions use of a date. -/
structure MarchDate (date : GregorianDate) : Prop where
  month_nonneg : 0 ≤ marchMonth date
  month_le : marchMonth date ≤ 11
  month_eq : (date.month : ℤ) = marchMonth date + 3 - 12 * (marchMonth date / 10)
  year_eq : date.year = marchYear date - 4800 + marchMonth date / 10
  day_nonneg : 0 ≤ marchDay date
  /-- the last day is the leap day -/
  day_lt : marchDay date < 365 ∨ marchDay date = 365 ∧ IsLeap (marchYear date + 1)
  month_of_day : (5 * marchDay date + 2) / 153 = marchMonth date
  julianDay_eq : julianDay date = marchDay date + 365 * marchYear date + marchYear date / 4 -
    marchYear date / 100 + marchYear date / 400 - 32044

/-- From March on. -/
theorem marchDate_march (date : GregorianDate) (h3 : 3 ≤ date.month) : MarchDate date := by
  have h12 := date.month_le
  have hday1 := date.one_le_day
  have hday := date.day_le
  have hbefore := daysBeforeMonth_march date.year h3 (by omega)
  have hafter := daysBeforeMonth_march date.year (show 3 ≤ date.month + 1 by omega) (by omega)
  have hyear := daysBeforeYear_march date.year
  rw [GregorianDate.daysBeforeMonth_succ] at hafter
  have ha : (14 - (date.month : ℤ)) / 12 = 0 := by omega
  have hjulian : julianDay date = GregorianDate.daysBeforeYear date.year +
      GregorianDate.daysBeforeMonth date.year date.month + date.day + 1721425 := rfl
  constructor <;> simp only [marchDay, marchMonth, marchYear, ha, mul_zero, add_zero] <;> omega

/-- January and February belong to the year before. -/
theorem marchDate_january (date : GregorianDate) (h2 : date.month ≤ 2) : MarchDate date := by
  have h1 := date.one_le_month
  have hday1 := date.one_le_day
  have hday := date.day_le
  have hbefore := daysBeforeMonth_january date.year h1 h2
  have ha : (14 - (date.month : ℤ)) / 12 = 1 := by omega
  have hm : (date.month : ℤ) + 12 - 3 = date.month + 9 := by omega
  have hjulian : julianDay date = GregorianDate.daysBeforeYear date.year +
      GregorianDate.daysBeforeMonth date.year date.month + date.day + 1721425 := rfl
  unfold GregorianDate.daysBeforeYear at hjulian
  have hlast : date.day ≤ 28 ∨ date.month = 1 ∧ date.day ≤ 31 ∨
      date.month = 2 ∧ date.day = 29 ∧ IsLeap (date.year + 4800) := by
    rw [isLeap_add_4800]
    obtain hm | hm : date.month = 1 ∨ date.month = 2 := by omega
    · rw [hm] at hday
      exact .inr (.inl ⟨hm, hday⟩)
    · rw [hm] at hday
      by_cases hleap : IsLeap date.year
      · simp only [daysInMonth, if_pos hleap] at hday
        rcases hday.lt_or_eq with hlt | heq
        · exact .inl (Nat.le_of_lt_succ hlt)
        · exact .inr (.inr ⟨hm, heq, hleap⟩)
      · simp only [daysInMonth, if_neg hleap] at hday
        exact .inl hday
  have hday31 : (date.day : ℤ) ≤ 31 ∧ (date.month = 2 → (date.day : ℤ) ≤ 29) := by
    rcases hlast with h | ⟨hjan, h⟩ | ⟨-, h, -⟩ <;> omega
  constructor <;> simp only [marchDay, marchMonth, marchYear, ha, mul_one, hm]
  case day_lt =>
    rcases hlast with h | h | ⟨hfeb, h29, hleap⟩
    · left
      omega
    · left
      omega
    · right
      refine ⟨by omega, ?_⟩
      rwa [sub_add_cancel]
  all_goals omega

theorem marchDate (date : GregorianDate) : MarchDate date :=
  (le_or_gt 3 date.month).elim (marchDate_march date) fun h2 =>
    marchDate_january date (Nat.le_of_lt_succ h2)

/-! ## The conversions -/

/-- The dates for which no intermediate value overflows. -/
structure Convertible (date : GregorianDate) : Prop where
  first_le : firstDate ≤ date
  le_max : 4 * (julianDay date + 32044) + 3 ≤ 2 ^ 31 - 1

namespace Convertible

variable {date : GregorianDate}

theorem neg_le (h : Convertible date) : -32044 ≤ julianDay date := by
  rw [← julianDay_firstDate]
  exact julianDay_strictMono.monotone h.first_le

theorem marchYear_nonneg (h : Convertible date) : 0 ≤ marchYear date := by
  have hmonth := date.one_le_month
  have hfirst : ¬ date < firstDate := not_lt.mpr h.first_le
  rw [GregorianDate.lt_iff] at hfirst
  simp only [firstDate] at hfirst
  unfold marchYear
  omega

theorem marchYear_le (h : Convertible date) : 365 * marchYear date ≤ 536870911 := by
  have hmarch := marchDate date
  have heq := hmarch.julianDay_eq
  have hday := hmarch.day_nonneg
  have hyear := h.marchYear_nonneg
  have hmax := h.le_max
  omega

end Convertible

theorem quarters_ediv (k x : ℤ) : (4 * k + 1) * x / 4 = k * x + x / 4 := by
  have hsplit : (4 * k + 1) * x = x + k * x * 4 := by ring
  rw [hsplit, Int.add_mul_ediv_right _ _ (by decide), add_comm]

/-- Quarters of `4 * k + 1` days, each fourth one with a day more, are told apart by the division. -/
theorem quarters_div {k x r : ℤ} (hr : 0 ≤ r) (hk : r < k ∨ r = k ∧ x % 4 = 3) :
    (4 * (r + (4 * k + 1) * x / 4) + 3) / (4 * k + 1) = x := by
  have hsum : 4 * (r + (k * x + x / 4)) + 3 = 4 * r + 3 - x % 4 + (4 * k + 1) * x := by
    have hmod := Int.mul_ediv_add_emod x 4
    have hmul : (4 * k + 1) * x = 4 * (k * x) + x := by ring
    omega
  have hrest : (4 * r + 3 - x % 4) / (4 * k + 1) = 0 :=
    Int.ediv_eq_zero_of_lt (by omega) (by omega)
  rw [quarters_ediv, hsum, Int.add_mul_ediv_left _ _ (by omega), hrest, zero_add]

/-- The values that `getYearMonthDay` computes on the way: the century, the day in it, the year in
it and the day in the year. -/
theorem centuries (date : GregorianDate) :
    (4 * (julianDay date + 32044) + 3) / 146097 = marchYear date / 100 ∧
      julianDay date + 32044 - marchYear date / 100 * 146097 / 4 =
        marchDay date + 1461 * (marchYear date % 100) / 4 ∧
      (4 * (marchDay date + 1461 * (marchYear date % 100) / 4) + 3) / 1461 =
        marchYear date % 100 := by
  have hmarch := marchDate date
  have heq := hmarch.julianDay_eq
  have hday := hmarch.day_nonneg
  have hlt := hmarch.day_lt
  unfold IsLeap at hlt
  set year := marchYear date with hyear
  -- the leap days of the years before make up the quarters
  have hcentury : 146097 * (year / 100) / 4 = 36524 * (year / 100) + year / 100 / 4 :=
    quarters_ediv 36524 _
  have hyears : 1461 * (year % 100) / 4 = 365 * (year % 100) + year % 100 / 4 :=
    quarters_ediv 365 _
  have hsum : julianDay date + 32044 = marchDay date + 1461 * (year % 100) / 4 +
      146097 * (year / 100) / 4 := by
    rw [hcentury, hyears]
    omega
  refine ⟨?_, ?_, ?_⟩
  · rw [hsum]
    exact quarters_div (k := 36524) (by omega) (by omega)
  · rw [hsum, mul_comm (year / 100), add_sub_cancel_right]
  · exact quarters_div (k := 365) hday (by omega)

/-- `ymd` is defined and is the date. -/
structure YearMonthDay.Is (ymd : YearMonthDay) (date : GregorianDate) : Prop where
  year : ymd.year.Is date.year
  month : ymd.month.Is date.month
  day : ymd.day.Is date.day

/-- **`getJulianDayNumber`** overflows nowhere and counts days of the calendar. -/
theorem getJulianDayNumber_is {date : GregorianDate} (h : Convertible date) {ymd : YearMonthDay}
    (hymd : ymd.Is date) :
    (detail.getJulianDayNumber ymd.year ymd.month ymd.day).Is (julianDay date) := by
  have hmarch := marchDate date
  have heq := hmarch.julianDay_eq
  have hyear := h.marchYear_nonneg
  have hyear_le := h.marchYear_le
  have hneg := h.neg_le
  have hmax := h.le_max
  have hm0 := hmarch.month_nonneg
  have hm11 := hmarch.month_le
  have hmonth1 := date.one_le_month
  have hmonth12 := date.month_le
  have hday1 := date.one_le_day
  have hmonth := hmarch.month_eq
  have hyeq := hmarch.year_eq
  have hlt := hmarch.day_lt
  have lit : ∀ {n : ℕ}, Fits 32 n → (OfNat.ofNat n : SInt 32).Is (OfNat.ofNat n : ℤ) :=
    SInt.is_ofNat
  have hday : marchDay date = date.day - 1 + (153 * marchMonth date + 2) / 5 := rfl
  have ha : ((14 - ymd.month) / 12).Is ((14 - date.month) / 12) :=
    ((lit (by decide)).sub hymd.month (fits_32.mpr (by omega))).div (lit (by decide))
      (by omega) (by decide)
  have hy : (ymd.year + 4800 - (14 - ymd.month) / 12).Is (marchYear date) :=
    (hymd.year.add (lit (by decide)) (fits_32.mpr (by omega))).sub ha
      (fits_32.mpr (by unfold marchYear at *; omega))
  have hm : (ymd.month + 12 * ((14 - ymd.month) / 12) - 3).Is (marchMonth date) :=
    (hymd.month.add ((lit (by decide)).mul ha (fits_32.mpr (by omega)))
      (fits_32.mpr (by omega))).sub (lit (by decide))
      (fits_32.mpr (by unfold marchMonth at *; omega))
  have hd : (ymd.day + (153 * (ymd.month + 12 * ((14 - ymd.month) / 12) - 3) + 2) / 5).Is
      (date.day + (153 * marchMonth date + 2) / 5) :=
    hymd.day.add ((((lit (by decide)).mul hm (fits_32.mpr (by omega))).add (lit (by decide))
      (fits_32.mpr (by omega))).div (lit (by decide)) (by omega) (by decide))
      (fits_32.mpr (by omega))
  have hval : (date.day : ℤ) + (153 * marchMonth date + 2) / 5 + marchYear date * 365 +
      marchYear date / 4 - marchYear date / 100 + marchYear date / 400 - 32045 =
        julianDay date := by omega
  rw [← hval]
  exact (((((hd.add (hy.mul (lit (by decide)) (fits_32.mpr (by omega)))
    (fits_32.mpr (by omega))).add (hy.div (lit (by decide)) hyear (by decide))
    (fits_32.mpr (by omega))).sub (hy.div (lit (by decide)) hyear (by decide))
    (fits_32.mpr (by omega))).add (hy.div (lit (by decide)) hyear (by decide))
    (fits_32.mpr (by omega))).sub (lit (by decide)) (fits_32.mpr (by omega)))

/-- **`getYearMonthDay`** overflows nowhere and finds the date. -/
theorem getYearMonthDay_is {date : GregorianDate} (h : Convertible date) {jd : SInt 32}
    (hjd : jd.Is (julianDay date)) : (detail.getYearMonthDay jd).Is date := by
  have hmarch := marchDate date
  obtain ⟨hb, hc, hd⟩ := centuries date
  have hneg := h.neg_le
  have hmax := h.le_max
  have hm0 := hmarch.month_nonneg
  have hm11 := hmarch.month_le
  have hday0 := hmarch.day_nonneg
  have hlt := hmarch.day_lt
  have hyear := h.marchYear_nonneg
  have hyear_le := h.marchYear_le
  have lit : ∀ {n : ℕ}, Fits 32 n → (OfNat.ofNat n : SInt 32).Is (OfNat.ofNat n : ℤ) :=
    SInt.is_ofNat
  unfold detail.getYearMonthDay
  set a := jd + 32044
  set b := (4 * a + 3) / 146097
  set c := a - b * 146097 / 4
  set d := (4 * c + 3) / 1461
  set e := c - 1461 * d / 4
  set m := (5 * e + 2) / 153
  have ha : a.Is (julianDay date + 32044) :=
    hjd.add (lit (by decide)) (fits_32.mpr (by omega))
  have hb : b.Is (marchYear date / 100) := hb ▸
    (((lit (by decide)).mul ha (fits_32.mpr (by omega))).add (lit (by decide))
      (fits_32.mpr (by omega))).div (lit (by decide)) (by omega) (by decide)
  have hc : c.Is (marchDay date + 1461 * (marchYear date % 100) / 4) := hc ▸
    ha.sub ((hb.mul (lit (by decide)) (fits_32.mpr (by omega))).div (lit (by decide))
      (by omega) (by decide)) (fits_32.mpr (by omega))
  have hd : d.Is (marchYear date % 100) := hd ▸
    (((lit (by decide)).mul hc (fits_32.mpr (by omega))).add (lit (by decide))
      (fits_32.mpr (by omega))).div (lit (by decide)) (by omega) (by decide)
  have he : e.Is (marchDay date) := add_sub_cancel_right (marchDay date) _ ▸
    hc.sub (((lit (by decide)).mul hd (fits_32.mpr (by omega))).div (lit (by decide))
      (by omega) (by decide)) (fits_32.mpr (by omega))
  have hm : m.Is (marchMonth date) := hmarch.month_of_day ▸
    (((lit (by decide)).mul he (fits_32.mpr (by omega))).add (lit (by decide))
      (fits_32.mpr (by omega))).div (lit (by decide)) (by omega) (by decide)
  have hm10 : (m / 10).Is (marchMonth date / 10) := hm.div (lit (by decide)) hm0 (by decide)
  have hday : marchDay date = date.day - 1 + (153 * marchMonth date + 2) / 5 := rfl
  refine ⟨?_, ?_, ?_⟩
  · have hval : marchYear date / 100 * 100 + marchYear date % 100 - 4800 + marchMonth date / 10 =
        date.year := by
      have := hmarch.year_eq
      omega
    rw [← hval]
    exact (((hb.mul (lit (by decide)) (fits_32.mpr (by omega))).add hd
      (fits_32.mpr (by omega))).sub (lit (by decide)) (fits_32.mpr (by omega))).add hm10
      (fits_32.mpr (by omega))
  · rw [hmarch.month_eq]
    exact (hm.add (lit (by decide)) (fits_32.mpr (by omega))).sub
      ((lit (by decide)).mul hm10 (fits_32.mpr (by omega))) (fits_32.mpr (by omega))
  · have hval : marchDay date - (153 * marchMonth date + 2) / 5 + 1 = date.day := by omega
    rw [← hval]
    exact (he.sub ((((lit (by decide)).mul hm (fits_32.mpr (by omega))).add
      (lit (by decide)) (fits_32.mpr (by omega))).div (lit (by decide)) (by omega) (by decide))
      (fits_32.mpr (by omega))).add (lit (by decide)) (fits_32.mpr (by omega))

/-- In the range of the day numbers every number is that of a date that converts. -/
theorem exists_convertible {jd : ℤ} (hneg : -32044 ≤ jd)
    (hmax : 4 * (jd + 32044) + 3 ≤ 2 ^ 31 - 1) : ∃ date, Convertible date ∧ julianDay date = jd := by
  obtain ⟨date, hfirst, rfl⟩ := exists_julianDay hneg
  exact ⟨date, ⟨hfirst, hmax⟩, rfl⟩

/-- A day number within the range converts to its date. -/
theorem getYearMonthDay_ofInt {date : GregorianDate} (h : Convertible date) :
    (detail.getYearMonthDay (.ofInt 32 (julianDay date))).Is date := by
  have hneg := h.neg_le
  have hmax := h.le_max
  exact getYearMonthDay_is h (SInt.is_ofInt (fits_32.mpr (by omega)))

theorem YearMonthDay.Is.unique {ymd : YearMonthDay} {d e : GregorianDate} (hd : ymd.Is d)
    (he : ymd.Is e) : d = e :=
  GregorianDate.ext (hd.year.unique he.year) (Int.ofNat.inj (hd.month.unique he.month))
    (Int.ofNat.inj (hd.day.unique he.day))

/-- The comparisons of dates whose numbers are defined. -/
theorem less_eq {x y : Date} {a b : ℤ} (hx : x.julianDayNumber_.Is a)
    (hy : y.julianDayNumber_.Is b) :
    x.less y = some (decide (a < b)) ∧ x.equal y = some (decide (a = b)) := by
  unfold SInt.Is at hx hy
  unfold Date.less Date.equal
  rw [hx, hy]
  exact ⟨rfl, rfl⟩

/-- **Date is a bijection with the Gregorian calendar**: the two conversions are inverse to each
other, consecutive numbers are consecutive days, and the operators order dates as the calendar
does.  All results are defined, so nothing overflows on the way. -/
theorem date_bijection :
    (∀ date, Convertible date → ∀ ymd : YearMonthDay, ymd.Is date →
      (detail.getJulianDayNumber ymd.year ymd.month ymd.day).Is (julianDay date) ∧
      (Date.make ymd.year ymd.month ymd.day).yearMonthDay.Is date) ∧
    (∀ jd : ℤ, -32044 ≤ jd → 4 * (jd + 32044) + 3 ≤ 2 ^ 31 - 1 →
      ∃ date, (detail.getYearMonthDay (.ofInt 32 jd)).Is date ∧
        ∀ ymd : YearMonthDay, ymd.Is date →
          (detail.getJulianDayNumber ymd.year ymd.month ymd.day).Is jd) ∧
    (∀ (jd : ℤ) (date : GregorianDate), -32044 ≤ jd → 4 * (jd + 1 + 32044) + 3 ≤ 2 ^ 31 - 1 →
      (detail.getYearMonthDay (.ofInt 32 jd)).Is date →
      (detail.getYearMonthDay (.ofInt 32 (jd + 1))).Is date.next) ∧
    ∀ d e, Convertible d → Convertible e → ∀ x y : YearMonthDay, x.Is d → y.Is e →
      (Date.make x.year x.month x.day).less (Date.make y.year y.month y.day) =
        some (decide (d < e)) ∧
      (Date.make x.year x.month x.day).equal (Date.make y.year y.month y.day) =
        some (decide (d = e)) := by
  refine ⟨fun date h ymd hymd => ?_, fun jd hneg hmax => ?_, fun jd date hneg hmax hdate => ?_,
    fun d e hd he x y hx hy => ?_⟩
  · have hjd := getJulianDayNumber_is h hymd
    exact ⟨hjd, getYearMonthDay_is h hjd⟩
  · obtain ⟨date, h, rfl⟩ := exists_convertible hneg hmax
    exact ⟨date, getYearMonthDay_ofInt h, fun ymd hymd => getJulianDayNumber_is h hymd⟩
  · obtain ⟨date', h, rfl⟩ := exists_convertible hneg (by omega)
    obtain rfl := hdate.unique (getYearMonthDay_ofInt h)
    rw [← julianDay_next]
    refine getYearMonthDay_ofInt ⟨h.first_le.trans date.lt_next.le, ?_⟩
    rwa [julianDay_next]
  · obtain ⟨hless, hequal⟩ := less_eq (x := Date.make x.year x.month x.day)
      (y := Date.make y.year y.month y.day) (getJulianDayNumber_is hd hx)
      (getJulianDayNumber_is he hy)
    refine ⟨hless.trans ?_, hequal.trans ?_⟩
    · rw [decide_eq_decide.mpr julianDay_strictMono.lt_iff_lt]
    · rw [decide_eq_decide.mpr julianDay_strictMono.injective.eq_iff]

/-- The leap day of 2000. -/
theorem date_bijection_leapDay : (Date.make 2000 2 29).yearMonthDay.Is
    ⟨2000, 2, 29, by decide, by decide, by decide, by decide⟩ :=
  (date_bijection.1 ⟨2000, 2, 29, by decide, by decide, by decide, by decide⟩
    ⟨by decide, by decide⟩ ⟨2000, 2, 29⟩ ⟨rfl, rfl, rfl⟩).2

end MengSen

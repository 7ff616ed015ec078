import MengSen.Base.Date
import MengSen.Lib.Word

/-!
# Base.UtcTime — broken-down UTC time

`TimeZone::toUtcTime` and `TimeZone::fromUtcTime` of `base/TimeZone.cpp`.  A `time_t` has 64 bits;
the fields of a `struct tm` are `int` expressions.  The quotient of a negative time truncates
towards zero and is corrected to the floor; the conversions to `int` keep the low bits.
-/

namespace MengSen

/-- The `struct tm` of these functions. -/
structure UtcTm where
  tm_sec : SInt 32
  tm_min : SInt 32
  tm_hour : SInt 32
  tm_mday : SInt 32
  tm_mon : SInt 32
  tm_year : SInt 32
  tm_wday : SInt 32
  tm_yday : SInt 32
  tm_isdst : SInt 32
  tm_gmtoff : SInt 64
  tm_zone : String

/-- `memZero(&utc, sizeof(utc)); utc.tm_zone = "GMT"`. -/
def UtcTm.zero : UtcTm := ⟨0, 0, 0, 0, 0, 0, 0, 0, 0, 0, "GMT"⟩

/-- `const int kSecondsPerDay = 24 * 60 * 60`. -/
def kSecondsPerDay : SInt 32 := 24 * 60 * 60

/-- Conversion of an `unsigned` to `int`. -/
def ofUnsigned (n : ℕ) : SInt 32 := .ofInt 32 (Word.toSigned 32 n)

/-- `detail::fillHMS`, whose parameter is `unsigned`. -/
def detail.fillHMS (seconds : ℕ) (utc : UtcTm) : UtcTm :=
  let minutes := seconds / 60
  { utc with
    tm_sec := ofUnsigned (seconds % 60)
    tm_min := ofUnsigned (minutes % 60)
    tm_hour := ofUnsigned (minutes / 60) }

/-- `toUtcTime`, `none` when a branch or a conversion is on an undefined value. -/
def toUtcTime (secondsSinceEpoch : SInt 64) (yday : Bool) : Option UtcTm := do
  let seconds := (secondsSinceEpoch % kSecondsPerDay.cast 64).cast 32
  let days := (secondsSinceEpoch / kSecondsPerDay.cast 64).cast 32
  let negative ← seconds.val?.map fun v => decide (v < 0)
  let seconds := if negative then seconds + kSecondsPerDay else seconds
  let days := if negative then days - 1 else days
  let secs ← seconds.val?
  let utc := detail.fillHMS (Word.ofSigned 32 secs) .zero
  let date : Date := ⟨days + Date.kJulianDayOf1970_01_01⟩
  let ymd := date.yearMonthDay
  let utc := { utc with
    tm_year := ymd.year - 1900
    tm_mon := ymd.month - 1
    tm_mday := ymd.day
    tm_wday := date.weekDay }
  if yday then
    let startOfYear := Date.make ymd.year 1 1
    return { utc with tm_yday := date.julianDayNumber_ - startOfYear.julianDayNumber_ }
  else return utc

/-- `fromUtcTime(int year, int month, int day, int hour, int minute, int seconds)`. -/
def fromUtcTimeFields (year month day hour minute seconds : SInt 32) : SInt 64 :=
  let date := Date.make year month day
  let secondsInDay := hour * 3600 + minute * 60 + seconds
  let days := (date.julianDayNumber_ - Date.kJulianDayOf1970_01_01).cast 64
  days * kSecondsPerDay.cast 64 + secondsInDay.cast 64

/-- `fromUtcTime(const struct tm& utc)`. -/
def fromUtcTime (utc : UtcTm) : SInt 64 :=
  fromUtcTimeFields (utc.tm_year + 1900) (utc.tm_mon + 1) utc.tm_mday utc.tm_hour utc.tm_min
    utc.tm_sec

/-! ## Times of the calendar -/

/-- A time of day of a date. -/
structure CivilTime where
  date : GregorianDate
  hour : ℕ
  min : ℕ
  sec : ℕ
  hour_lt : hour < 24
  min_lt : min < 60
  sec_lt : sec < 60

namespace CivilTime

/-- The number of days since 1970-01-01. -/
def days (t : CivilTime) : ℤ := julianDay t.date - 2440588

/-- The number of seconds since 1970-01-01. -/
def seconds (t : CivilTime) : ℤ := t.days * 86400 + t.hour * 3600 + t.min * 60 + t.sec

/-- The dates in the range of the conversions. -/
def InRange (t : CivilTime) : Prop := -2440588 ≤ t.days ∧ t.days ≤ 534398279

variable {t : CivilTime}

theorem InRange.convertible (h : t.InRange) : Convertible t.date := by
  have hfirst := julianDay_firstDate
  unfold InRange days at h
  refine ⟨?_, by omega⟩
  rw [← julianDay_strictMono.le_iff_le]
  omega

/-- The floor of the quotient is the number of days. -/
theorem seconds_ediv (t : CivilTime) : t.seconds / 86400 = t.days := by
  have hh := t.hour_lt
  have hm := t.min_lt
  have hs := t.sec_lt
  unfold seconds
  omega

/-- **Every time in the range is a time of the calendar**. -/
theorem exists_seconds {s : ℤ} (hlo : -2440588 ≤ s / 86400) (hhi : s / 86400 ≤ 534398279) :
    ∃ t : CivilTime, t.InRange ∧ t.seconds = s := by
  obtain ⟨date, -, hjd⟩ := exists_julianDay (show -32044 ≤ s / 86400 + 2440588 by omega)
  have hrest : 0 ≤ s % 86400 ∧ s % 86400 < 86400 := by omega
  obtain ⟨r, hr⟩ := Int.eq_ofNat_of_zero_le hrest.1
  have hlt : r < 86400 := by omega
  refine ⟨⟨date, r / 60 / 60, r / 60 % 60, r % 60, by omega, by omega, by omega⟩, ?_, ?_⟩
  · unfold InRange days
    simp only
    omega
  · unfold seconds days
    simp only
    omega

end CivilTime

/-- The fields of `utc` for the date and the time of day are defined and are those of `t`. -/
structure UtcTm.Is (utc : UtcTm) (t : CivilTime) : Prop where
  year : utc.tm_year.Is (t.date.year - 1900)
  mon : utc.tm_mon.Is (t.date.month - 1)
  mday : utc.tm_mday.Is t.date.day
  hour : utc.tm_hour.Is t.hour
  min : utc.tm_min.Is t.min
  sec : utc.tm_sec.Is t.sec

theorem kSecondsPerDay_is : kSecondsPerDay.Is 86400 := rfl

theorem kJulianDayOf1970_01_01_is : Date.kJulianDayOf1970_01_01.Is 2440588 := rfl

theorem fits_64 {v : ℤ} : Fits 64 v ↔ -9223372036854775808 ≤ v ∧ v < 9223372036854775808 := by
  unfold Fits
  omega

/-- **`fromUtcTime`** is the number of seconds of the time. -/
theorem fromUtcTime_is {utc : UtcTm} {t : CivilTime} (ht : t.InRange) (h : utc.Is t) :
    (fromUtcTime utc).Is t.seconds := by
  have hconv := ht.convertible
  have hyear := hconv.marchYear_nonneg
  have hyear_le := hconv.marchYear_le
  have hmonth1 := t.date.one_le_month
  have hmonth12 := t.date.month_le
  have hh := t.hour_lt
  have hm := t.min_lt
  have hs := t.sec_lt
  have lit : ∀ {n : ℕ}, Fits 32 n → (OfNat.ofNat n : SInt 32).Is (OfNat.ofNat n : ℤ) :=
    SInt.is_ofNat
  unfold marchYear at hyear hyear_le
  have hymd : (⟨utc.tm_year + 1900, utc.tm_mon + 1, utc.tm_mday⟩ : YearMonthDay).Is t.date := by
    refine ⟨?_, ?_, h.mday⟩
    · rw [← sub_add_cancel t.date.year 1900]
      exact h.year.add (lit (by decide)) (fits_32.mpr (by omega))
    · rw [← sub_add_cancel (t.date.month : ℤ) 1]
      exact h.mon.add (lit (by decide)) (fits_32.mpr (by omega))
  have hjd := getJulianDayNumber_is hconv hymd
  have hdays : (((Date.make (utc.tm_year + 1900) (utc.tm_mon + 1) utc.tm_mday).julianDayNumber_ -
      Date.kJulianDayOf1970_01_01).cast 64).Is t.days := by
    unfold CivilTime.InRange CivilTime.days at ht
    exact (hjd.sub kJulianDayOf1970_01_01_is (fits_32.mpr (by omega))).cast (by decide)
      (fits_64.mpr (by omega))
  have hsecs : ((utc.tm_hour * 3600 + utc.tm_min * 60 + utc.tm_sec).cast 64).Is
      (t.hour * 3600 + t.min * 60 + t.sec) :=
    (((h.hour.mul (lit (by decide)) (fits_32.mpr (by omega))).add
      (h.min.mul (lit (by decide)) (fits_32.mpr (by omega))) (fits_32.mpr (by omega))).add h.sec
      (fits_32.mpr (by omega))).cast (by decide) (fits_64.mpr (by omega))
  have hval : t.days * 86400 + (t.hour * 3600 + t.min * 60 + t.sec) = t.seconds := by
    unfold CivilTime.seconds
    omega
  unfold CivilTime.InRange at ht
  rw [← hval]
  exact (hdays.mul (kSecondsPerDay_is.cast (by decide) (by decide)) (fits_64.mpr (by omega))).add
    hsecs (fits_64.mpr (by omega))

/-! ## From seconds to fields -/

theorem ofUnsigned_is {n : ℕ} (h : n < 2 ^ 31) : (ofUnsigned n).Is n := by
  have hval : Word.toSigned 32 n = n := Word.toSigned_of_lt (by omega)
  unfold ofUnsigned
  rw [hval]
  exact SInt.is_ofInt (fits_32.mpr (by omega))

/-- The time of day of `t`, as one number. -/
def CivilTime.secondOfDay (t : CivilTime) : ℕ := t.hour * 3600 + t.min * 60 + t.sec

theorem CivilTime.seconds_emod (t : CivilTime) : t.seconds % 86400 = t.secondOfDay := by
  have hh := t.hour_lt
  have hm := t.min_lt
  have hs := t.sec_lt
  unfold seconds secondOfDay
  omega

/-- `fillHMS` takes the number apart. -/
theorem fillHMS_is (t : CivilTime) (utc : UtcTm) :
    (detail.fillHMS t.secondOfDay utc).tm_hour.Is t.hour ∧
      (detail.fillHMS t.secondOfDay utc).tm_min.Is t.min ∧
      (detail.fillHMS t.secondOfDay utc).tm_sec.Is t.sec := by
  have hh := t.hour_lt
  have hm := t.min_lt
  have hs := t.sec_lt
  have hhour : t.secondOfDay / 60 / 60 = t.hour := by
    unfold CivilTime.secondOfDay
    omega
  have hmin : t.secondOfDay / 60 % 60 = t.min := by
    unfold CivilTime.secondOfDay
    omega
  have hsec : t.secondOfDay % 60 = t.sec := by
    unfold CivilTime.secondOfDay
    omega
  simp only [detail.fillHMS, hhour, hmin, hsec]
  exact ⟨ofUnsigned_is (by omega), ofUnsigned_is (by omega), ofUnsigned_is (by omega)⟩

/-- The quotient and the remainder before the correction. -/
theorem seconds_days_is {x : SInt 64} {t : CivilTime} (ht : t.InRange) (hx : x.Is t.seconds) :
    ((x % kSecondsPerDay.cast 64).cast 32).Is (t.seconds.tmod 86400) ∧
      ((x / kSecondsPerDay.cast 64).cast 32).Is (t.seconds.tdiv 86400) := by
  have hday : (kSecondsPerDay.cast 64).Is 86400 := kSecondsPerDay_is.cast (by decide) (by decide)
  have hdiv := t.seconds_ediv
  have hlo := Int.lt_tmod_of_pos t.seconds (b := 86400) (by decide)
  have hhi := Int.tmod_lt_of_pos t.seconds (b := 86400) (by decide)
  have hsum := Int.mul_tdiv_add_tmod t.seconds 86400
  unfold CivilTime.InRange at ht
  exact ⟨(hx.tmod hday (by decide)).cast (by decide) (fits_32.mpr (by omega)),
    (hx.tdiv hday (by decide)).cast (by decide) (fits_32.mpr (by omega))⟩

/-- The fields that `toUtcTime` computes from the corrected number of days and the time of day. -/
def utcOf (days : SInt 32) (secs : ℕ) (yday : Bool) : UtcTm :=
  let utc := detail.fillHMS secs .zero
  let date : Date := ⟨days + Date.kJulianDayOf1970_01_01⟩
  { utc with
    tm_year := date.yearMonthDay.year - 1900
    tm_mon := date.yearMonthDay.month - 1
    tm_mday := date.yearMonthDay.day
    tm_wday := date.weekDay
    tm_yday :=
      if yday then
        date.julianDayNumber_ - (Date.make date.yearMonthDay.year 1 1).julianDayNumber_
      else utc.tm_yday }

/-- The correction gives the floor of the quotient and its remainder. -/
theorem toUtcTime_eq {x : SInt 64} {t : CivilTime} (ht : t.InRange) (hx : x.Is t.seconds)
    (yday : Bool) : ∃ days : SInt 32, days.Is t.days ∧
      toUtcTime x yday = some (utcOf days t.secondOfDay yday) := by
  obtain ⟨hsec, hdays⟩ := seconds_days_is ht hx
  have hmod := t.seconds_emod
  have hdiv := t.seconds_ediv
  have hh := t.hour_lt
  have hm := t.min_lt
  have hs := t.sec_lt
  have hlt : t.secondOfDay < 86400 := by
    unfold CivilTime.secondOfDay
    omega
  have hword : Word.ofSigned 32 (t.secondOfDay : ℤ) = t.secondOfDay :=
    Word.ofSigned_natCast (by omega)
  unfold CivilTime.InRange at ht
  have hval : ((x % kSecondsPerDay.cast 64).cast 32).val? = some (t.seconds.tmod 86400) := hsec
  by_cases hneg : t.seconds.tmod 86400 < 0
  · obtain ⟨hq, hr⟩ := SInt.floor_of_tmod_neg (a := t.seconds) (b := 86400) (by decide) hneg
    have hsec' : ((x % kSecondsPerDay.cast 64).cast 32 + kSecondsPerDay).val? =
        some (t.secondOfDay : ℤ) := by
      rw [← hmod, ← hr]
      exact hsec.add kSecondsPerDay_is (fits_32.mpr (by omega))
    refine ⟨(x / kSecondsPerDay.cast 64).cast 32 - 1, ?_, ?_⟩
    · rw [← hdiv, ← hq]
      exact hdays.sub (SInt.is_ofNat (by decide)) (fits_32.mpr (by omega))
    · unfold toUtcTime
      simp only [hval, Option.map_some, Option.bind_eq_bind, Option.bind_some, hneg, decide_true,
        if_true, hsec', hword]
      cases yday <;> rfl
  · obtain ⟨hq, hr⟩ :=
      SInt.floor_of_tmod_nonneg (a := t.seconds) (b := 86400) (by decide) (not_lt.mp hneg)
    have hsec' : ((x % kSecondsPerDay.cast 64).cast 32).val? = some (t.secondOfDay : ℤ) := by
      rw [← hmod, ← hr]
      exact hsec
    refine ⟨(x / kSecondsPerDay.cast 64).cast 32, ?_, ?_⟩
    · rw [← hdiv, ← hq]
      exact hdays
    · have hnn : ¬ (t.secondOfDay : ℤ) < 0 := by omega
      unfold toUtcTime
      simp only [hsec', Option.map_some, Option.bind_eq_bind, Option.bind_some, hnn, decide_false,
        Bool.false_eq_true, if_false, hword]
      cases yday <;> rfl

/-- The days from the first of January of the year to the date. -/
def CivilTime.dayOfYear (t : CivilTime) : ℤ :=
  t.date.dayNumber - (GregorianDate.newYear t.date.year).dayNumber

/-- The first of January of a year in the range converts as well. -/
theorem CivilTime.InRange.convertible_newYear {t : CivilTime} (ht : t.InRange) :
    Convertible (GregorianDate.newYear t.date.year) := by
  have hfirst := julianDay_firstDate
  obtain ⟨hle, hlt⟩ := t.date.dayNumber_newYear
  unfold InRange days at ht
  unfold julianDay at ht hfirst
  refine ⟨?_, ?_⟩
  · rw [← julianDay_strictMono.le_iff_le]
    unfold julianDay
    omega
  · unfold julianDay
    omega

/-- The fields computed from the days and the time of day are those of the time. -/
theorem utcOf_is {days : SInt 32} {t : CivilTime} (ht : t.InRange) (hdays : days.Is t.days)
    (yday : Bool) : (utcOf days t.secondOfDay yday).Is t ∧
      (utcOf days t.secondOfDay yday).tm_wday.Is t.date.weekday ∧
      (utcOf days t.secondOfDay yday).tm_yday.Is (if yday then t.dayOfYear else 0) := by
  have hconv := ht.convertible
  have hyear := hconv.marchYear_nonneg
  have hyear_le := hconv.marchYear_le
  have hmonth1 := t.date.one_le_month
  have hmonth12 := t.date.month_le
  have lit : ∀ {n : ℕ}, Fits 32 n → (OfNat.ofNat n : SInt 32).Is (OfNat.ofNat n : ℤ) :=
    SInt.is_ofNat
  unfold marchYear at hyear hyear_le
  obtain ⟨hhour, hmin, hsec⟩ := fillHMS_is t .zero
  have hrange := ht
  unfold CivilTime.InRange CivilTime.days at hrange
  have hjd : (days + Date.kJulianDayOf1970_01_01).Is (julianDay t.date) := by
    rw [← sub_add_cancel (julianDay t.date) 2440588]
    exact hdays.add kJulianDayOf1970_01_01_is (fits_32.mpr (by unfold CivilTime.days; omega))
  have hymd := getYearMonthDay_is hconv hjd
  refine ⟨⟨hymd.year.sub (lit (by decide)) (fits_32.mpr (by omega)),
    hymd.month.sub (lit (by decide)) (fits_32.mpr (by omega)), hymd.day, hhour, hmin, hsec⟩, ?_, ?_⟩
  · have hval : (julianDay t.date + 1) % 7 = t.date.weekday := by
      unfold julianDay GregorianDate.weekday
      omega
    rw [← hval]
    exact (hjd.add (lit (by decide)) (fits_32.mpr (by omega))).mod (lit (by decide)) (by omega)
      (by decide)
  · cases yday with
    | false => exact lit (by decide)
    | true =>
      have hfirst : (⟨(detail.getYearMonthDay (days + Date.kJulianDayOf1970_01_01)).year, 1, 1⟩ :
          YearMonthDay).Is (GregorianDate.newYear t.date.year) :=
        ⟨hymd.year, lit (by decide), lit (by decide)⟩
      have hstart := getJulianDayNumber_is ht.convertible_newYear hfirst
      obtain ⟨hle, hlt⟩ := t.date.dayNumber_newYear
      have hval : julianDay t.date - julianDay (GregorianDate.newYear t.date.year) =
          t.dayOfYear := add_sub_add_right_eq_sub _ _ _
      rw [if_pos rfl, ← hval]
      refine hjd.sub hstart (fits_32.mpr ?_)
      rw [hval]
      unfold CivilTime.dayOfYear
      omega

/-- **`toUtcTime` and `fromUtcTime` are inverse and agree with the calendar**: every time in the range
is taken apart into the fields of a time of the calendar, with the date that many days after
1970-01-01, its weekday and its day of the year, and put together again; and the fields of every
time of the calendar are put together and taken apart into the same fields. -/
theorem utcTime_inverse :
    (∀ s : ℤ, -2440588 ≤ s / 86400 → s / 86400 ≤ 534398279 →
      ∃ (utc : UtcTm) (t : CivilTime), toUtcTime (.ofInt 64 s) true = some utc ∧ utc.Is t ∧
        julianDay t.date = julianDay ⟨1970, 1, 1, by decide, by decide, by decide, by decide⟩ +
          s / 86400 ∧
        utc.tm_wday.Is t.date.weekday ∧ utc.tm_yday.Is t.dayOfYear ∧ (fromUtcTime utc).Is s) ∧
    ∀ t : CivilTime, t.InRange → ∀ utc : UtcTm, utc.Is t → ∀ yday,
      ∃ utc', toUtcTime (fromUtcTime utc) yday = some utc' ∧ utc'.Is t := by
  refine ⟨fun s hlo hhi => ?_, fun t ht utc hutc yday => ?_⟩
  · obtain ⟨t, ht, rfl⟩ := CivilTime.exists_seconds hlo hhi
    have hx : (SInt.ofInt 64 t.seconds).Is t.seconds := SInt.is_ofInt (fits_64.mpr (by omega))
    obtain ⟨days, hdays, heq⟩ := toUtcTime_eq ht hx true
    obtain ⟨his, hwday, hyday⟩ := utcOf_is ht hdays true
    have hepoch : julianDay ⟨1970, 1, 1, by decide, by decide, by decide, by decide⟩ = 2440588 := by
      decide
    refine ⟨_, t, heq, his, ?_, hwday, hyday, fromUtcTime_is ht his⟩
    rw [hepoch, t.seconds_ediv]
    unfold CivilTime.days
    omega
  · obtain ⟨days, hdays, heq⟩ := toUtcTime_eq ht (fromUtcTime_is ht hutc) yday
    exact ⟨_, heq, (utcOf_is ht hdays yday).1⟩

/-- The last second before 1970. -/
theorem utcTime_inverse_minusOne : ∃ utc, toUtcTime (.ofInt 64 (-1)) true = some utc ∧
    utc.tm_year.Is 69 ∧ utc.tm_yday.Is 364 ∧ (fromUtcTime utc).Is (-1) := by
  obtain ⟨utc, t, heq, -, -, -, -, hback⟩ := utcTime_inverse.1 (-1) (by decide) (by decide)
  obtain ⟨hyear, hyday⟩ : utc.tm_year.Is 69 ∧ utc.tm_yday.Is 364 := by
    obtain rfl := Option.some.inj heq
    exact ⟨rfl, rfl⟩
  exact ⟨utc, heq, hyear, hyday, hback⟩

end MengSen

import MengSen.Base.LogConvert
import MengSen.Base.UtcTime
import Mathlib.Data.List.TakeWhile

/-!
# Base.TimestampConvert — times as text

`Timestamp::convert<uint64_t, std::string>` and `switch_timezone` of `base/Timestamp.cpp`.  The text is
put together in the `static` buffer of 32 bytes, of which the contents before the call are arbitrary.
The C library's `gmtime` is the parameter `Gmtime`: it finds the time of the calendar that a number of
seconds is.  A store outside the buffer fails.  The assertion of `convert` is compiled only under
`DEBUG`.
-/

namespace MengSen

open detail (literal decimal decimalDigit)
open Numeral (padded)

/-- `std::gmtime`. -/
structure Gmtime where
  gmtime : ℤ → CivilTime
  seconds_eq : ∀ s, -2440588 ≤ s / 86400 → s / 86400 ≤ 534398279 → (gmtime s).seconds = s

/-- The documented `gmtime` exists. -/
theorem nonempty_gmtime : Nonempty Gmtime := by
  have h : ∀ s : ℤ, ∃ t : CivilTime, -2440588 ≤ s / 86400 → s / 86400 ≤ 534398279 → t.seconds = s := by
    intro s
    by_cases hs : -2440588 ≤ s / 86400 ∧ s / 86400 ≤ 534398279
    · obtain ⟨t, -, ht⟩ := CivilTime.exists_seconds hs.1 hs.2
      exact ⟨t, fun _ _ => ht⟩
    · exact ⟨⟨⟨1970, 1, 1, by decide, by decide, by decide, by decide⟩, 0, 0, 0, by decide, by decide,
        by decide⟩, fun hlo hhi => absurd ⟨hlo, hhi⟩ hs⟩
  choose gmtime hgmtime using h
  exact ⟨⟨gmtime, hgmtime⟩⟩

/-- At least `w` decimal digits. -/
def digitsText (w n : ℕ) : List UInt8 := (padded 10 w n).map decimalDigit

/-- A time under `"%Y%m%d %T"`. -/
def timeText (t : CivilTime) : List UInt8 :=
  decimal t.date.year ++ (digitsText 2 t.date.month ++ (digitsText 2 t.date.day ++
    (literal " " ++ (digitsText 2 t.hour ++ (literal ":" ++ (digitsText 2 t.min ++
      (literal ":" ++ digitsText 2 t.sec)))))))

/-- `strftime(mem + p, max, ...)` of a format that renders as `text`: a text that does not fit leaves
the array undefined. -/
def strftime (mem : List UInt8) (p max : ℕ) (text : List UInt8) : Option (List UInt8) :=
  if text.length + 1 ≤ max then Mem.store? mem p (text ++ [0]) else none

/-- `memset(mem + p, 0, n)`. -/
def memset (mem : List UInt8) (p n : ℕ) : Option (List UInt8) :=
  Mem.store? mem p (List.replicate n 0)

/-- The characters before the first NUL. -/
def cstring (mem : List UInt8) : List UInt8 := mem.takeWhile (· ≠ 0)

section CString

variable {c : UInt8} {d : List UInt8}

theorem cstring_cons (hc : c ≠ 0) (mem : List UInt8) : cstring (c :: mem) = c :: cstring mem :=
  List.takeWhile_cons_of_pos (decide_eq_true hc)

theorem cstring_of_notMem (h : 0 ∉ d) : cstring d = d :=
  List.takeWhile_eq_self_iff.mpr fun _ hc => decide_eq_true (ne_of_mem_of_not_mem hc h)

theorem cstring_append_zero (h : 0 ∉ d) (mem : List UInt8) : cstring (d ++ 0 :: mem) = d := by
  rw [cstring, List.takeWhile_append_of_pos fun c hc => decide_eq_true (ne_of_mem_of_not_mem hc h),
    List.takeWhile_cons_of_neg (by decide), List.append_nil]

theorem zero_notMem_cstring (mem : List UInt8) : 0 ∉ cstring mem := fun h =>
  absurd (List.mem_takeWhile_imp h) (by decide)

/-- The NUL stands behind the characters. -/
theorem exists_eq_cstring (h : 0 ∈ d) : ∃ mem, d = cstring d ++ 0 :: mem := by
  induction d with
  | nil => cases h
  | cons c d ih =>
    by_cases hc : c = 0
    · rw [hc]
      exact ⟨d, rfl⟩
    · obtain ⟨mem, hmem⟩ := ih ((List.mem_cons.mp h).resolve_left (Ne.symm hc))
      refine ⟨mem, ?_⟩
      rw [cstring_cons hc, List.cons_append, ← hmem]

end CString

namespace Timestamp

inductive Precision
  | second
  | centisecond
  | millisecond
  | microsecond
  | nanosecond
  deriving DecidableEq

/-- `to_time_t` truncates `std::chrono::nanoseconds`, which count in 64 bits with a sign. -/
def to_time_t (time : ℕ) : ℤ := (Word.toSigned 64 time).tdiv 1000000000

/-- `convert`, with the text and the buffer after it. -/
def convert (G : Gmtime) (buffer : List UInt8) (time : ℕ) (p : Precision) :
    Option (List UInt8 × List UInt8) := do
  let gmtime := G.gmtime (to_time_t time)
  let buffer ← strftime buffer 0 18 (timeText gmtime)
  let t := time % 1000000000
  let buffer ← Mem.store? buffer 17 (literal ".")
  let buffer ← Mem.store? buffer 18 (digitsText 9 t ++ [0])
  let buffer ←
    match p with
    | .second => memset buffer 17 15
    | .centisecond => memset buffer 20 12
    | .millisecond => memset buffer 21 11
    | .microsecond => memset buffer 24 8
    | .nanosecond => memset buffer 27 5
  return (cstring buffer, buffer)

/-- `switch_timezone`. -/
def switch_timezone (time : ℕ) (hour : ℤ) : ℕ :=
  Word.add 64 time (Word.ofSigned 64 hour * 3600000000000)

/-! ## The text -/

/-- The number of digits behind the point. -/
def Precision.digits : Precision → ℕ
  | .second => 0
  | .centisecond => 2
  | .millisecond => 3
  | .microsecond => 6
  | .nanosecond => 9

/-- The nanoseconds between two texts of the precision. -/
def Precision.unit (p : Precision) : ℕ := 10 ^ (9 - p.digits)

/-- The point and the digits behind it. -/
def fraction (time : ℕ) (p : Precision) : List UInt8 :=
  if p = .second then [] else literal "." ++ (digitsText 9 (time % 1000000000)).take p.digits

/-- The text of a time of the calendar and the fraction of `time`. -/
def text (t : CivilTime) (time : ℕ) (p : Precision) : List UInt8 := timeText t ++ fraction time p

end Timestamp

section Digits

variable {w n m k : ℕ}

theorem length_digitsText (h : n < 10 ^ w) : (digitsText w n).length = w := by
  rw [digitsText, List.length_map, Numeral.length_padded (by decide) h]

theorem take_digitsText (h : n < 10 ^ w) (hk : k ≤ w) :
    (digitsText w n).take k = digitsText k (n / 10 ^ (w - k)) := by
  rw [digitsText, ← List.map_take, Numeral.take_padded (by decide) h hk]
  rfl

theorem decimalDigit_strictMonoOn : StrictMonoOn decimalDigit {d | d < 10} := by
  intro d hd e he hlt
  rw [UInt8.lt_iff_toNat_lt, detail.toNat_decimalDigit hd, detail.toNat_decimalDigit he]
  omega

/-- Digits of one width are in the order of their values. -/
theorem digitsText_lt_iff (hn : n < 10 ^ w) (hm : m < 10 ^ w) :
    digitsText w n < digitsText w m ↔ n < m := by
  rw [digitsText, digitsText, Lex.map_lt_map decimalDigit_strictMonoOn
    (fun d hd => Numeral.lt_base_of_mem_padded (by decide) hd)
    fun d hd => Numeral.lt_base_of_mem_padded (by decide) hd,
    Numeral.padded_lt_padded (by decide) hn hm]

theorem digitsText_eq_iff (hn : n < 10 ^ w) (hm : m < 10 ^ w) :
    digitsText w n = digitsText w m ↔ n = m :=
  Lex.eq_iff_of_lt_iff (digitsText_lt_iff hn hm) (digitsText_lt_iff hm hn)

/-- No digit is a NUL. -/
theorem ne_zero_of_mem_digitsText {c : UInt8} (h : c ∈ digitsText w n) : c ≠ 0 := by
  obtain ⟨d, hd, rfl⟩ := List.mem_map.mp h
  intro hzero
  have hnat := congrArg UInt8.toNat hzero
  rw [detail.toNat_decimalDigit (Numeral.lt_base_of_mem_padded (by decide) hd)] at hnat
  have h0 : (0 : UInt8).toNat = 0 := rfl
  omega

end Digits

/-! ## The order of the texts -/

section Order

variable {t u : CivilTime}

/-- The years of four digits. -/
def FourDigits (t : CivilTime) : Prop := 1000 ≤ t.date.year ∧ t.date.year < 10000

theorem decimal_year (h : FourDigits t) : decimal t.date.year = digitsText 4 t.date.year.natAbs := by
  obtain ⟨hlo, hhi⟩ := h
  rw [decimal, if_neg (by omega), List.nil_append, digitsText,
    Numeral.numeral_eq_padded (w := 3) (by decide) (by omega)]

theorem length_timeText (h : FourDigits t) : (timeText t).length = 17 := by
  have hm := t.date.month_le
  have hd : t.date.day ≤ 31 := t.date.day_le.trans (GregorianDate.daysInMonth_le _ _)
  have hh := t.hour_lt
  have hmin := t.min_lt
  have hs := t.sec_lt
  obtain ⟨hlo, hhi⟩ := id h
  simp only [timeText, List.length_append, decimal_year h]
  rw [length_digitsText (by omega), length_digitsText (by omega), length_digitsText (by omega),
    length_digitsText (by omega), length_digitsText (by omega), length_digitsText (by omega)]
  rfl

/-- The seconds of two times are compared field by field. -/
theorem seconds_lt_iff (t u : CivilTime) : t.seconds < u.seconds ↔
    t.date.year < u.date.year ∨ t.date.year = u.date.year ∧ (t.date.month < u.date.month ∨
      t.date.month = u.date.month ∧ (t.date.day < u.date.day ∨ t.date.day = u.date.day ∧
        (t.hour < u.hour ∨ t.hour = u.hour ∧ (t.min < u.min ∨ t.min = u.min ∧ t.sec < u.sec)))) := by
  have hh := t.hour_lt
  have hm := t.min_lt
  have hs := t.sec_lt
  have hh' := u.hour_lt
  have hm' := u.min_lt
  have hs' := u.sec_lt
  rcases lt_trichotomy t.date u.date with hlt | heq | hgt
  · have hdays := julianDay_strictMono hlt
    rw [GregorianDate.lt_iff] at hlt
    unfold CivilTime.seconds CivilTime.days
    omega
  · unfold CivilTime.seconds CivilTime.days
    rw [heq]
    omega
  · have hdays := julianDay_strictMono hgt
    rw [GregorianDate.lt_iff] at hgt
    unfold CivilTime.seconds CivilTime.days
    omega

/-- A separator does not decide. -/
theorem separator_lt_iff (l a b : List UInt8) : l ++ a < l ++ b ↔ a < b := by
  rw [Lex.append_lt_append rfl, and_iff_right rfl, or_iff_right (lt_irrefl l)]

/-- A field decides before what follows it. -/
theorem field_lt_iff {w n m : ℕ} {a b : List UInt8} (hn : n < 10 ^ w) (hm : m < 10 ^ w) :
    digitsText w n ++ a < digitsText w m ++ b ↔ n < m ∨ n = m ∧ a < b := by
  rw [Lex.append_lt_append ((length_digitsText hn).trans (length_digitsText hm).symm),
    digitsText_lt_iff hn hm, digitsText_eq_iff hn hm]

/-- **The texts are in the order of the times**. -/
theorem timeText_lt_iff (ht : FourDigits t) (hu : FourDigits u) :
    timeText t < timeText u ↔ t.seconds < u.seconds := by
  have hm := t.date.month_le
  have hm' := u.date.month_le
  have hd : t.date.day ≤ 31 := t.date.day_le.trans (GregorianDate.daysInMonth_le _ _)
  have hd' : u.date.day ≤ 31 := u.date.day_le.trans (GregorianDate.daysInMonth_le _ _)
  have hh := t.hour_lt
  have hh' := u.hour_lt
  have hmin := t.min_lt
  have hmin' := u.min_lt
  have hs := t.sec_lt
  have hs' := u.sec_lt
  obtain ⟨hlo, hhi⟩ := id ht
  obtain ⟨hlo', hhi'⟩ := id hu
  have hyear : t.date.year.natAbs < u.date.year.natAbs ↔ t.date.year < u.date.year := by omega
  have hyear' : t.date.year.natAbs = u.date.year.natAbs ↔ t.date.year = u.date.year := by omega
  simp only [timeText, decimal_year ht, decimal_year hu]
  rw [seconds_lt_iff, field_lt_iff (by omega) (by omega), field_lt_iff (by omega) (by omega),
    field_lt_iff (by omega) (by omega), separator_lt_iff, field_lt_iff (by omega) (by omega),
    separator_lt_iff, field_lt_iff (by omega) (by omega), separator_lt_iff,
    digitsText_lt_iff (by omega) (by omega), hyear, hyear']

theorem timeText_eq_iff (ht : FourDigits t) (hu : FourDigits u) :
    timeText t = timeText u ↔ t.seconds = u.seconds :=
  Lex.eq_iff_of_lt_iff (timeText_lt_iff ht hu) (timeText_lt_iff hu ht)

end Order

/-! ## The buffer -/

section Buffer

variable {mem d l : List UInt8} {n : ℕ}

/-- The buffer from the end of the text on is cleared. -/
theorem memset_eq (hmem : mem.length = 32) (hn : d.length + n = 32) (hl : l.length ≤ n) :
    memset (Mem.store mem 0 (d ++ l)) d.length n = some (d ++ List.replicate n 0) := by
  have hfit : 0 + (d ++ l).length ≤ mem.length := by
    rw [List.length_append]
    omega
  have hback := Mem.store_store_back (m := mem) (p := 0) (d := d) (l := l) (e := List.replicate n 0)
    (by omega) (by rwa [List.length_replicate])
  have hall : Mem.store mem 0 (d ++ List.replicate n 0) = d ++ List.replicate n 0 := by
    rw [Mem.store, List.take_zero, List.nil_append, Nat.zero_add, List.drop_of_length_le (by
      rw [List.length_append, List.length_replicate]
      omega), List.append_nil]
  rw [Nat.zero_add] at hback
  rw [memset, Mem.store?_of_le (by rw [Mem.length_store hfit, List.length_replicate]; omega), hback,
    hall]

end Buffer

namespace Timestamp

variable {G : Gmtime} {time : ℕ}

theorem to_time_t_of_lt (h : time < 2 ^ 63) : to_time_t time = (time / 1000000000 : ℕ) := by
  rw [to_time_t, Word.toSigned_of_lt (by omega)]
  rfl

theorem to_time_t_bounds (time : ℕ) :
    -9223372037 ≤ to_time_t time ∧ to_time_t time ≤ 9223372037 := by
  have hlt := Word.wrap_lt (w := 64) time
  have hsigned : (Word.toSigned 64 time).natAbs ≤ 2 ^ 63 := by
    rw [Word.toSigned]
    split
    · omega
    · omega
  have habs : (to_time_t time).natAbs = (Word.toSigned 64 time).natAbs / 1000000000 :=
    Int.natAbs_tdiv _ _
  omega

theorem seconds_gmtime (G : Gmtime) (time : ℕ) :
    (G.gmtime (to_time_t time)).seconds = to_time_t time := by
  obtain ⟨hlo, hhi⟩ := to_time_t_bounds time
  exact G.seconds_eq _ (by omega) (by omega)

/-- The years of all times have four digits. -/
theorem fourDigits_gmtime (G : Gmtime) (time : ℕ) : FourDigits (G.gmtime (to_time_t time)) := by
  obtain ⟨hlo, hhi⟩ := to_time_t_bounds time
  have hseconds := seconds_gmtime G time
  generalize G.gmtime (to_time_t time) = t at hseconds
  have hdays := t.seconds_ediv
  rw [hseconds] at hdays
  obtain ⟨hle, hlt⟩ := t.date.dayNumber_newYear
  have hfirst : (GregorianDate.newYear t.date.year).dayNumber =
      GregorianDate.daysBeforeYear t.date.year + 1 := by
    simp only [GregorianDate.dayNumber, GregorianDate.newYear, GregorianDate.daysBeforeMonth,
      daysInMonth]
    omega
  unfold CivilTime.days julianDay at hdays
  unfold GregorianDate.daysBeforeYear at hfirst
  unfold FourDigits
  omega

/-- No character of a time is a NUL. -/
theorem ne_zero_of_mem_timeText {t : CivilTime} (h : FourDigits t) {c : UInt8} (hc : c ∈ timeText t) :
    c ≠ 0 := by
  have hspace : (0 : UInt8) ∉ literal " " := by decide
  have hcolon : (0 : UInt8) ∉ literal ":" := by decide
  rw [timeText, decimal_year h] at hc
  simp only [List.mem_append] at hc
  rcases hc with hc | hc | hc | hc | hc | hc | hc | hc | hc
  · exact ne_zero_of_mem_digitsText hc
  · exact ne_zero_of_mem_digitsText hc
  · exact ne_zero_of_mem_digitsText hc
  · exact ne_of_mem_of_not_mem hc hspace
  · exact ne_zero_of_mem_digitsText hc
  · exact ne_of_mem_of_not_mem hc hcolon
  · exact ne_zero_of_mem_digitsText hc
  · exact ne_of_mem_of_not_mem hc hcolon
  · exact ne_zero_of_mem_digitsText hc

theorem ne_zero_of_mem_fraction {p : Precision} {c : UInt8} (hc : c ∈ fraction time p) : c ≠ 0 := by
  have hpoint : (0 : UInt8) ∉ literal "." := by decide
  rw [fraction] at hc
  split at hc
  · exact absurd hc List.not_mem_nil
  · rcases List.mem_append.mp hc with hc | hc
    · exact ne_of_mem_of_not_mem hc hpoint
    · exact ne_zero_of_mem_digitsText (List.mem_of_mem_take hc)

theorem length_fraction {p : Precision} (hp : p ≠ .second) :
    (fraction time p).length = 1 + p.digits := by
  have hdigits : p.digits ≤ 9 := by cases p <;> decide
  have hpoint : (literal ".").length = 1 := rfl
  have hD : (digitsText 9 (time % 1000000000)).length = 9 := length_digitsText (by omega)
  rw [fraction, if_neg hp, List.length_append, List.length_take, hD, hpoint]
  omega

/-- The buffer after the time, the point and all digits are written. -/
theorem written_eq {T D buffer : List UInt8} (hT : T.length = 17) (hbuffer : buffer.length = 32)
    (hD : D.length = 9) : (do
      let buffer ← strftime buffer 0 18 T
      let buffer ← Mem.store? buffer 17 (literal ".")
      Mem.store? buffer 18 (D ++ [0])) = some (Mem.store buffer 0 (T ++ literal "." ++ (D ++ [0]))) := by
  have hpoint : (literal ".").length = 1 := rfl
  have hfit : 0 + (T ++ [0]).length ≤ buffer.length := by
    rw [List.length_append, List.length_singleton]
    omega
  have hfit' : 0 + (T ++ literal ".").length ≤ buffer.length := by
    rw [List.length_append]
    omega
  have hback : Mem.store (Mem.store buffer 0 (T ++ [0])) 17 (literal ".") =
      Mem.store buffer 0 (T ++ literal ".") := by
    have h := Mem.store_store_back (m := buffer) (p := 0) (d := T) (l := [0]) (e := literal ".")
      (by omega) le_rfl
    rwa [hT] at h
  have happend : Mem.store (Mem.store buffer 0 (T ++ literal ".")) 18 (D ++ [0]) =
      Mem.store buffer 0 (T ++ literal "." ++ (D ++ [0])) := by
    have h := Mem.store_store_append (e := D ++ [0]) hfit'
    rwa [List.length_append, hT] at h
  rw [strftime, if_pos (by omega), Option.bind_eq_bind, Mem.store?_bind hfit,
    Mem.store?_bind (by rw [Mem.length_store hfit]; omega), hback, Mem.store?_of_le (by
    rw [Mem.length_store hfit', List.length_append, List.length_singleton]
    omega), happend]

/-- `convert` with the writes before the `switch` as one. -/
theorem convert_eq_bind {buffer : List UInt8} {p : Precision} : convert G buffer time p =
    ((do
      let buffer ← strftime buffer 0 18
        (timeText (G.gmtime (to_time_t time)))
      let buffer ← Mem.store? buffer 17 (literal ".")
      Mem.store? buffer 18 (digitsText 9 (time % 1000000000) ++ [0])) >>= fun buffer =>
      (match p with
      | .second => memset buffer 17 15
      | .centisecond => memset buffer 20 12
      | .millisecond => memset buffer 21 11
      | .microsecond => memset buffer 24 8
      | .nanosecond => memset buffer 27 5) >>= fun buffer => some (cstring buffer, buffer)) := by
  rw [convert]
  simp only [bind_assoc]
  cases p <;> rfl

/-- The text ends where the buffer is cleared. -/
theorem memset_bind {buffer W d l : List UInt8} {q n : ℕ} (hbuffer : buffer.length = 32)
    (hW : W = d ++ l) (hq : d.length = q) (hn : q + (n + 1) = 32) (hl : l.length ≤ n + 1)
    (hd : ∀ c ∈ d, c ≠ 0) :
    ∃ buffer', buffer'.length = 32 ∧
      (memset (Mem.store buffer 0 W) q (n + 1) >>= fun buffer => some (cstring buffer, buffer)) =
        some (d, buffer') := by
  refine ⟨d ++ List.replicate (n + 1) 0, by rw [List.length_append, List.length_replicate, hq, hn], ?_⟩
  rw [hW, ← hq, memset_eq hbuffer (by omega) hl]
  show some (cstring (d ++ 0 :: List.replicate n 0), _) = _
  rw [cstring_append_zero fun h => hd 0 h rfl]

/-- **`convert`** returns the text, whatever the buffer holds, and writes nothing outside it. -/
theorem convert_eq (G : Gmtime) (time : ℕ) {buffer : List UInt8} (hbuffer : buffer.length = 32)
    (p : Precision) : ∃ buffer', buffer'.length = 32 ∧ convert G buffer time p =
      some (text (G.gmtime (to_time_t time)) time p, buffer') := by
  have hfour := fourDigits_gmtime G time
  have hT := length_timeText hfour
  have hD : (digitsText 9 (time % 1000000000)).length = 9 := length_digitsText (by omega)
  have hpoint : (literal ".").length = 1 := rfl
  have hne : ∀ c ∈ text (G.gmtime (to_time_t time)) time p, c ≠ 0 := by
    intro c hc
    rcases List.mem_append.mp hc with hc | hc
    · exact ne_zero_of_mem_timeText hfour hc
    · exact ne_zero_of_mem_fraction hc
  rw [convert_eq_bind, written_eq hT hbuffer hD]
  unfold text at hne ⊢
  generalize timeText (G.gmtime (to_time_t time)) = T at hne hT ⊢
  have hfraction : ∀ p : Precision, p ≠ .second →
      fraction time p = literal "." ++ (digitsText 9 (time % 1000000000)).take p.digits :=
    fun p hp => if_neg hp
  -- the characters after the text are the rest of the digits and their NUL
  have hcut : ∀ p : Precision, p ≠ .second →
      T ++ literal "." ++ (digitsText 9 (time % 1000000000) ++ [0]) =
        (T ++ fraction time p) ++ ((digitsText 9 (time % 1000000000)).drop p.digits ++ [0]) := by
    intro p hp
    rw [hfraction p hp, List.append_assoc, List.append_assoc, List.append_assoc,
      ← List.append_assoc (List.take _ _), List.take_append_drop]
  have hlen : ∀ p : Precision, p ≠ .second → (T ++ fraction time p).length = 18 + p.digits := by
    intro p hp
    rw [List.length_append, length_fraction hp, hT]
    omega
  have hrest : ∀ k, ((digitsText 9 (time % 1000000000)).drop k ++ [0]).length = 9 - k + 1 := by
    intro k
    rw [List.length_append, List.length_drop, hD, List.length_singleton]
  cases p with
  | second =>
    have hnone : T ++ fraction time .second = T := List.append_nil T
    rw [hnone] at hne ⊢
    refine memset_bind hbuffer (List.append_assoc _ _ _) hT rfl ?_ hne
    rw [List.length_append, List.length_append, hpoint, hD]
    decide
  | centisecond =>
    exact memset_bind hbuffer (hcut _ (by decide)) (hlen _ (by decide)) rfl
      ((hrest _).trans_le (by decide)) hne
  | millisecond =>
    exact memset_bind hbuffer (hcut _ (by decide)) (hlen _ (by decide)) rfl
      ((hrest _).trans_le (by decide)) hne
  | microsecond =>
    exact memset_bind hbuffer (hcut _ (by decide)) (hlen _ (by decide)) rfl
      ((hrest _).trans_le (by decide)) hne
  | nanosecond =>
    exact memset_bind hbuffer (hcut _ (by decide)) (hlen _ (by decide)) rfl
      ((hrest _).trans_le (by decide)) hne

/-! ## The order of the converted times -/

section Converted

variable {t₁ t₂ : CivilTime} {time₁ time₂ : ℕ} {p : Precision}

/-- The digits behind the point are those of the units. -/
theorem fraction_lt_iff (hp : p ≠ .second) : fraction time₁ p < fraction time₂ p ↔
    time₁ % 1000000000 / p.unit < time₂ % 1000000000 / p.unit := by
  have hdigits : p.digits ≤ 9 := by cases p <;> decide
  have hlt : ∀ time : ℕ, time % 1000000000 / p.unit < 10 ^ p.digits := by
    intro time
    rw [Precision.unit, Nat.div_lt_iff_lt_mul (Nat.pow_pos (by decide)), ← Nat.pow_add,
      Nat.add_sub_cancel' hdigits]
    exact Nat.mod_lt _ (by decide)
  have htake : ∀ time : ℕ, (digitsText 9 (time % 1000000000)).take p.digits =
      digitsText p.digits (time % 1000000000 / p.unit) :=
    fun time => take_digitsText (Nat.mod_lt _ (by decide)) hdigits
  rw [fraction, fraction, if_neg hp, if_neg hp, separator_lt_iff, htake, htake]
  exact digitsText_lt_iff (hlt time₁) (hlt time₂)

/-- **The texts are in the order of the times in units**. -/
theorem text_lt_iff (h₁ : FourDigits t₁) (h₂ : FourDigits t₂)
    (ht₁ : t₁.seconds = (time₁ / 1000000000 : ℕ)) (ht₂ : t₂.seconds = (time₂ / 1000000000 : ℕ)) :
    text t₁ time₁ p < text t₂ time₂ p ↔ time₁ / p.unit < time₂ / p.unit := by
  have hlt : timeText t₁ < timeText t₂ ↔ time₁ / 1000000000 < time₂ / 1000000000 := by
    rw [timeText_lt_iff h₁ h₂, ht₁, ht₂, Nat.cast_lt]
  have heq : timeText t₁ = timeText t₂ ↔ time₁ / 1000000000 = time₂ / 1000000000 := by
    rw [timeText_eq_iff h₁ h₂, ht₁, ht₂, Nat.cast_inj]
  rw [text, text, Lex.append_lt_append ((length_timeText h₁).trans (length_timeText h₂).symm), hlt,
    heq]
  by_cases hp : p = .second
  · rw [hp]
    exact or_iff_left fun h => lt_irrefl _ h.2
  · rw [fraction_lt_iff hp, Numeral.lt_iff_div_mod (10 ^ p.digits) (time₁ / p.unit)]
    have hunit : p.unit * 10 ^ p.digits = 1000000000 := by cases p <;> rfl
    rw [Nat.div_div_eq_div_mul, Nat.div_div_eq_div_mul, hunit, ← Nat.mod_mul_right_div_self,
      ← Nat.mod_mul_right_div_self, hunit]

/-- **A converted time sorts**: it is the time of the calendar with the digits of the precision, put
together inside the buffer, and the texts are in the order of the times. -/
theorem convert_sortable (G : Gmtime) (p : Precision) :
    (∀ time < 2 ^ 63, ∀ buffer : List UInt8, buffer.length = 32 →
      ∃ (t : CivilTime) (buffer' : List UInt8), t.seconds = (time / 1000000000 : ℕ) ∧
        FourDigits t ∧ buffer'.length = 32 ∧
        convert G buffer time p = some (text t time p, buffer')) ∧
    ∀ time₁ time₂ : ℕ, time₁ ≤ time₂ → time₂ < 2 ^ 63 →
      ∀ buffer₁ buffer₂ : List UInt8, buffer₁.length = 32 → buffer₂.length = 32 →
      ∃ s₁ s₂ buffer₁' buffer₂', convert G buffer₁ time₁ p = some (s₁, buffer₁') ∧
        convert G buffer₂ time₂ p = some (s₂, buffer₂') ∧
        s₁ ≤ s₂ ∧ (s₁ = s₂ ↔ time₁ / p.unit = time₂ / p.unit) := by
  have hseconds : ∀ time < 2 ^ 63,
      (G.gmtime (to_time_t time)).seconds = (time / 1000000000 : ℕ) := by
    intro time h
    rw [seconds_gmtime, to_time_t_of_lt h]
  refine ⟨fun time h buffer hbuffer => ?_, fun time₁ time₂ hle h₂ buffer₁ buffer₂ hb₁ hb₂ => ?_⟩
  · obtain ⟨buffer', hlen, hconvert⟩ := convert_eq G time hbuffer p
    exact ⟨_, buffer', hseconds time h, fourDigits_gmtime G time, hlen, hconvert⟩
  · have h₁ : time₁ < 2 ^ 63 := Nat.lt_of_le_of_lt hle h₂
    obtain ⟨buffer₁', -, hconvert₁⟩ := convert_eq G time₁ hb₁ p
    obtain ⟨buffer₂', -, hconvert₂⟩ := convert_eq G time₂ hb₂ p
    have hlt := text_lt_iff (p := p) (fourDigits_gmtime G time₁) (fourDigits_gmtime G time₂)
      (hseconds time₁ h₁) (hseconds time₂ h₂)
    have hgt := text_lt_iff (p := p) (fourDigits_gmtime G time₂) (fourDigits_gmtime G time₁)
      (hseconds time₂ h₂) (hseconds time₁ h₁)
    refine ⟨_, _, buffer₁', buffer₂', hconvert₁, hconvert₂, ?_, Lex.eq_iff_of_lt_iff hlt hgt⟩
    rw [← not_lt, hgt, not_lt]
    exact Nat.div_le_div_right hle

/-- The last day of August 2020, in a buffer full of ones. -/
theorem convert_sortable_august : ∃ (G : Gmtime) (buffer' : List UInt8),
    convert G (List.replicate 32 255) 1598877050123456789 .millisecond =
      some (literal "20200831 12:30:50.123", buffer') := by
  obtain ⟨G⟩ := nonempty_gmtime
  obtain ⟨t, buffer', ht, hfour, -, hconvert⟩ := (convert_sortable G .millisecond).1
    1598877050123456789 (by decide) (List.replicate 32 255) rfl
  have htext : timeText t = literal "20200831 12:30:50" := by
    let august : CivilTime := ⟨⟨2020, 8, 31, by decide, by decide, by decide, by decide⟩, 12, 30, 50,
      by decide, by decide, by decide⟩
    have hseconds : august.seconds = 1598877050 := by decide
    rw [(timeText_eq_iff (u := august) hfour ⟨by decide, by decide⟩).mpr (ht.trans hseconds.symm)]
    decide
  refine ⟨G, buffer', ?_⟩
  rw [hconvert, text, htext]
  rfl

end Converted

end Timestamp

end MengSen

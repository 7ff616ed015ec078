import MengSen.Lib.Word

/-!
# Base.Timestamp — times as unsigned 64-bit counts

`base/Timestamp.h`.  A time is a `uint64_t`; `addTime` adds a number of seconds given as a `double`.
Of the `double` only the two operations below are looked at, so it is a type with these operations.
-/

namespace MengSen

/-- A `double` number of seconds, as far as the timers look at it. -/
class Seconds (D : Type) where
  /-- `d > 0.0` -/
  isPos : D → Bool
  /-- `static_cast<uint64_t>(d * kMicroSecondsPerSecond)` -/
  micros : D → ℕ

namespace Timestamp

def kMicroSecondsPerSecond : ℕ := 1000 * 1000

def invalid : ℕ := 0

def valid (time : ℕ) : Bool := time > 0

def addTime {D : Type} [Seconds D] (time : ℕ) (seconds : D) : ℕ :=
  Word.add 64 time (Seconds.micros seconds)

end Timestamp

/-- Whole seconds, on which `double` arithmetic is exact. -/
instance : Seconds ℕ where
  isPos d := 0 < d
  micros d := d * Timestamp.kMicroSecondsPerSecond

end MengSen

import MengSen.Lib.LowerBound
import MengSen.Lib.Machine
import Mathlib.Data.Int.Notation

/-!
# Base.TimeZone — time zones and their lookups

`base/TimeZone.cpp`: the data of a zone, `findLocaltime` and the two conversions.  `time_t` is `ℤ`.
The C library's `gmtime_r` and `timegm` are the parameter `Calendar`.  An index that is past the end
of a vector is a fault; `tm_zone`, a pointer into `abbreviation`, is the index of its character.
-/

namespace MengSen.TimeZone

open Machine (check check_bind)

structure Transition where
  gmttime : ℤ
  localtime : ℤ
  localtimeIdx : ℕ
  deriving DecidableEq

structure Localtime where
  gmtOffset : ℤ
  isDst : Bool
  arrbIdx : ℕ
  deriving DecidableEq

structure Comp where
  compareGmt : Bool

namespace Comp

/-- The member that is compared. -/
def key (comp : Comp) (x : Transition) : ℤ := if comp.compareGmt then x.gmttime else x.localtime

/-- `comp(lhs, rhs)`. -/
def less (comp : Comp) (lhs rhs : Transition) : Bool := comp.key lhs < comp.key rhs

def equal (comp : Comp) (lhs rhs : Transition) : Bool := comp.key lhs == comp.key rhs

end Comp

inductive Fault
  | assertion
  /-- an index past the end of `transitions` or `localtimes` -/
  | outOfRange
  deriving DecidableEq

structure Data where
  transitions : List Transition
  localtimes : List Localtime
  abbreviation : List UInt8

namespace Data

variable (data : Data)

/-- `data.localtimes[i]`. -/
def localtime (i : ℕ) : Except Fault Localtime :=
  match data.localtimes[i]? with
  | some l => .ok l
  | none => .error .outOfRange

/-- `data.transitions[i]`. -/
def transition (i : ℕ) : Except Fault Transition :=
  match data.transitions[i]? with
  | some x => .ok x
  | none => .error .outOfRange

/-- `findLocaltime`. -/
def findLocaltime (sentry : Transition) (comp : Comp) : Except Fault Localtime :=
  -- `data.transitions.empty() || comp(sentry, data.transitions.front())`
  if data.transitions.head?.all fun front => comp.less sentry front then data.localtime 0
  else
    let transI := lowerBound (fun x => comp.less x sentry) data.transitions
    match data.transitions[transI]? with
    | some x =>
      if comp.equal sentry x then data.localtime x.localtimeIdx
      else do
        check (transI ≠ 0) .assertion
        let y ← data.transition (transI - 1)
        data.localtime y.localtimeIdx
    | none => do
      let back ← data.transition (data.transitions.length - 1)
      data.localtime back.localtimeIdx

/-- `&data.localtimes[i]`. -/
def addressOf (i : ℕ) : Except Fault (Option ℕ) :=
  if i < data.localtimes.length then .ok (some i) else .error .outOfRange

/-- The type to which a pointer into `localtimes` points. -/
def deref : Option ℕ → Except Fault Localtime
  | some i => data.localtime i
  | none => .error .outOfRange

set_option linter.unusedVariables false in
/-- `findLocaltime` with the pointer that it returns: the index of an element of `localtimes`, `none`
for `NULL`. -/
def findLocaltimePtr (sentry : Transition) (comp : Comp) : Except Fault (Option ℕ) := do
  let mut found : Option ℕ := none
  if data.transitions.head?.all fun front => comp.less sentry front then
    found ← data.addressOf 0
  else
    let mut transI := lowerBound (fun x => comp.less x sentry) data.transitions
    if let some x := data.transitions[transI]? then
      if !comp.equal sentry x then
        check (transI ≠ 0) .assertion
        transI := transI - 1
      let y ← data.transition transI
      found ← data.addressOf y.localtimeIdx
    else
      let back ← data.transition (data.transitions.length - 1)
      found ← data.addressOf back.localtimeIdx
  return found

end Data

/-! ## Conversions -/

/-- The fields of a `struct tm` that `gmtime_r` computes. -/
structure BrokenTime where
  sec : ℤ
  min : ℤ
  hour : ℤ
  mday : ℤ
  mon : ℤ
  year : ℤ
  wday : ℤ
  yday : ℤ
  deriving DecidableEq

structure Tm extends BrokenTime where
  isDst : Bool
  gmtOff : ℤ
  /-- the index in `abbreviation` to which `tm_zone` points -/
  zone : ℕ
  deriving DecidableEq

/-- `gmtime_r` and `timegm`. -/
structure Calendar where
  gmtime : ℤ → BrokenTime
  timegm : BrokenTime → ℤ

/-- `data_`, which is null in an invalid zone. -/
abbrev Zone := Option Data

def Zone.valid (tz : Zone) : Bool := tz.isSome

/-- `TimeZone(eastOfUtc, name)`. -/
def fixed (eastOfUtc : ℤ) (name : List UInt8) : Zone :=
  some { transitions := [], localtimes := [⟨eastOfUtc, false, 0⟩], abbreviation := name }

/-- `assert(data_ != NULL)`. -/
def Zone.data : Zone → Except Fault Data
  | some data => .ok data
  | none => .error .assertion

variable (C : Calendar)

def toLocalTime (tz : Zone) (seconds : ℤ) : Except Fault Tm := do
  let data ← tz.data
  let l ← data.findLocaltime ⟨seconds, 0, 0⟩ ⟨true⟩
  return { C.gmtime (seconds + l.gmtOffset) with
    isDst := l.isDst, gmtOff := l.gmtOffset, zone := l.arrbIdx }

def fromLocalTime (tz : Zone) (localTm : Tm) : Except Fault ℤ := do
  let data ← tz.data
  let seconds := C.timegm localTm.toBrokenTime
  let l ← data.findLocaltime ⟨0, seconds, 0⟩ ⟨false⟩
  if localTm.isDst then
    let tryTm ← toLocalTime C tz (seconds - l.gmtOffset)
    if !tryTm.isDst && tryTm.hour == localTm.hour && tryTm.min == localTm.min then
      return seconds - 3600 - l.gmtOffset
    return seconds - l.gmtOffset
  return seconds - l.gmtOffset

/-! ## What a lookup finds -/

namespace Data

variable {data : Data} {comp : Comp} {sentry : Transition} {k : ℕ}

/-- The type in force after `k` transitions. -/
def rule (data : Data) : ℕ → Except Fault Localtime
  | 0 => data.localtime 0
  | k + 1 => do
    let x ← data.transition k
    data.localtime x.localtimeIdx

theorem transition_of_get {i : ℕ} {x : Transition} (h : data.transitions[i]? = some x) :
    data.transition i = .ok x := by
  rw [transition, h]

theorem addressOf_bind (data : Data) (i : ℕ) :
    (data.addressOf i >>= data.deref) = data.localtime i := by
  rw [addressOf]
  split
  · rfl
  · next h =>
    rw [localtime, List.getElem?_eq_none (Nat.le_of_not_lt h)]
    rfl

/-- What is found is what the pointer points to. -/
theorem findLocaltime_eq_deref (data : Data) (sentry : Transition) (comp : Comp) :
    data.findLocaltime sentry comp = data.findLocaltimePtr sentry comp >>= data.deref := by
  rw [findLocaltimePtr, findLocaltime]
  simp only [bind_pure]
  split
  · exact (addressOf_bind data 0).symm
  · rcases hx : data.transitions[lowerBound (fun x => comp.less x sentry) data.transitions]? with _ | x
    · simp only [bind_assoc, addressOf_bind]
    · rcases heq : comp.equal sentry x with _ | _
      · simp only [heq, Bool.not_false, Bool.false_eq_true, if_true, if_false, bind_assoc,
          addressOf_bind]
      · simp only [heq, Bool.not_true, Bool.false_eq_true, if_true, if_false, transition_of_get hx]
        exact (addressOf_bind data _).symm

/-- Before the first transition the front of `localtimes` is found. -/
theorem findLocaltimePtr_zero
    (h : Partitioned (fun x => comp.key x ≤ comp.key sentry) data.transitions 0) :
    data.findLocaltimePtr sentry comp = data.addressOf 0 := by
  have hfront : data.transitions.head?.all (fun front => comp.less sentry front) = true := by
    rcases hl : data.transitions with _ | ⟨front, rest⟩
    · rfl
    · have hnot := h.2 0 front (by rw [hl]; rfl)
      simpa [Comp.less] using hnot
  rw [findLocaltimePtr, if_pos hfront]
  exact bind_pure _

/-- After a transition the type of the last one is found. -/
theorem findLocaltimePtr_succ {last : Transition}
    (hsort : data.transitions.Pairwise fun x y => comp.key x < comp.key y)
    (h : Partitioned (fun x => comp.key x ≤ comp.key sentry) data.transitions (k + 1))
    (hlast : data.transitions[k]? = some last) :
    data.findLocaltimePtr sentry comp = data.addressOf last.localtimeIdx := by
  obtain ⟨hlen, hpart⟩ := h
  simp only [decide_eq_true_eq] at hpart
  have hk : k < data.transitions.length := by omega
  have hle : comp.key last ≤ comp.key sentry := (hpart k last hlast).mpr (Nat.lt_succ_self k)
  have hbefore : ∀ i x, data.transitions[i]? = some x → i < k → comp.key x < comp.key last := by
    intro i x hx hik
    obtain ⟨hi, rfl⟩ := List.getElem?_eq_some_iff.mp hx
    obtain ⟨-, rfl⟩ := List.getElem?_eq_some_iff.mp hlast
    exact List.pairwise_iff_getElem.mp hsort i k hi hk hik
  have hfront : ¬ data.transitions.head?.all (fun front => comp.less sentry front) = true := by
    rcases hl : data.transitions with _ | ⟨front, rest⟩
    · rw [hl] at hk
      exact absurd hk (Nat.not_lt_zero k)
    · have hfle := (hpart 0 front (by rw [hl]; rfl)).mpr (Nat.succ_pos k)
      simpa [Comp.less] using hfle
  rw [findLocaltimePtr, if_neg hfront]
  simp only [bind_pure]
  by_cases heq : comp.key last = comp.key sentry
  · have hp : Partitioned (fun x => comp.less x sentry) data.transitions k := by
      refine ⟨Nat.le_of_lt hk, fun i x hx => ?_⟩
      simp only [Comp.less, decide_eq_true_eq]
      refine ⟨fun hlt => ?_, fun hik => heq ▸ hbefore i x hx hik⟩
      have hik := (hpart i x hx).mp (Int.le_of_lt hlt)
      rcases Nat.lt_succ_iff_lt_or_eq.mp hik with hik | rfl
      · exact hik
      · rw [hlast] at hx
        rw [← Option.some.inj hx, heq] at hlt
        exact absurd hlt (Int.lt_irrefl _)
    have hequal : comp.equal sentry last = true := by rw [Comp.equal, heq, beq_self_eq_true]
    simp only [hp.lowerBound_eq, hlast, hequal, Bool.not_true, Bool.false_eq_true, if_false,
      transition_of_get hlast]
    rfl
  · have hp : Partitioned (fun x => comp.less x sentry) data.transitions (k + 1) := by
      refine ⟨hlen, fun i x hx => ?_⟩
      simp only [Comp.less, decide_eq_true_eq]
      refine ⟨fun hlt => (hpart i x hx).mp (Int.le_of_lt hlt), fun hik => ?_⟩
      rcases Nat.lt_succ_iff_lt_or_eq.mp hik with hik | rfl
      · exact Int.lt_of_lt_of_le (hbefore i x hx hik) hle
      · rw [hlast] at hx
        rw [← Option.some.inj hx]
        exact Int.lt_iff_le_and_ne.mpr ⟨hle, heq⟩
    simp only [hp.lowerBound_eq]
    rcases hnext : data.transitions[k + 1]? with _ | next
    · have hback : data.transitions.length - 1 = k := by
        have := List.getElem?_eq_none_iff.mp hnext
        omega
      simp only [hback, transition_of_get hlast]
      rfl
    · have hgt : ¬ comp.key next ≤ comp.key sentry :=
        fun hn => Nat.lt_irrefl _ ((hpart (k + 1) next hnext).mp hn)
      have hequal : comp.equal sentry next = false := by
        rw [Comp.equal, beq_eq_false_iff_ne]
        intro hsn
        exact hgt (Int.le_of_eq hsn.symm)
      simp only [hequal, Bool.not_false, if_true]
      rw [check_bind _ (Nat.succ_ne_zero k), Nat.add_sub_cancel, transition_of_get hlast]
      rfl

theorem findLocaltime_zero
    (h : Partitioned (fun x => comp.key x ≤ comp.key sentry) data.transitions 0) :
    data.findLocaltime sentry comp = data.rule 0 := by
  rw [findLocaltime_eq_deref, findLocaltimePtr_zero h, addressOf_bind]
  rfl

theorem findLocaltime_succ (hsort : data.transitions.Pairwise fun x y => comp.key x < comp.key y)
    (h : Partitioned (fun x => comp.key x ≤ comp.key sentry) data.transitions (k + 1)) :
    data.findLocaltime sentry comp = data.rule (k + 1) := by
  have hlast := List.getElem?_eq_getElem (l := data.transitions) (i := k) h.1
  rw [findLocaltime_eq_deref, findLocaltimePtr_succ hsort h hlast, addressOf_bind, rule,
    transition_of_get hlast]
  rfl

/-- **A lookup finds the type of the last transition at or before the key**, for any data sorted by
it. -/
theorem findLocaltime_eq (hsort : data.transitions.Pairwise fun x y => comp.key x < comp.key y)
    (h : Partitioned (fun x => comp.key x ≤ comp.key sentry) data.transitions k) :
    data.findLocaltime sentry comp = data.rule k := by
  rcases k with _ | k
  · exact findLocaltime_zero h
  · exact findLocaltime_succ hsort h

/-! ## The rule in force -/

/-- The index of the type of the last transition whose key is not after that of the sentry, and of the
front of `localtimes` when there is none. -/
def inForce (data : Data) (sentry : Transition) (comp : Comp) : ℕ :=
  match (data.transitions.filter fun x => comp.key x ≤ comp.key sentry).getLast? with
  | some x => x.localtimeIdx
  | none => 0

theorem inForce_zero (h : Partitioned (fun x => comp.key x ≤ comp.key sentry) data.transitions 0) :
    data.inForce sentry comp = 0 := by
  rw [inForce, h.filter_eq]
  rfl

theorem inForce_succ {last : Transition}
    (h : Partitioned (fun x => comp.key x ≤ comp.key sentry) data.transitions (k + 1))
    (hlast : data.transitions[k]? = some last) : data.inForce sentry comp = last.localtimeIdx := by
  rw [inForce, h.filter_eq, List.getLast?_take, if_neg (Nat.succ_ne_zero k), Nat.add_sub_cancel, hlast]
  rfl

/-- **A lookup finds the rule in force** in data that is sorted by the key: the pointer is not null, no
assertion fails, and no index is out of range. -/
theorem findLocaltime_inForce (data : Data) (comp : Comp) (sentry : Transition)
    (hne : data.localtimes ≠ [])
    (hidx : ∀ x ∈ data.transitions, x.localtimeIdx < data.localtimes.length)
    (hsort : data.transitions.Pairwise fun x y => comp.key x < comp.key y) :
    ∃ l, data.localtimes[data.inForce sentry comp]? = some l ∧
      data.findLocaltimePtr sentry comp = .ok (some (data.inForce sentry comp)) ∧
      data.findLocaltime sentry comp = .ok l := by
  obtain ⟨k, hk⟩ : ∃ k, Partitioned (fun x => comp.key x ≤ comp.key sentry) data.transitions k := by
    refine exists_partitioned (hsort.imp fun {x y} hxy hy => ?_)
    simp only [decide_eq_true_eq] at *
    omega
  obtain ⟨hptr, hin⟩ : data.findLocaltimePtr sentry comp = data.addressOf (data.inForce sentry comp) ∧
      data.inForce sentry comp < data.localtimes.length := by
    rcases k with _ | k
    · rw [inForce_zero hk]
      exact ⟨findLocaltimePtr_zero hk, List.length_pos_iff.mpr hne⟩
    · have hlast := List.getElem?_eq_getElem (l := data.transitions) (i := k) hk.1
      rw [inForce_succ hk hlast]
      exact ⟨findLocaltimePtr_succ hsort hk hlast, hidx _ (List.mem_of_getElem? hlast)⟩
  have hl := List.getElem?_eq_getElem hin
  refine ⟨_, hl, ?_, ?_⟩
  · rw [hptr, addressOf, if_pos hin]
  · rw [findLocaltime_eq_deref, hptr, addressOf_bind, localtime, hl]

/-- A second in summer time, by either key. -/
theorem findLocaltime_inForce_summer :
    (Data.mk [⟨10, 3610, 1⟩, ⟨5000, 5000, 0⟩] [⟨0, false, 0⟩, ⟨3600, true, 4⟩] []).findLocaltime
        ⟨10, 0, 0⟩ ⟨true⟩ = .ok ⟨3600, true, 4⟩ ∧
      (Data.mk [⟨10, 3610, 1⟩, ⟨5000, 5000, 0⟩] [⟨0, false, 0⟩, ⟨3600, true, 4⟩] []).findLocaltime
        ⟨0, 4999, 0⟩ ⟨false⟩ = .ok ⟨3600, true, 4⟩ := by
  obtain ⟨l, hl, -, hgmt⟩ := findLocaltime_inForce
    ⟨[⟨10, 3610, 1⟩, ⟨5000, 5000, 0⟩], [⟨0, false, 0⟩, ⟨3600, true, 4⟩], []⟩ ⟨true⟩ ⟨10, 0, 0⟩
    (by decide) (by decide) (by decide)
  obtain ⟨m, hm, -, hlocal⟩ := findLocaltime_inForce
    ⟨[⟨10, 3610, 1⟩, ⟨5000, 5000, 0⟩], [⟨0, false, 0⟩, ⟨3600, true, 4⟩], []⟩ ⟨false⟩ ⟨0, 4999, 0⟩
    (by decide) (by decide) (by decide)
  obtain rfl := Option.some.inj hl
  obtain rfl := Option.some.inj hm
  exact ⟨hgmt, hlocal⟩

end Data

/-! ## What a conversion returns -/

variable {data : Data} {t : ℤ} {a : Localtime}

/-- The broken-down time of `t` under the rule `a`. -/
def broken (C : Calendar) (t : ℤ) (a : Localtime) : Tm :=
  { C.gmtime (t + a.gmtOffset) with isDst := a.isDst, gmtOff := a.gmtOffset, zone := a.arrbIdx }

theorem toLocalTime_of_find (hl : data.findLocaltime ⟨t, 0, 0⟩ ⟨true⟩ = .ok a) :
    toLocalTime C (some data) t = .ok (broken C t a) := by
  show (data.findLocaltime ⟨t, 0, 0⟩ ⟨true⟩ >>= fun l => .ok (broken C t l)) = _
  rw [hl]
  rfl

/-- `fromLocalTime` once the rule is found. -/
theorem fromLocalTime_of_find {tm : Tm} {seconds : ℤ} (hs : C.timegm tm.toBrokenTime = seconds)
    (hl : data.findLocaltime ⟨0, seconds, 0⟩ ⟨false⟩ = .ok a) :
    fromLocalTime C (some data) tm =
      if tm.isDst then do
        let tryTm ← toLocalTime C (some data) (seconds - a.gmtOffset)
        if !tryTm.isDst && tryTm.hour == tm.hour && tryTm.min == tm.min then
          return seconds - 3600 - a.gmtOffset
        return seconds - a.gmtOffset
      else .ok (seconds - a.gmtOffset) := by
  subst hs
  show (data.findLocaltime ⟨0, C.timegm tm.toBrokenTime, 0⟩ ⟨false⟩ >>= fun l => _) = _
  rw [hl]
  rfl

end MengSen.TimeZone

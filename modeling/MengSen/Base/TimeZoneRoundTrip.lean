import MengSen.Base.TimeZone
import Mathlib.Data.List.Chain

/-!
# Base.TimeZoneRoundTrip — local times and back

`toLocalTime` looks up by UTC, `fromLocalTime` by local time, which repeats an hour when daylight
saving time ends.  A time of the last hour before is found one rule too late; its local time says
`isDst`, the rule found does not, and the time an hour later has the same hour and minute, so that
`fromLocalTime` goes back an hour.
-/

namespace MengSen.TimeZone

/-- `y` comes at least three days after `x`. -/
def Apart (x y : Transition) : Prop := x.gmttime + 3 * 86400 ≤ y.gmttime

instance : IsTrans Transition Apart := ⟨fun x y z hxy hyz => by simp only [Apart] at *; omega⟩

/-- The data of a zone whose rules change at most every three days, and which falls back by one hour
from daylight saving time only. -/
structure Regular (data : Data) : Prop where
  nonempty : data.localtimes ≠ []
  inRange : ∀ x ∈ data.transitions, x.localtimeIdx < data.localtimes.length
  offset : ∀ l ∈ data.localtimes, -86400 < l.gmtOffset ∧ l.gmtOffset < 86400
  apart : data.transitions.IsChain Apart
  localtime : ∀ x ∈ data.transitions, ∀ l, data.localtimes[x.localtimeIdx]? = some l →
    x.localtime = x.gmttime + l.gmtOffset
  fall : ∀ k a b, data.rule k = .ok a → data.rule (k + 1) = .ok b → b.gmtOffset < a.gmtOffset →
    a.isDst = true ∧ b.isDst = false ∧ a.gmtOffset = b.gmtOffset + 3600

namespace Regular

variable {data : Data} {k : ℕ} {t : ℤ} {a b : Localtime} {x y : Transition}

/-! ## Rules and transitions -/

theorem localtime_ok {data : Data} {i : ℕ} (h : i < data.localtimes.length) :
    data.localtime i = .ok data.localtimes[i] := by
  rw [Data.localtime, List.getElem?_eq_getElem h]

theorem getElem?_of_localtime {data : Data} {i : ℕ} (h : data.localtime i = .ok a) :
    data.localtimes[i]? = some a := by
  unfold Data.localtime at h
  split at h
  · next hl =>
    obtain rfl := Except.ok.inj h
    exact hl
  · cases h

theorem rule_succ (hx : data.transitions[k]? = some x) :
    data.rule (k + 1) = data.localtime x.localtimeIdx := by
  rw [Data.rule, Data.transition_of_get hx]
  rfl

/-- Every rule up to the last one is found. -/
theorem rule_ok (h : Regular data) (hk : k ≤ data.transitions.length) :
    ∃ l, data.rule k = .ok l ∧ l ∈ data.localtimes := by
  rcases k with _ | k
  · have h0 : 0 < data.localtimes.length := List.length_pos_iff.mpr h.nonempty
    exact ⟨_, localtime_ok h0, List.getElem_mem h0⟩
  · have hx := List.getElem?_eq_getElem (l := data.transitions) (i := k) hk
    have hidx := h.inRange _ (List.getElem_mem hk)
    exact ⟨_, (rule_succ hx).trans (localtime_ok hidx), List.getElem_mem hidx⟩

theorem offset_of_rule (h : Regular data) (hk : k ≤ data.transitions.length)
    (ha : data.rule k = .ok a) : -86400 < a.gmtOffset ∧ a.gmtOffset < 86400 := by
  obtain ⟨l, hl, hmem⟩ := h.rule_ok hk
  rw [ha] at hl
  exact h.offset a (Except.ok.inj hl ▸ hmem)

theorem pairwise_apart (h : Regular data) : data.transitions.Pairwise Apart :=
  List.isChain_iff_pairwise.mp h.apart

theorem apart_of_lt (h : Regular data) {i j : ℕ} (hi : data.transitions[i]? = some x)
    (hj : data.transitions[j]? = some y) (hij : i < j) : Apart x y := by
  obtain ⟨hi', rfl⟩ := List.getElem?_eq_some_iff.mp hi
  obtain ⟨hj', rfl⟩ := List.getElem?_eq_some_iff.mp hj
  exact List.pairwise_iff_getElem.mp h.pairwise_apart i j hi' hj' hij

/-- The local time of a transition is that of the rule after it. -/
theorem localtime_eq (h : Regular data) (hx : data.transitions[k]? = some x)
    (ha : data.rule (k + 1) = .ok a) : x.localtime = x.gmttime + a.gmtOffset :=
  h.localtime x (List.mem_of_getElem? hx) a (getElem?_of_localtime ((rule_succ hx).symm.trans ha))

/-- The local time of a transition is less than a day from its UTC. -/
theorem localtime_near (h : Regular data) (hx : x ∈ data.transitions) :
    x.gmttime - 86400 < x.localtime ∧ x.localtime < x.gmttime + 86400 := by
  have hidx := h.inRange x hx
  have hlocal := h.localtime x hx _ (List.getElem?_eq_getElem hidx)
  have hoff := h.offset _ (List.getElem_mem hidx)
  omega

/-! ## The two orders -/

theorem sorted_gmt (h : Regular data) :
    data.transitions.Pairwise fun x y => Comp.key ⟨true⟩ x < Comp.key ⟨true⟩ y := by
  refine h.pairwise_apart.imp fun {x y} hxy => ?_
  show x.gmttime < y.gmttime
  simp only [Apart] at hxy
  omega

theorem sorted_local (h : Regular data) :
    data.transitions.Pairwise fun x y => Comp.key ⟨false⟩ x < Comp.key ⟨false⟩ y := by
  refine h.pairwise_apart.imp_of_mem fun {x y} hx hy hxy => ?_
  show x.localtime < y.localtime
  have hxl := h.localtime_near hx
  have hyl := h.localtime_near hy
  simp only [Apart] at hxy
  omega

/-- At `t` there have been `k` transitions. -/
def After (data : Data) (t : ℤ) (k : ℕ) : Prop :=
  Partitioned (fun x => x.gmttime ≤ t) data.transitions k

/-- At the local time `l`, the lookup sees `k` transitions. -/
def AfterLocal (data : Data) (l : ℤ) (k : ℕ) : Prop :=
  Partitioned (fun x => x.localtime ≤ l) data.transitions k

theorem exists_after (h : Regular data) (t : ℤ) : ∃ k, After data t k := by
  refine exists_partitioned (h.pairwise_apart.imp fun {x y} hxy hy => ?_)
  simp only [decide_eq_true_eq, Apart] at *
  omega

/-- The transitions before `t` are before its local time. -/
theorem local_before (h : Regular data) (hk : After data t k) (ha : data.rule k = .ok a) {i : ℕ}
    (hx : data.transitions[i]? = some x) (hi : i < k) : x.localtime ≤ t + a.gmtOffset := by
  obtain ⟨hlen, hpart⟩ := hk
  simp only [decide_eq_true_eq] at hpart
  have hoff := h.offset_of_rule hlen ha
  obtain ⟨k, rfl⟩ : ∃ j, k = j + 1 := ⟨k - 1, by omega⟩
  rcases Nat.lt_succ_iff_lt_or_eq.mp hi with hlt | rfl
  · have hklast : data.transitions[k]? = some data.transitions[k] := List.getElem?_eq_getElem hlen
    have hlast := (hpart k _ hklast).mpr (Nat.lt_succ_self k)
    have hapart := h.apart_of_lt hx hklast hlt
    have hnear := h.localtime_near (List.mem_of_getElem? hx)
    simp only [Apart] at hapart
    omega
  · have hle := (hpart i x hx).mpr hi
    rw [h.localtime_eq hx ha]
    omega

/-- The transitions after the next one are after the local time. -/
theorem local_later (h : Regular data) (hk : After data t k) (ha : data.rule k = .ok a) {i : ℕ}
    (hx : data.transitions[i]? = some x) (hi : k < i) : t + a.gmtOffset < x.localtime := by
  obtain ⟨hlen, hpart⟩ := hk
  simp only [decide_eq_true_eq] at hpart
  have hoff := h.offset_of_rule hlen ha
  have hilen : i < data.transitions.length := (List.getElem?_eq_some_iff.mp hx).1
  have hkget := List.getElem?_eq_getElem (l := data.transitions) (i := k) (by omega)
  have hnext : ¬ _ ≤ t := fun hle => Nat.lt_irrefl k ((hpart k _ hkget).mp hle)
  have hapart := h.apart_of_lt hkget hx hi
  have hnear := h.localtime_near (List.mem_of_getElem? hx)
  simp only [Apart] at hapart
  omega

/-- Unless it is in the repeated hour before a transition, a local time is placed as its UTC. -/
theorem afterLocal_same (h : Regular data) (hk : After data t k) (ha : data.rule k = .ok a)
    (hnext : ∀ y, data.transitions[k]? = some y → t + a.gmtOffset < y.localtime) :
    AfterLocal data (t + a.gmtOffset) k := by
  refine ⟨hk.1, fun i x hx => ?_⟩
  rw [decide_eq_true_eq]
  refine ⟨fun hle => ?_, h.local_before hk ha hx⟩
  by_contra hi
  rcases Nat.eq_or_lt_of_not_lt hi with rfl | hlt
  · exact absurd hle (Int.not_le.mpr (hnext x hx))
  · exact absurd hle (Int.not_le.mpr (h.local_later hk ha hx hlt))

/-- In the repeated hour it is placed one rule too late. -/
theorem afterLocal_next (h : Regular data) (hk : After data t k) (ha : data.rule k = .ok a)
    (hy : data.transitions[k]? = some y) (hle : y.localtime ≤ t + a.gmtOffset) :
    AfterLocal data (t + a.gmtOffset) (k + 1) := by
  refine ⟨(List.getElem?_eq_some_iff.mp hy).1, fun i x hx => ?_⟩
  rw [decide_eq_true_eq]
  refine ⟨fun hxle => ?_, fun hi => ?_⟩
  · by_contra hi
    exact absurd hxle (Int.not_le.mpr (h.local_later hk ha hx (by omega)))
  · rcases Nat.lt_succ_iff_lt_or_eq.mp hi with hlt | rfl
    · exact h.local_before hk ha hx hlt
    · rw [hy] at hx
      rw [← Option.some.inj hx]
      exact hle

/-- In the repeated hour daylight saving time ends, and an hour later it has ended. -/
theorem repeated_hour (h : Regular data) (hk : After data t k) (ha : data.rule k = .ok a)
    (hy : data.transitions[k]? = some y) (hle : y.localtime ≤ t + a.gmtOffset) :
    ∃ b, data.rule (k + 1) = .ok b ∧ a.isDst = true ∧ b.isDst = false ∧
      a.gmtOffset = b.gmtOffset + 3600 ∧ After data (t + 3600) (k + 1) := by
  have hlen : k + 1 ≤ data.transitions.length := (List.getElem?_eq_some_iff.mp hy).1
  obtain ⟨b, hb, -⟩ := h.rule_ok hlen
  have hlocal := h.localtime_eq hy hb
  have hpart := hk.2
  simp only [decide_eq_true_eq] at hpart
  have hafter : ¬ y.gmttime ≤ t := fun hn => Nat.lt_irrefl k ((hpart k y hy).mp hn)
  obtain ⟨hdst, hstd, hhour⟩ := h.fall k a b ha hb (by omega)
  refine ⟨b, hb, hdst, hstd, hhour, hlen, fun i x hx => ?_⟩
  rw [decide_eq_true_eq]
  refine ⟨fun hxle => ?_, fun hi => ?_⟩
  · by_contra hi
    have hapart := h.apart_of_lt hy hx (by omega)
    simp only [Apart] at hapart
    omega
  · rcases Nat.lt_succ_iff_lt_or_eq.mp hi with hlt | rfl
    · have hxle := (hpart i x hx).mpr hlt
      omega
    · rw [hy] at hx
      rw [← Option.some.inj hx]
      omega

/-! ## The conversions -/

variable (C : Calendar)

theorem toLocalTime_eq (h : Regular data) (hk : After data t k) (ha : data.rule k = .ok a) :
    toLocalTime C (some data) t = .ok (broken C t a) := by
  have hp : Partitioned (fun x => Comp.key ⟨true⟩ x ≤ Comp.key ⟨true⟩ ⟨t, 0, 0⟩)
      data.transitions k := hk
  exact toLocalTime_of_find C ((Data.findLocaltime_eq h.sorted_gmt hp).trans ha)

theorem findLocal_eq (h : Regular data) {l : ℤ} (hk : AfterLocal data l k)
    (ha : data.rule k = .ok a) : data.findLocaltime ⟨0, l, 0⟩ ⟨false⟩ = .ok a := by
  have hp : Partitioned (fun x => Comp.key ⟨false⟩ x ≤ Comp.key ⟨false⟩ ⟨0, l, 0⟩)
      data.transitions k := hk
  exact (Data.findLocaltime_eq h.sorted_local hp).trans ha

/-- The rule found is that of `t`: the hour is not given back. -/
theorem fromLocalTime_same (hC : ∀ x, C.timegm (C.gmtime x) = x)
    (ha : data.findLocaltime ⟨0, t + a.gmtOffset, 0⟩ ⟨false⟩ = .ok a)
    (hto : toLocalTime C (some data) t = .ok (broken C t a)) :
    fromLocalTime C (some data) (broken C t a) = .ok t := by
  rw [fromLocalTime_of_find C (hC _) ha, Int.add_sub_cancel, hto]
  rcases hdst : a.isDst
  · simp [broken, hdst]
  · simp [broken, hdst]

/-- The rule found is the one after that of `t`, an hour behind: the hour is given back. -/
theorem fromLocalTime_next (hC : ∀ x, C.timegm (C.gmtime x) = x)
    (hb : data.findLocaltime ⟨0, t + a.gmtOffset, 0⟩ ⟨false⟩ = .ok b) (hdst : a.isDst = true)
    (hstd : b.isDst = false) (hhour : a.gmtOffset = b.gmtOffset + 3600)
    (hto : toLocalTime C (some data) (t + 3600) = .ok (broken C (t + 3600) b)) :
    fromLocalTime C (some data) (broken C t a) = .ok t := by
  have hback : t + a.gmtOffset - b.gmtOffset = t + 3600 := by omega
  have hsame : t + 3600 + b.gmtOffset = t + a.gmtOffset := by omega
  have hres : t + a.gmtOffset - 3600 - b.gmtOffset = t := by omega
  rw [fromLocalTime_of_find C (hC _) hb, hback, hto]
  simp [broken, hdst, hstd, hsame, hres]

/-- A local time of a regular zone is converted back. -/
theorem roundTrip (h : Regular data) (hC : ∀ x, C.timegm (C.gmtime x) = x) (t : ℤ) :
    ∃ tm, toLocalTime C (some data) t = .ok tm ∧ fromLocalTime C (some data) tm = .ok t := by
  obtain ⟨k, hk⟩ := h.exists_after t
  obtain ⟨a, ha, -⟩ := h.rule_ok hk.1
  have hto := h.toLocalTime_eq C hk ha
  refine ⟨broken C t a, hto, ?_⟩
  by_cases hnext : ∀ y, data.transitions[k]? = some y → t + a.gmtOffset < y.localtime
  · exact fromLocalTime_same C hC (h.findLocal_eq (h.afterLocal_same hk ha hnext) ha) hto
  · obtain ⟨y, hy⟩ := Classical.not_forall.mp hnext
    obtain ⟨hy, hlt⟩ := Classical.not_imp.mp hy
    have hle : y.localtime ≤ t + a.gmtOffset := Int.not_lt.mp hlt
    obtain ⟨b, hb, hdst, hstd, hhour, hlater⟩ := h.repeated_hour hk ha hy hle
    exact fromLocalTime_next C hC (h.findLocal_eq (h.afterLocal_next hk ha hy hle) hb) hdst hstd
      hhour (h.toLocalTime_eq C hlater hb)

end Regular

/-- A fixed zone has one rule, without daylight saving time. -/
theorem fixed_roundTrip (C : Calendar) (hC : ∀ x, C.timegm (C.gmtime x) = x) (eastOfUtc : ℤ)
    (name : List UInt8) (t : ℤ) :
    ∃ tm, toLocalTime C (fixed eastOfUtc name) t = .ok tm ∧
      fromLocalTime C (fixed eastOfUtc name) tm = .ok t := by
  have ha : ∀ sentry comp, Data.findLocaltime ⟨[], [⟨eastOfUtc, false, 0⟩], name⟩ sentry comp =
      .ok ⟨eastOfUtc, false, 0⟩ := fun _ _ => rfl
  have hto := toLocalTime_of_find C (ha ⟨t, 0, 0⟩ ⟨true⟩)
  exact ⟨_, hto, Regular.fromLocalTime_same C hC (ha _ _) hto⟩

/-- **Local times convert back**, for every regular zone, every fixed zone and every time. -/
theorem localTime_roundTrip (C : Calendar) (hC : ∀ x, C.timegm (C.gmtime x) = x) :
    (∀ data, Regular data → ∀ t,
      ∃ tm, toLocalTime C (some data) t = .ok tm ∧ fromLocalTime C (some data) tm = .ok t) ∧
      ∀ eastOfUtc name t, ∃ tm, toLocalTime C (fixed eastOfUtc name) t = .ok tm ∧
        fromLocalTime C (fixed eastOfUtc name) tm = .ok t :=
  ⟨fun _ h t => h.roundTrip C hC t, fixed_roundTrip C hC⟩

/-- Central European time in 2021. -/
def cet2021 : Data where
  transitions := [⟨1616893200, 1616900400, 1⟩, ⟨1635642000, 1635645600, 0⟩]
  localtimes := [⟨3600, false, 0⟩, ⟨7200, true, 4⟩]
  abbreviation := "CET".toUTF8.toList ++ 0 :: "CEST".toUTF8.toList

/-- The broken-down times of October 2021, its days counted on beyond the month. -/
def october2021 : Calendar where
  gmtime s :=
    { sec := s % 86400 % 60
      min := s % 86400 / 60 % 60
      hour := s % 86400 / 3600
      mday := s / 86400 - 18901 + 1
      mon := 9
      year := 121
      wday := (s / 86400 + 4) % 7
      yday := s / 86400 - 18628 }
  timegm tm := (tm.mday - 1 + 18901) * 86400 + tm.hour * 3600 + tm.min * 60 + tm.sec

theorem regular_cet2021 : Regular cet2021 where
  nonempty := by simp [cet2021]
  inRange := by simp [cet2021]
  offset := by simp [cet2021]
  apart := by simp [cet2021, Apart]
  localtime := by simp [cet2021]
  fall := by
    rintro (_ | _ | k) a b ha hb hlt
    · obtain rfl := Except.ok.inj ha
      obtain rfl := Except.ok.inj hb
      simp at hlt
    · obtain rfl := Except.ok.inj ha
      obtain rfl := Except.ok.inj hb
      exact ⟨rfl, rfl, rfl⟩
    · cases hb

/-- Half an hour before daylight saving time ended: 2:30 on October 31st, for the first time. -/
theorem localTime_roundTrip_october2021 :
    ∃ tm, toLocalTime october2021 (some cet2021) 1635640200 = .ok tm ∧ tm.hour = 2 ∧ tm.min = 30 ∧
      tm.mday = 31 ∧ tm.isDst = true ∧
      fromLocalTime october2021 (some cet2021) tm = .ok 1635640200 := by
  have hC : ∀ x, october2021.timegm (october2021.gmtime x) = x := by
    intro x
    simp only [october2021]
    omega
  obtain ⟨tm, hto, hfrom⟩ := (localTime_roundTrip october2021 hC).1 cet2021 regular_cet2021 1635640200
  have htm : tm = ⟨⟨0, 30, 2, 31, 9, 121, 0, 303⟩, true, 7200, 4⟩ :=
    Except.ok.inj (hto.symm.trans (by decide))
  exact ⟨tm, hto, by rw [htm], by rw [htm], by rw [htm], by rw [htm], hfrom⟩

end MengSen.TimeZone

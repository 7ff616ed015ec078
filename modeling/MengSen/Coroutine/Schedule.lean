import MengSen.Lib.Machine
import Mathlib.Logic.Function.Basic
import Mathlib.Data.List.Basic
import Mathlib.Data.Int.Notation

/-!
# Coroutine.Schedule — coroutines and their ids

`schedule` of `coroutine/schedule.cpp` and `coroutine::mainfunc`.  An id is an index into the vector
behind `_co_ptr`.  A coroutine is known here by the number of its creation; of the stacks and the
contexts that `swapcontext` exchanges, the model keeps who runs and the variable `id` of each
`mainfunc`.  Only the main context resumes.

`IdsValid` says what the ids are for.  `coroutine_create` returns 0 and stores nothing
(its `emplace_back` is commented out), so that no state of any run meets it (`ids_never_valid`).
-/

namespace MengSen.Schedule

open Machine (check check_bind_eq_ok bind_eq_ok anyAction)

inductive Status
  | dead
  | ready
  | running
  | suspend
  deriving DecidableEq

structure Coroutine where
  number : ℕ
  status : Status

inductive Fault
  | assertion
  /-- `at` or `erase` past the end of the vector -/
  | outOfRange
  deriving DecidableEq

structure State where
  /-- `*_co_ptr` -/
  co : List Coroutine
  /-- `_co_ptr->capacity()` -/
  capacity : ℕ
  running : ℤ
  /-- the coroutine that runs, `none` in the main context -/
  context : Option ℕ
  /-- the variable `id` of the `mainfunc` of each coroutine -/
  mainId : ℕ → ℤ
  /-- the number of coroutines created -/
  created : ℕ
  /-- the id returned for each coroutine that has not completed, with its number -/
  live : List (ℕ × ℕ)

inductive Action
  | create
  | resume (id : ℤ)
  /-- `above` is the outcome of the comparison of addresses in `coroutine_yield` -/
  | yield (above : Bool)
  /-- the function of the running coroutine returns to `mainfunc` -/
  | complete
  | status (id : ℤ)

/-! ## Functions of the class -/

namespace State

variable (s : State)

/-- `_co_ptr->at(id)`. -/
def coAt (id : ℤ) : Except Fault Coroutine :=
  match if id < 0 then none else s.co[id.toNat]? with
  | some c => .ok c
  | none => .error .outOfRange

def setStatus (id : ℤ) (status : Status) : State :=
  { s with co := s.co.modify id.toNat fun c => { c with status := status } }

/-- The id that `coroutine_create` returns. -/
def createdId : ℕ := 0

def coroutineCreate : State :=
  { s with created := s.created + 1, live := s.live ++ [(createdId, s.created)] }

def coroutineResume (id : ℤ) : Except Fault State := do
  check (s.running = -1) .assertion
  check (0 ≤ id ∧ id ≤ s.co.length) .assertion
  let c ← s.coAt id
  match c.status with
  | .ready =>
    return { s.setStatus id .running with
      running := id
      context := some c.number
      -- `mainfunc` begins with `id = coroutine_running()`
      mainId := Function.update s.mainId c.number id }
  | .suspend => return { s.setStatus id .running with running := id, context := some c.number }
  | _ => .error .assertion

def coroutineYield (above : Bool) : Except Fault State := do
  let id := s.running
  check (0 ≤ id) .assertion
  let _ ← s.coAt id
  check (above = true) .assertion
  return { s.setStatus id .suspend with running := -1, context := none }

/-- The end of `mainfunc` of the coroutine `n`. -/
def mainfuncEnd (n : ℕ) : Except Fault State := do
  let id := s.mainId n
  check (0 ≤ id ∧ id < s.co.length) .outOfRange
  return { s with
    co := s.co.eraseIdx id.toNat
    running := -1
    context := none
    live := s.live.filter fun p => p.2 ≠ n }

def coroutineStatus (id : ℤ) : Except Fault Status := do
  check (0 ≤ id ∧ id < s.capacity) .assertion
  if id > s.co.length then return .dead
  let c ← s.coAt id
  return c.status

end State

def act (s : State) : Action → Option (Except Fault State)
  | .create => some (.ok s.coroutineCreate)
  | .resume id => some (s.coroutineResume id)
  | .yield above => some (s.coroutineYield above)
  | .complete => s.context.map s.mainfuncEnd
  | .status id => some do
    let _ ← s.coroutineStatus id
    return s

/-- A new schedule, whose vector has some capacity. -/
def init (capacity : ℕ) : State where
  co := []
  capacity := capacity
  running := -1
  context := none
  mainId _ := -1
  created := 0
  live := []

def machine (capacity : ℕ) : Machine State Action Fault where
  init s := s = init capacity
  act := act

/-! ## The ids -/

/-- What an id is for: those of the coroutines that have not completed are distinct, each denotes its
coroutine, and any other has the status `DEAD`. -/
structure IdsValid (s : State) : Prop where
  distinct : (s.live.map Prod.fst).Nodup
  status : ∀ p ∈ s.live, ∃ status, s.coroutineStatus p.1 = .ok status ∧
    ∀ c ∈ s.co, c.number = p.2 → status = c.status
  resume : ∀ p ∈ s.live, ∀ t, s.coroutineResume p.1 = .ok t → t.context = some p.2
  dead : ∀ id : ℕ, id ∉ s.live.map Prod.fst → s.coroutineStatus id = .ok .dead

/-- No coroutine is stored, and none runs. -/
structure Empty (s : State) : Prop where
  co : s.co = []
  running : s.running = -1
  context : s.context = none

variable {s t : State} {capacity : ℕ}

theorem Empty.coAt (h : Empty s) (id : ℤ) : s.coAt id = .error .outOfRange := by
  have hget : (if id < 0 then none else s.co[id.toNat]?) = none := by simp [h.co]
  rw [State.coAt, hget]

/-- Every resume fails: an assertion, or `at` of an empty vector. -/
theorem Empty.coroutineResume (h : Empty s) (id : ℤ) : s.coroutineResume id ≠ .ok t := by
  intro hok
  obtain ⟨-, hok⟩ := check_bind_eq_ok.mp hok
  obtain ⟨-, hok⟩ := check_bind_eq_ok.mp hok
  rw [h.coAt] at hok
  cases hok

/-- `coroutine_yield` finds no running coroutine. -/
theorem Empty.coroutineYield (h : Empty s) (above : Bool) : s.coroutineYield above ≠ .ok t := by
  intro hok
  obtain ⟨hrun, -⟩ := check_bind_eq_ok.mp hok
  rw [h.running] at hrun
  cases hrun

/-- `coroutine_status(0)` fails: the vector has no capacity, or `0 > size()` does not hold. -/
theorem Empty.coroutineStatus_zero (h : Empty s) (status : Status) :
    s.coroutineStatus 0 ≠ .ok status := by
  intro hok
  obtain ⟨-, hok⟩ := check_bind_eq_ok.mp hok
  rw [h.co, h.coAt] at hok
  cases hok

/-- **Step lemma**: no step stores a coroutine. -/
theorem Empty.step {a : Action} (h : Empty s) (hs : (machine capacity).Step s a t) : Empty t := by
  simp only [Machine.Step, machine] at hs
  cases a with
  | create =>
    obtain rfl := Except.ok.inj (Option.some.inj hs)
    exact ⟨h.co, h.running, h.context⟩
  | resume id => exact absurd (Option.some.inj hs) (h.coroutineResume id)
  | yield above => exact absurd (Option.some.inj hs) (h.coroutineYield above)
  | complete =>
    simp only [act, h.context, Option.map_none] at hs
    cases hs
  | status id =>
    obtain ⟨_, -, heq⟩ := bind_eq_ok.mp (Option.some.inj hs)
    obtain rfl := Except.ok.inj heq
    exact h

theorem reach_empty (h : (machine capacity).Reach anyAction s) : Empty s := by
  refine Machine.Reach.induct ?_ ?_ h
  · rintro s rfl
    exact ⟨rfl, rfl, rfl⟩
  · intro s a t _ he _ hs
    exact he.step hs

/-- **The ids are never valid**: in no state of any run does the id 0 denote its coroutine, or is it
reported `DEAD`. -/
theorem ids_never_valid (h : (machine capacity).Reach anyAction s) : ¬ IdsValid s := by
  have he := reach_empty h
  intro hv
  by_cases hlive : 0 ∈ s.live.map Prod.fst
  · obtain ⟨p, hp, hid⟩ := List.mem_map.mp hlive
    obtain ⟨status, hstatus, -⟩ := hv.status p hp
    rw [hid] at hstatus
    exact he.coroutineStatus_zero status hstatus
  · exact he.coroutineStatus_zero _ (hv.dead 0 hlive)

theorem ids_never_valid_twoCreated : ∃ s, (machine 0).Reach anyAction s ∧
    s.live = [(0, 0), (0, 1)] ∧ ¬ IdsValid s := by
  obtain ⟨s, hs, hlive⟩ : ∃ s, (machine 0).exec anyAction (init 0) [.create, .create] = some s ∧
      s.live = [(0, 0), (0, 1)] := ⟨_, rfl, rfl⟩
  have hr : (machine 0).Reach anyAction s := .of_exec (.init rfl) hs
  exact ⟨s, hr, hlive, ids_never_valid hr⟩

/-- Two coroutines have the same id, and its status cannot be asked. -/
theorem ids_clash : ∃ s, (machine 0).Reach anyAction s ∧ s.live = [(0, 0), (0, 1)] ∧
    ¬ (s.live.map Prod.fst).Nodup ∧ s.coroutineStatus 0 = .error .assertion ∧
    s.coroutineResume 0 = .error .outOfRange ∧ ¬ IdsValid s := by
  obtain ⟨s, hs, hlive, hstatus, hresume⟩ : ∃ s,
      (machine 0).exec anyAction (init 0) [.create, .create] = some s ∧
        s.live = [(0, 0), (0, 1)] ∧ s.coroutineStatus 0 = .error .assertion ∧
        s.coroutineResume 0 = .error .outOfRange := ⟨_, rfl, rfl, rfl, rfl⟩
  have hdup : ¬ (s.live.map Prod.fst).Nodup := by
    rw [hlive]
    decide
  exact ⟨s, .of_exec (.init rfl) hs, hlive, hdup, hstatus, hresume, fun hv => hdup hv.distinct⟩

end MengSen.Schedule

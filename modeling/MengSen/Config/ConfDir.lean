import Mathlib.Data.List.Basic
import Mathlib.Logic.Function.Basic

/-!
# Config.ConfDir — loading a directory of files

`Config::LoadFromConfDir` of `config/config.cpp`.  A file that is listed is visited: it is skipped when
its `st_mtime` is the one that is remembered, else the time is remembered and the file is loaded.  What
`YAML::LoadFile` and `LoadFromYaml` do is left out, but for whether they return; an exception of either
is swallowed.  `lastLoad` is a ghost.
-/

namespace MengSen.ConfDir

/-- A file as a call finds it. -/
structure Visit (F : Type) where
  file : F
  st_mtime : Int64
  /-- whether `YAML::LoadFile` and `LoadFromYaml` return, if they are called -/
  completes : Bool

structure State (F : Type) where
  /-- the values of the map, 0 for a file without an entry -/
  s_file2modifytime : F → UInt64
  /-- the most recent load: the `st_mtime` with which it was begun, and whether it completed -/
  lastLoad : F → Option (Int64 × Bool)

/-- Before the first call. -/
def State.init {F : Type} : State F := ⟨fun _ => 0, fun _ => none⟩

section Model

variable {F : Type} [DecidableEq F]

/-- A round of the loop over the files, and whether the file is skipped. -/
def visit (s : State F) (force : Bool) (i : Visit F) : Bool × State F :=
  if !force && s.s_file2modifytime i.file == i.st_mtime.toUInt64 then (true, s)
  else
    (false,
      { s_file2modifytime := Function.update s.s_file2modifytime i.file i.st_mtime.toUInt64
        lastLoad := Function.update s.lastLoad i.file (some (i.st_mtime, i.completes)) })

/-- A call, with the files that `ListAllFile` lists. -/
def loadFromConfDir (s : State F) (call : Bool × List (Visit F)) : State F :=
  call.2.foldl (fun s i => (visit s call.1 i).2) s

/-- The state after the calls. -/
def run (calls : List (Bool × List (Visit F))) : State F := calls.foldl loadFromConfDir .init

end Model

/-! ## What is skipped -/

variable {F : Type} [DecidableEq F]

/-- The map remembers the time of the most recent load, completed or not. -/
def Remembers (s : State F) : Prop :=
  ∀ f, s.s_file2modifytime f = ((s.lastLoad f).elim 0 Prod.fst).toUInt64

omit [DecidableEq F] in
theorem remembers_init : Remembers (State.init : State F) := fun _ => rfl

theorem Remembers.visit {s : State F} (h : Remembers s) (force : Bool) (i : Visit F) :
    Remembers (visit s force i).2 := by
  unfold ConfDir.visit
  split
  · exact h
  · intro f
    by_cases hf : f = i.file
    · subst hf
      simp only [Function.update_self, Option.elim_some]
    · simp only [Function.update_of_ne hf]
      exact h f

theorem Remembers.loadFromConfDir {s : State F} (h : Remembers s) (call : Bool × List (Visit F)) :
    Remembers (loadFromConfDir s call) := by
  unfold ConfDir.loadFromConfDir
  induction call.2 generalizing s with
  | nil => exact h
  | cons i is ih => exact ih (h.visit call.1 i)

theorem remembers_run (calls : List (Bool × List (Visit F))) : Remembers (run calls) := by
  unfold run
  generalize hs : (State.init : State F) = s
  have h : Remembers s := hs ▸ remembers_init
  clear hs
  induction calls generalizing s with
  | nil => exact h
  | cons call calls ih => exact ih _ (h.loadFromConfDir call)

/-- **What is skipped**: a file whose `st_mtime` is that of the most recent load, or 0 before the
first. -/
theorem skips_iff {s : State F} (h : Remembers s) (force : Bool) (i : Visit F) :
    (visit s force i).1 = true ↔
      force = false ∧ (s.lastLoad i.file).elim 0 Prod.fst = i.st_mtime := by
  unfold visit
  rw [h i.file]
  cases force with
  | true => simp
  | false =>
    by_cases heq : (s.lastLoad i.file).elim 0 Prod.fst = i.st_mtime
    · simp [heq]
    · have hne : ((s.lastLoad i.file).elim 0 Prod.fst).toUInt64 ≠ i.st_mtime.toUInt64 :=
        fun hu => heq (congrArg UInt64.toInt64 hu)
      simp [heq, hne]

/-! ## Runs -/

/-- One of the calls, with the flag `force`, visits `i` in the state `s`. -/
def Visits (calls : List (Bool × List (Visit F))) (s : State F) (force : Bool) (i : Visit F) : Prop :=
  ∃ before is js after, calls = before ++ (force, is ++ i :: js) :: after ∧
    s = loadFromConfDir (run before) (force, is)

theorem Visits.remembers {calls : List (Bool × List (Visit F))} {s : State F} {force : Bool}
    {i : Visit F} (h : Visits calls s force i) : Remembers s := by
  obtain ⟨before, is, -, -, -, rfl⟩ := h
  exact (remembers_run before).loadFromConfDir _

/-- A call skips a file only if its most recent load completed with the same `st_mtime`. -/
def SkipsOnlyLoaded (calls : List (Bool × List (Visit F))) : Prop :=
  ∀ s force i, Visits calls s force i → (visit s force i).1 = true →
    s.lastLoad i.file = some (i.st_mtime, true)

/-- No unforced call meets a file whose most recent load failed at the `st_mtime` that the file still
has, nor a file that was never loaded and has the `st_mtime` 0. -/
def NoneStale (calls : List (Bool × List (Visit F))) : Prop :=
  ∀ s i, Visits calls s false i →
    s.lastLoad i.file ≠ some (i.st_mtime, false) ∧ (s.lastLoad i.file = none → i.st_mtime ≠ 0)

/-- **What is skipped was loaded exactly in the runs without a stale file**. -/
theorem skipsOnlyLoaded_iff (calls : List (Bool × List (Visit F))) :
    SkipsOnlyLoaded calls ↔ NoneStale calls := by
  refine ⟨fun h s i hv => ?_, fun h s force i hv hskip => ?_⟩
  · have hskip := skips_iff hv.remembers false i
    have hloaded := h s false i hv
    refine ⟨fun hfailed => ?_, fun hnever hzero => ?_⟩
    · have hlast := hloaded (hskip.mpr ⟨rfl, by rw [hfailed]; rfl⟩)
      rw [hfailed] at hlast
      cases hlast
    · have hlast := hloaded (hskip.mpr ⟨rfl, by rw [hnever, hzero]; rfl⟩)
      rw [hnever] at hlast
      cases hlast
  · obtain ⟨rfl, htime⟩ := (skips_iff hv.remembers force i).mp hskip
    obtain ⟨hfailed, hnever⟩ := h s i hv
    rcases hlast : s.lastLoad i.file with _ | ⟨mtime, completed⟩
    · rw [hlast] at htime
      exact absurd htime.symm (hnever hlast)
    · rw [hlast] at htime hfailed
      obtain rfl : mtime = i.st_mtime := htime
      cases completed with
      | true => rfl
      | false => exact absurd rfl hfailed

/-- A file that failed to load and has not changed since is skipped by the next call. -/
theorem skips_failed : ¬ SkipsOnlyLoaded (F := Unit)
    [(false, [⟨(), 1700000000, false⟩]), (false, [⟨(), 1700000000, true⟩])] := by
  intro h
  have hvisit : Visits (F := Unit)
      [(false, [⟨(), 1700000000, false⟩]), (false, [⟨(), 1700000000, true⟩])]
      (run [(false, [⟨(), 1700000000, false⟩])]) false ⟨(), 1700000000, true⟩ :=
    ⟨[(false, [⟨(), 1700000000, false⟩])], [], [], [], rfl, rfl⟩
  have hlast := h _ _ _ hvisit (by decide)
  revert hlast
  decide

end MengSen.ConfDir

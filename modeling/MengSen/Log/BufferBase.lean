import Mathlib.Data.List.Nodup
import Mathlib.Data.List.Infix
import Mathlib.Logic.Function.Basic

/-!
# Log.BufferBase — what was pushed and what was popped

The two buffers of `example/log/Log.cpp` take lines from any number of producers `τ` and hand them to
one consumer.  `History` keeps the calls of `push` and the order in which they got their write
indexes; it is a ghost of both models.

`Legal waiting h`: the producers' calls are the lines with a write index, and one line more for each
producer that still waits for its index.  So lines with write indexes are pairwise different, and a
prefix of them takes the lines of each producer in the order of its calls (`Legal.prefix_calls`).
-/

namespace MengSen.Log

/-- A `LogLine` that is pushed: whose it is, and which of its lines. -/
structure LogLine (τ α : Type) where
  producer : τ
  number : ℕ
  text : α
  deriving DecidableEq

structure History (τ α : Type) where
  /-- the lines of the calls of `push`, by producer -/
  calls : τ → List (LogLine τ α)
  /-- the lines that got a write index, in that order -/
  claimed : List (LogLine τ α)

namespace History

variable {τ α : Type}

def empty : History τ α := ⟨fun _ => [], []⟩

/-- The line of the next call of `push` of the producer. -/
def line (h : History τ α) (p : τ) (x : α) : LogLine τ α := ⟨p, (h.calls p).length, x⟩

def call [DecidableEq τ] (h : History τ α) (p : τ) (x : α) : History τ α :=
  { h with calls := Function.update h.calls p (h.calls p ++ [h.line p x]) }

def claim (h : History τ α) (l : LogLine τ α) : History τ α := { h with claimed := h.claimed ++ [l] }

variable [DecidableEq τ]

/-- The calls are those that got an index, and those of the producers that wait for one. -/
structure Legal (waiting : τ → Option (LogLine τ α)) (h : History τ α) : Prop where
  numbers : ∀ p, (h.calls p).map LogLine.number = List.range (h.calls p).length
  mine : ∀ p l, waiting p = some l → l.producer = p
  claims : ∀ p, h.claimed.filter (fun l => l.producer = p) ++ (waiting p).toList = h.calls p

variable {waiting : τ → Option (LogLine τ α)} {h : History τ α} {p : τ} {l : LogLine τ α} {x : α}

theorem legal_empty (hw : ∀ p, waiting p = none) : Legal waiting (empty : History τ α) where
  numbers _ := rfl
  mine p l hl := by
    rw [hw p] at hl
    cases hl
  claims p := by
    rw [hw p]
    rfl

namespace Legal

theorem congr {waiting' : τ → Option (LogLine τ α)} (hl : Legal waiting h)
    (hw : ∀ p, waiting' p = waiting p) : Legal waiting' h := funext hw ▸ hl

/-- The producer `p` calls `push`. -/
theorem call (hl : Legal waiting h) (hp : waiting p = none) :
    Legal (Function.update waiting p (some (h.line p x))) (h.call p x) where
  numbers q := by
    by_cases hq : q = p
    · subst hq
      simp [History.call, History.line, hl.numbers q, List.range_succ]
    · simp only [History.call, Function.update_of_ne hq]
      exact hl.numbers q
  mine q l hql := by
    by_cases hq : q = p
    · subst hq
      rw [Function.update_self] at hql
      rw [← Option.some.inj hql]
      rfl
    · rw [Function.update_of_ne hq] at hql
      exact hl.mine q l hql
  claims q := by
    have hclaims := hl.claims q
    by_cases hq : q = p
    · subst hq
      rw [hp, Option.toList_none, List.append_nil] at hclaims
      simp [History.call, hclaims]
    · simp only [History.call, Function.update_of_ne hq]
      exact hclaims

/-- The producer `p` gets its index. -/
theorem claim (hl : Legal waiting h) (hp : waiting p = some l) :
    Legal (Function.update waiting p none) (h.claim l) where
  numbers := hl.numbers
  mine q l' hql := by
    by_cases hq : q = p
    · subst hq
      rw [Function.update_self] at hql
      cases hql
    · rw [Function.update_of_ne hq] at hql
      exact hl.mine q l' hql
  claims q := by
    have hclaims := hl.claims q
    have hmine := hl.mine p l hp
    by_cases hq : q = p
    · subst hq
      rw [hp] at hclaims
      simpa [History.claim, List.filter_append, hmine] using hclaims
    · have hne : l.producer ≠ q := fun heq => hq (heq.symm.trans hmine)
      simp only [Function.update_of_ne hq]
      simpa [History.claim, List.filter_append, hne] using hclaims

theorem nodup_calls (hl : Legal waiting h) (p : τ) : (h.calls p).Nodup := by
  refine List.Nodup.of_map LogLine.number ?_
  rw [hl.numbers]
  exact List.nodup_range

/-- The line of the next call is a new one. -/
theorem line_ne (hl : Legal waiting h) (hmem : l ∈ h.calls p) (x : α) : h.line p x ≠ l := by
  rintro rfl
  have hnumber : (h.line p x).number ∈ (h.calls p).map LogLine.number := List.mem_map_of_mem hmem
  rw [hl.numbers, List.mem_range] at hnumber
  exact Nat.lt_irrefl _ hnumber

/-- A prefix of the lines with an index takes the lines of each producer in the order of its calls. -/
theorem prefix_calls (hl : Legal waiting h) {ls : List (LogLine τ α)} (hls : ls <+: h.claimed)
    (p : τ) : ls.filter (fun l => l.producer = p) <+: h.calls p := by
  rw [← hl.claims p]
  exact (hls.filter _).trans (List.prefix_append _ _)

/-- Each line gets one index. -/
theorem nodup_claimed (hl : Legal waiting h) : h.claimed.Nodup := by
  classical
  refine List.nodup_iff_count_le_one.mpr fun l => ?_
  have hfilter : (h.claimed.filter fun m => m.producer = l.producer).count l = h.claimed.count l :=
    List.count_filter (by simp)
  have hsub : (h.claimed.filter fun m => m.producer = l.producer).Sublist (h.calls l.producer) :=
    (hl.prefix_calls List.prefix_rfl l.producer).sublist
  rw [← hfilter]
  exact (hsub.count_le l).trans (List.nodup_iff_count_le_one.mp (hl.nodup_calls _) l)

end Legal

/-- The call of `push` of the line has returned, `current` being the lines of the calls under way. -/
def Returned (current : τ → Option (LogLine τ α)) (h : History τ α) (l : LogLine τ α) : Prop :=
  ∃ p, l ∈ h.calls p ∧ current p ≠ some l

/-- A call that has returned does not get under way again. -/
theorem Returned.mono {current current' : τ → Option (LogLine τ α)} {h' : History τ α}
    (hr : h.Returned current l) (hl : Legal waiting h) (hcalls : ∀ p, h.calls p ⊆ h'.calls p)
    (hcurrent : ∀ p m, current' p = some m → current p = some m ∨ ∃ x, h.line p x = m) :
    h'.Returned current' l := by
  obtain ⟨p, hmem, hne⟩ := hr
  refine ⟨p, hcalls p hmem, fun heq => ?_⟩
  rcases hcurrent p l heq with hold | ⟨x, hx⟩
  · exact hne hold
  · exact hl.line_ne hmem x hx

theorem subset_call (h : History τ α) (p : τ) (x : α) (q : τ) : h.calls q ⊆ (h.call p x).calls q := by
  intro l hl
  by_cases hq : q = p
  · subst hq
    simp [History.call, hl]
  · simpa [History.call, Function.update_of_ne hq] using hl

end History

end MengSen.Log

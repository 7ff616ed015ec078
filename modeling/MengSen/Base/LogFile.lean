import MengSen.Base.AppendFile
import Mathlib.Data.Int.ConditionallyCompleteOrder
import Mathlib.Data.Int.SuccPred
import Mathlib.Order.Monotone.Basic

/-!
# Base.LogFile — rolling log files

`LogFile` of `base/LogFile.cpp`, with one caller at a time.  A file is rolled when it has grown over
`rollSize_`, and when every `checkEveryN_`-th line finds that the day has changed; `rollFile` reads the
clock itself and does nothing within the second of the last roll.  The names of the files and what
`flush` does to them are left out.

The second in which a file was opened, the lines it was given and the files that were closed are
ghosts.
-/

namespace MengSen

/-- An `AppendFile` of a `LogFile`. -/
structure LogPart where
  out : AppendFile
  /-- the reading of the clock with which it was opened -/
  opened : ℤ
  /-- the lines that were appended to it -/
  lines : List (List UInt8)
  deriving DecidableEq

/-- The `const` members. -/
structure LogFileParams where
  rollSize_ : ℤ
  flushInterval_ : ℤ
  checkEveryN_ : ℤ

structure LogFile where
  count_ : ℤ
  startOfPeriod_ : ℤ
  lastRoll_ : ℤ
  lastFlush_ : ℤ
  file_ : Option LogPart
  /-- the files before `file_`, in the order in which they were opened -/
  older : List LogPart
  /-- the number of calls of `time` -/
  reads : ℕ
  deriving DecidableEq

namespace LogFile

def kRollPerSeconds_ : ℤ := 60 * 60 * 24

section Model

variable (P : LogFileParams) (clock : ℕ → ℤ) (answer : ℕ → ℕ → ℕ)

/-- `rollFile`, with its result. -/
def rollFile (l : LogFile) : Bool × LogFile :=
  let now := clock l.reads
  let l := { l with reads := l.reads + 1 }
  let start := now.tdiv kRollPerSeconds_ * kRollPerSeconds_
  if now > l.lastRoll_ then
    (true, { l with
      lastRoll_ := now
      lastFlush_ := now
      startOfPeriod_ := start
      file_ := some ⟨.make, now, []⟩
      older := l.older ++ l.file_.toList })
  else (false, l)

/-- The constructor. -/
def make : LogFile := (rollFile clock ⟨0, 0, 0, 0, none, [], 0⟩).2

/-- `append_unlocked`, `none` when `file_` is a null pointer. -/
def append_unlocked (l : LogFile) (logline : List UInt8) : Option LogFile := do
  let file ← l.file_
  let file := { file with
    out := file.out.append (answer l.older.length) logline, lines := file.lines ++ [logline] }
  let l := { l with file_ := some file }
  if file.out.writtenBytes_ > P.rollSize_ then return (l.rollFile clock).2
  else
    let l := { l with count_ := l.count_ + 1 }
    if l.count_ ≥ P.checkEveryN_ then
      let now := clock l.reads
      let l := { l with count_ := 0, reads := l.reads + 1 }
      let thisPeriod_ := now.tdiv kRollPerSeconds_ * kRollPerSeconds_
      if thisPeriod_ ≠ l.startOfPeriod_ then return (l.rollFile clock).2
      else if now - l.lastFlush_ > P.flushInterval_ then return { l with lastFlush_ := now }
      else return l
    else return l

/-- The public functions. -/
inductive Call
  | append (logline : List UInt8)
  | flush
  | rollFile

def call (l : LogFile) : Call → Option LogFile
  | .append logline => l.append_unlocked P clock answer logline
  | .flush => l.file_.map fun _ => l
  | .rollFile => some (l.rollFile clock).2

/-- The state after the calls. -/
def run (calls : List Call) : Option LogFile := calls.foldlM (call P clock answer) (make clock)

end Model

/-- All files, in the order in which they were opened. -/
def files (l : LogFile) : List LogPart := l.older ++ l.file_.toList

/-- The lines that are appended. -/
def appended : List Call → List (List UInt8)
  | [] => []
  | .append logline :: calls => logline :: appended calls
  | .flush :: calls | .rollFile :: calls => appended calls

/-! ## Order -/

/-- What a reader of the files relies on, after the lines `lines`. -/
structure Orderly (P : LogFileParams) (clock : ℕ → ℤ) (l : LogFile) (lines : List (List UInt8)) :
    Prop where
  /-- the files hold whole lines -/
  whole : ∀ f ∈ l.files, f.out.file = f.lines.flatten
  /-- which are all lines, in their order -/
  inOrder : l.files.flatMap LogPart.lines = lines
  concat : (l.files.map fun f => f.out.file).flatten = lines.flatten
  increasing : (l.files.map LogPart.opened).Pairwise (· < ·)
  startOfDay : l.startOfPeriod_ = l.lastRoll_ / kRollPerSeconds_ * kRollPerSeconds_
  bounded : ∃ f, l.file_ = some f ∧
    ((f.out.writtenBytes_ : ℤ) ≤ P.rollSize_ ∨ f.opened = clock (l.reads - 1))

variable {clock : ℕ → ℤ}

/-- What holds between the calls, with the current file `f`. -/
structure Inv (clock : ℕ → ℤ) (l : LogFile) (f : LogPart) (lines : List (List UInt8)) : Prop where
  file : l.file_ = some f
  opened : f.opened = l.lastRoll_
  whole : ∀ g ∈ l.older ++ [f], g.out.file = g.lines.flatten
  inOrder : (l.older ++ [f]).flatMap LogPart.lines = lines
  increasing : ((l.older ++ [f]).map LogPart.opened).Pairwise (· < ·)
  startOfDay : l.startOfPeriod_ = l.lastRoll_ / kRollPerSeconds_ * kRollPerSeconds_
  roll_le : l.lastRoll_ ≤ clock (l.reads - 1)

/-- The quotient of a positive time is its floor. -/
theorem startOfDay_of_pos {now : ℤ} (h : 0 < now) :
    now.tdiv kRollPerSeconds_ * kRollPerSeconds_ = now / kRollPerSeconds_ * kRollPerSeconds_ := by
  rw [Int.tdiv_eq_ediv_of_nonneg h.le]

/-- No file was opened after the current one. -/
theorem Inv.opened_le {l : LogFile} {f : LogPart} {lines : List (List UInt8)}
    (h : Inv clock l f lines) {a : ℤ} (ha : a ∈ (l.older ++ [f]).map LogPart.opened) :
    a ≤ l.lastRoll_ := by
  have hinc := h.increasing
  rw [List.map_append, List.pairwise_append] at hinc
  rw [← h.opened]
  rw [List.map_append, List.mem_append] at ha
  rcases ha with hold | hcur
  · exact (hinc.2.2 a hold f.opened (List.mem_singleton_self _)).le
  · exact (List.mem_singleton.mp hcur).le

/-- **A roll**: whether or not a file is opened, the current one was opened at the reading just
taken. -/
theorem Inv.rollFile {l : LogFile} {f : LogPart} {lines : List (List UInt8)}
    (h : Inv clock l f lines) (hmono : Monotone clock) (hpos : ∀ n, 0 < clock n) :
    ∃ f', Inv clock (l.rollFile clock).2 f' lines ∧
      f'.opened = clock ((l.rollFile clock).2.reads - 1) := by
  have hlast : l.lastRoll_ ≤ clock l.reads := h.roll_le.trans (hmono (Nat.sub_le _ _))
  by_cases hnow : clock l.reads > l.lastRoll_
  · have hl : (l.rollFile clock).2 = { l with
        reads := l.reads + 1
        lastRoll_ := clock l.reads
        lastFlush_ := clock l.reads
        startOfPeriod_ := (clock l.reads).tdiv kRollPerSeconds_ * kRollPerSeconds_
        file_ := some ⟨.make, clock l.reads, []⟩
        older := l.older ++ [f] } := by
      simp only [LogFile.rollFile, if_pos hnow, h.file, Option.toList_some]
    rw [hl]
    refine ⟨⟨.make, clock l.reads, []⟩, ⟨rfl, rfl, fun g hg => ?_, ?_, ?_,
      startOfDay_of_pos (hpos _), le_rfl⟩, rfl⟩
    · rcases List.mem_append.mp hg with hg | hg
      · exact h.whole g hg
      · obtain rfl := List.mem_singleton.mp hg
        rfl
    · simp only [List.flatMap_append, List.flatMap_singleton, List.append_nil]
      rw [← h.inOrder, List.flatMap_append, List.flatMap_singleton]
    · rw [List.map_append, List.pairwise_append]
      refine ⟨h.increasing, List.pairwise_singleton _ _, fun a ha b hb => ?_⟩
      obtain rfl := List.mem_singleton.mp hb
      exact lt_of_le_of_lt (h.opened_le ha) hnow
  · have hl : (l.rollFile clock).2 = { l with reads := l.reads + 1 } := by
      simp only [LogFile.rollFile, if_neg hnow]
    rw [hl]
    exact ⟨f, ⟨h.file, h.opened, h.whole, h.inOrder, h.increasing, h.startOfDay, hlast⟩,
      h.opened.trans (le_antisymm hlast (not_lt.mp hnow))⟩

/-- The current file takes a line. -/
def LogPart.push (f : LogPart) (answer : ℕ → ℕ) (logline : List UInt8) : LogPart :=
  { f with out := f.out.append answer logline, lines := f.lines ++ [logline] }

theorem Inv.push {l : LogFile} {f : LogPart} {lines : List (List UInt8)} (h : Inv clock l f lines)
    {answer : ℕ → ℕ} {logline : List UInt8} (hacc : ∀ k, logline.length ≤ answer k) :
    Inv clock { l with file_ := some (LogPart.push f answer logline) }
      (LogPart.push f answer logline) (lines ++ [logline]) := by
  refine ⟨rfl, h.opened, fun g hg => ?_, ?_, ?_, h.startOfDay, h.roll_le⟩
  · rcases List.mem_append.mp hg with hg | hg
    · exact h.whole g (List.mem_append_left _ hg)
    · obtain rfl := List.mem_singleton.mp hg
      show (f.out.append answer logline).file = (f.lines ++ [logline]).flatten
      rw [(AppendFile.append_accepted answer (hacc _)).1, List.flatten_concat,
        h.whole f (List.mem_append_right _ (List.mem_singleton_self f))]
  · rw [← h.inOrder]
    simp [LogPart.push]
  · have hinc := h.increasing
    rw [List.map_append] at hinc ⊢
    exact hinc

/-- The bound on the current file. -/
def Bounded (P : LogFileParams) (clock : ℕ → ℤ) (l : LogFile) (f : LogPart) : Prop :=
  (f.out.writtenBytes_ : ℤ) ≤ P.rollSize_ ∨ f.opened = clock (l.reads - 1)

/-- A reading of the clock that changes nothing else of the order. -/
theorem Inv.read {l l' : LogFile} {f : LogPart} {lines : List (List UInt8)} (h : Inv clock l f lines)
    (hmono : Monotone clock) (hfile : l'.file_ = l.file_) (holder : l'.older = l.older)
    (hstart : l'.startOfPeriod_ = l.startOfPeriod_) (hroll : l'.lastRoll_ = l.lastRoll_)
    (hreads : l.reads ≤ l'.reads) : Inv clock l' f lines where
  file := hfile.trans h.file
  opened := h.opened.trans hroll.symm
  whole := holder ▸ h.whole
  inOrder := holder ▸ h.inOrder
  increasing := holder ▸ h.increasing
  startOfDay := by rw [hstart, hroll, h.startOfDay]
  roll_le := by
    rw [hroll]
    exact h.roll_le.trans (hmono (Nat.sub_le_sub_right hreads 1))

variable {P : LogFileParams} {answer : ℕ → ℕ → ℕ}

/-- **A line**: it goes to the current file, which is rolled afterwards when it is over the size. -/
theorem Inv.append {l : LogFile} {f : LogPart} {lines : List (List UInt8)} (h : Inv clock l f lines)
    (hmono : Monotone clock) (hpos : ∀ n, 0 < clock n) {logline : List UInt8}
    (hacc : ∀ i k, logline.length ≤ answer i k) :
    ∃ l' f', l.append_unlocked P clock answer logline = some l' ∧
      Inv clock l' f' (lines ++ [logline]) ∧ Bounded P clock l' f' := by
  have hpush := h.push (hacc l.older.length)
  set g := LogPart.push f (answer l.older.length) logline with hg
  simp only [append_unlocked, h.file, Option.bind_eq_bind, Option.bind_some]
  show ∃ l' f', (if (g.out.writtenBytes_ : ℤ) > P.rollSize_ then _ else _) = some l' ∧ _
  by_cases hsize : (g.out.writtenBytes_ : ℤ) > P.rollSize_
  · -- over the size
    obtain ⟨f', hf', hopened⟩ := hpush.rollFile hmono hpos
    rw [if_pos hsize]
    exact ⟨_, f', rfl, hf', .inr hopened⟩
  · have hsize' : (g.out.writtenBytes_ : ℤ) ≤ P.rollSize_ := not_lt.mp hsize
    have hcount : Inv clock { l with file_ := some g, count_ := l.count_ + 1 } g (lines ++ [logline]) :=
      hpush.read hmono rfl rfl rfl rfl le_rfl
    have hread : Inv clock { l with file_ := some g, count_ := 0, reads := l.reads + 1 } g
        (lines ++ [logline]) := hcount.read hmono rfl rfl rfl rfl (Nat.le_succ _)
    rw [if_neg hsize]
    split_ifs with hcheck hday hflush
    · -- another day
      obtain ⟨f', hf', hopened⟩ := hread.rollFile hmono hpos
      exact ⟨_, f', rfl, hf', .inr hopened⟩
    · exact ⟨_, g, rfl, hread.read hmono rfl rfl rfl rfl le_rfl, .inl hsize'⟩
    · exact ⟨_, g, rfl, hread, .inl hsize'⟩
    · exact ⟨_, g, rfl, hcount, .inl hsize'⟩

/-- **Step lemma**: a call whose line is taken whole keeps the invariant and adds that line. -/
theorem Inv.call {l : LogFile} {f : LogPart} {lines : List (List UInt8)} (h : Inv clock l f lines)
    (hb : Bounded P clock l f) (hmono : Monotone clock) (hpos : ∀ n, 0 < clock n) (c : Call)
    (hacc : ∀ logline ∈ appended [c], ∀ i k, logline.length ≤ answer i k) :
    ∃ l' f', l.call P clock answer c = some l' ∧
      Inv clock l' f' (lines ++ appended [c]) ∧ Bounded P clock l' f' := by
  cases c with
  | append logline => exact h.append hmono hpos (hacc logline (List.mem_singleton_self logline))
  | flush =>
    rw [LogFile.call, h.file]
    refine ⟨l, f, rfl, ?_, hb⟩
    rwa [appended, appended, List.append_nil]
  | rollFile =>
    obtain ⟨f', hf', hopened⟩ := h.rollFile hmono hpos
    refine ⟨_, f', rfl, ?_, .inr hopened⟩
    rwa [appended, appended, List.append_nil]

theorem appended_cons (c : Call) (calls : List Call) :
    appended (c :: calls) = appended [c] ++ appended calls := by
  cases c <;> rfl

/-- **Run lemma**: so do the calls one after the other. -/
theorem Inv.calls {l : LogFile} {f : LogPart} {lines : List (List UInt8)} (h : Inv clock l f lines)
    (hb : Bounded P clock l f) (hmono : Monotone clock) (hpos : ∀ n, 0 < clock n)
    (calls : List Call) (hacc : ∀ logline ∈ appended calls, ∀ i k, logline.length ≤ answer i k) :
    ∃ l' f', calls.foldlM (LogFile.call P clock answer) l = some l' ∧
      Inv clock l' f' (lines ++ appended calls) ∧ Bounded P clock l' f' := by
  induction calls generalizing l f lines with
  | nil => exact ⟨l, f, rfl, by rwa [appended, List.append_nil], hb⟩
  | cons c calls ih =>
    rw [appended_cons] at hacc ⊢
    obtain ⟨l₁, f₁, hcall, hinv, hbound⟩ :=
      h.call hb hmono hpos c fun x hx => hacc x (List.mem_append_left _ hx)
    obtain ⟨l', f', hrest, hinv', hbound'⟩ :=
      ih hinv hbound fun x hx => hacc x (List.mem_append_right _ hx)
    refine ⟨l', f', ?_, by rwa [← List.append_assoc], hbound'⟩
    rw [List.foldlM_cons, hcall]
    exact hrest

/-- The constructor opens a file. -/
theorem inv_make (hpos : ∀ n, 0 < clock n) :
    ∃ f, Inv clock (make clock) f [] ∧ f.opened = clock ((make clock).reads - 1) := by
  have hmake : make clock = ⟨0, (clock 0).tdiv kRollPerSeconds_ * kRollPerSeconds_, clock 0, clock 0,
      some ⟨.make, clock 0, []⟩, [], 1⟩ := by
    simp only [make, rollFile, if_pos (hpos 0)]
    rfl
  rw [hmake]
  refine ⟨⟨.make, clock 0, []⟩, ⟨rfl, rfl, fun g hg => ?_, rfl, List.pairwise_singleton _ _,
    startOfDay_of_pos (hpos 0), le_rfl⟩, rfl⟩
  obtain rfl := List.mem_singleton.mp hg
  rfl

/-- **The files hold the lines**, whole and in their order, opened at increasing seconds; and the
current one is not over the size unless it was opened in the second of the last reading. -/
theorem run_orderly (P : LogFileParams) (hmono : Monotone clock) (hpos : ∀ n, 0 < clock n)
    (calls : List Call) (hacc : ∀ logline ∈ appended calls, ∀ i k, logline.length ≤ answer i k) :
    ∃ l, run P clock answer calls = some l ∧ Orderly P clock l (appended calls) := by
  obtain ⟨f₀, hmake, hopened⟩ := inv_make hpos
  obtain ⟨l, f, hrun, hinv, hbound⟩ := hmake.calls (.inr hopened) hmono hpos calls hacc
  have hfiles : l.files = l.older ++ [f] := by rw [files, hinv.file, Option.toList_some]
  refine ⟨l, hrun, ?_, ?_, ?_, ?_, hinv.startOfDay, f, hinv.file, hbound⟩
  · rw [hfiles]
    exact hinv.whole
  · rw [hfiles]
    exact hinv.inOrder
  · have hmap : (l.files.map fun g => g.out.file) = l.files.map fun g => g.lines.flatten :=
      List.map_congr_left fun g hg => hinv.whole g (hfiles ▸ hg)
    have hlines : appended calls = (l.older ++ [f]).flatMap LogPart.lines := hinv.inOrder.symm
    rw [hmap, hfiles, hlines, List.flatMap_def, List.flatten_flatten, List.map_map]
    rfl
  · rw [hfiles]
    exact hinv.increasing

/-- Two lines on one day, the first of which is over the size. -/
theorem run_orderly_two : ∃ l, run ⟨2, 3, 1⟩ (fun n => 1700000000 + n) (fun _ _ => 5)
    [.append [1, 2, 3], .append [4]] = some l ∧
      Orderly ⟨2, 3, 1⟩ (fun n => 1700000000 + n) l [[1, 2, 3], [4]] :=
  run_orderly ⟨2, 3, 1⟩ (fun _ _ h => by simpa using h) (fun n => by omega) _
    (by simp [appended])

end LogFile

end MengSen

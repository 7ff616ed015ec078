import MengSen.Lib.Rolling
import MengSen.Log.LogLineRoundTrip

/-!
# Log.FileWriter — the files of the multi-thread logger

`FileWriter` of `example/log/Log.cpp`.  A line is printed in the current file, and a file that has grown
over the roll size is closed and followed by the next number.  An `std::ofstream` that could not be
opened, or could not take all of a line, takes nothing more; its `tellp` is -1 from then on, so that
`_bytes_written` never grows again and no other file is opened.

`canOpen` and the `fails` of a call are the answers of the file system; nobody else writes the files.
The lines end with `std::endl`, so that nothing is left for `flush` and `close`.
-/

namespace MengSen

open detail (literal decimal)
open Load (result Yields yields_bind yields_pure yields_modify)

/-- `std::ofstream`, of which `pos` is the position at which it writes. -/
structure OFStream where
  name : List UInt8
  fail : Bool
  pos : ℕ

def OFStream.tellp (os : OFStream) : ℤ := if os.fail then -1 else os.pos

structure FileWriter where
  fileNumber : UInt32
  bytesWritten : ℤ
  logFileRollSizeBytes : UInt32
  name : List UInt8
  /-- `none` is a null pointer -/
  os : Option OFStream
  /-- the files by name -/
  directory : List UInt8 → Option (List UInt8)
  /-- the number of calls of `open` -/
  opens : ℕ

namespace FileWriter

abbrev Directory := List UInt8 → Option (List UInt8)

/-- The name of a log file. -/
def logFileName (name : List UInt8) (fileNumber : UInt32) : List UInt8 :=
  name ++ literal "." ++ decimal fileNumber.toNat ++ literal ".log"

section Model

variable (canOpen : ℕ → Bool)

def rollFile (w : FileWriter) : FileWriter :=
  let fileNumber := w.fileNumber + 1
  let logFileName := logFileName w.name fileNumber
  { w with
    bytesWritten := 0
    fileNumber := fileNumber
    os := some ⟨logFileName, !canOpen w.opens, 0⟩
    directory :=
      if canOpen w.opens then Function.update w.directory logFileName (some []) else w.directory
    opens := w.opens + 1 }

/-- The constructor. -/
def make (logDirectorary logFileName : List UInt8) (logFileRollSizeMb : UInt32)
    (directory : Directory) : FileWriter :=
  rollFile canOpen ⟨0, 0, logFileRollSizeMb * 1024 * 1024, logDirectorary ++ logFileName, none,
    directory, 0⟩

/-- `os << text`, of which only the first bytes are taken when it `fails`. -/
def print (os : OFStream) (directory : Directory) (text : List UInt8) (fails : Option ℕ) :
    OFStream × Directory :=
  if os.fail then (os, directory)
  else
    let taken := match fails with
      | none => text
      | some n => text.take n
    ({ os with fail := fails.isSome, pos := os.pos + taken.length },
      Function.update directory os.name ((directory os.name).map (· ++ taken)))

def write (H : Host) (C : Clock) (w : FileWriter) (logline : LogLine)
    (fails : Option ℕ) : Except LogLine.Fault FileWriter :=
  match w.os, result (LogLine.stringify H C logline) ⟨[], []⟩ with
  | none, _ => .error .badPointer
  | _, (.error e, _) => .error e
  | some os, (.ok _, out) =>
    let (os', directory) := print os w.directory out.os fails
    let w := { w with
      bytesWritten := w.bytesWritten + (os'.tellp - os.tellp), os := some os', directory := directory }
    .ok (if w.bytesWritten > w.logFileRollSizeBytes.toNat then rollFile canOpen w else w)

/-- The lines that are written, each with the answer of the file system. -/
def run (H : Host) (C : Clock) (w : FileWriter) (calls : List (LogLine × Option ℕ)) :
    Except LogLine.Fault FileWriter :=
  calls.foldlM (fun w call => write canOpen H C w call.1 call.2) w

end Model

/-! ## The directory -/

theorem logFileName_inj {name : List UInt8} {n m : UInt32} (h : logFileName name n = logFileName name m) :
    n = m := by
  have htext := List.append_cancel_left (List.append_cancel_right h)
  have hnat := Function.LeftInverse.injective detail.parseDecimal_decimal htext
  exact UInt32.toNat_inj.mp (Int.ofNat_inj.mp hnat)

/-- The files `1`, `2`, … hold `contents`, until their number comes up again after `2 ^ 32` files; the
other files are as they were. -/
structure Files (name : List UInt8) (before directory : Directory) (contents : List (List UInt8)) :
    Prop where
  holds : ∀ (i : ℕ) (h : i < contents.length), contents.length ≤ i + 2 ^ 32 →
    directory (logFileName name (.ofNat (i + 1))) = some contents[i]
  others : ∀ file, (∀ i < contents.length, file ≠ logFileName name (.ofNat (i + 1))) →
    directory file = before file

section Files

variable {name : List UInt8} {before directory : Directory} {contents tail : List (List UInt8)}

theorem files_nil (name : List UInt8) (before : Directory) : Files name before before [] where
  holds i h := absurd h (Nat.not_lt_zero i)
  others _ _ := rfl

/-- **The current file** gets another content, whether or not it has been opened before. -/
theorem Files.put (h : Files name before directory (contents ++ tail)) (htail : tail.length ≤ 1)
    (c : List UInt8) :
    Files name before
      (Function.update directory (logFileName name (.ofNat (contents.length + 1))) (some c))
      (contents ++ [c]) where
  holds i hi hroom := by
    rw [List.length_append, List.length_singleton] at hi hroom
    rcases Nat.lt_succ_iff_lt_or_eq.mp hi with hlt | rfl
    · -- an older file, whose number has not come up again
      have hne : logFileName name (.ofNat (i + 1)) ≠
          logFileName name (.ofNat (contents.length + 1)) := by
        intro heq
        have hnat := congrArg UInt32.toNat (logFileName_inj heq)
        rw [UInt32.toNat_ofNat', UInt32.toNat_ofNat'] at hnat
        omega
      have hold := h.holds i (by rw [List.length_append]; omega) (by rw [List.length_append]; omega)
      rw [Function.update_of_ne hne, hold, List.getElem_append_left hlt, List.getElem_append_left hlt]
    · rw [Function.update_self, List.getElem_concat_length rfl]
  others file hfile := by
    rw [List.length_append, List.length_singleton] at hfile
    rw [Function.update_of_ne (hfile _ (Nat.lt_succ_self _))]
    refine h.others file fun i hi => hfile i ?_
    rw [List.length_append] at hi
    omega

/-- What the current file holds. -/
theorem Files.last {c : List UInt8} (h : Files name before directory (contents ++ [c])) :
    directory (logFileName name (.ofNat (contents.length + 1))) = some c := by
  have hlen : (contents ++ [c]).length = contents.length + 1 := List.length_append
  have hlast := h.holds contents.length (by omega) (by omega)
  rwa [List.getElem_concat_length rfl] at hlast

end Files

/-! ## What is written -/

section Written

open Rolling (Parts IsCut total isCut_nil isCut_add)

variable {canOpen : ℕ → Bool} {H : Host} {C : Clock} {w w' : FileWriter} {before : Directory}
  {sent : List (List UInt8)} {lost lines : List (List UInt8 × Option ℕ)} {p : Parts (List UInt8)}
  {tail : List (List UInt8)} {logline : LogLine} {text : List UInt8} {fails : Option ℕ}

/-- `stringify` prints the text. -/
def Prints (H : Host) (C : Clock) (logline : LogLine) (text : List UInt8) : Prop :=
  ∃ returned tags, result (LogLine.stringify H C logline) ⟨[], []⟩ = (.ok returned, ⟨text, tags⟩)

/-- The lines are cut into files at the roll size. -/
abbrev Cut (w : FileWriter) (sent : List (List UInt8)) (p : Parts (List UInt8)) : Prop :=
  IsCut List.length w.logFileRollSizeBytes.toNat sent p

/-- Why the lines `lost` are not written, and what stands after the closed files: the next file did not
open, or it took only a front of the first of these lines. -/
inductive Failed (canOpen : ℕ → Bool) (p : Parts (List UInt8)) :
    List (List UInt8 × Option ℕ) → List (List UInt8) → Prop
  | unopened (lost : List (List UInt8 × Option ℕ)) (hopen : canOpen p.closed.length = false)
      (hlast : p.last = []) : Failed canOpen p lost []
  | untaken (text : List UInt8) (n : ℕ) (lost : List (List UInt8 × Option ℕ))
      (hopen : canOpen p.closed.length = true) :
      Failed canOpen p ((text, some n) :: lost) [p.last.flatten ++ text.take n]

/-- Without a failure nothing is lost. -/
theorem Failed.exists_failure (h : Failed canOpen p lost tail) :
    (∃ k, canOpen k = false) ∨ ∃ line ∈ lost, line.2.isSome := by
  cases h with
  | unopened _ hopen _ => exact .inl ⟨_, hopen⟩
  | untaken text n lost _ => exact .inr ⟨(text, some n), List.mem_cons_self, rfl⟩

/-- The lines after a failure are lost too. -/
theorem Failed.concat (h : Failed canOpen p lost tail) (line : List UInt8 × Option ℕ) :
    Failed canOpen p (lost ++ [line]) tail := by
  cases h with
  | unopened _ hopen hlast => exact .unopened _ hopen hlast
  | untaken text n lost hopen => exact .untaken text n (lost ++ [line]) hopen

/-- All lines are written. -/
structure Working (canOpen : ℕ → Bool) (w : FileWriter) (before : Directory)
    (sent : List (List UInt8)) (p : Parts (List UInt8)) : Prop where
  cut : w.Cut sent p
  files : Files w.name before w.directory (p.closed.map List.flatten ++ [p.last.flatten])
  fileNumber : w.fileNumber = .ofNat (p.closed.length + 1)
  os : w.os = some ⟨logFileName w.name w.fileNumber, false, p.last.flatten.length⟩
  bytesWritten : w.bytesWritten = p.last.flatten.length
  opens : w.opens = p.closed.length + 1
  opened : ∀ k ≤ p.closed.length, canOpen k = true

/-- The stream has failed, and the lines `lost` are not written; `tail` is the current file, if it
opened. -/
structure Stuck (canOpen : ℕ → Bool) (w : FileWriter) (before : Directory)
    (sent : List (List UInt8)) (lost : List (List UInt8 × Option ℕ)) (p : Parts (List UInt8))
    (tail : List (List UInt8)) : Prop where
  cut : w.Cut sent p
  files : Files w.name before w.directory (p.closed.map List.flatten ++ tail)
  opened : ∀ k < p.closed.length, canOpen k = true
  failed : Failed canOpen p lost tail
  os : ∃ os, w.os = some os ∧ os.fail = true
  bytesWritten : w.bytesWritten ≤ 0

/-- Between two lines, after `lines`, each with the answer of the file system. -/
def Inv (canOpen : ℕ → Bool) (w : FileWriter) (before : Directory)
    (lines : List (List UInt8 × Option ℕ)) : Prop :=
  ∃ sent p, lines = sent.map (·, none) ∧ Working canOpen w before sent p ∨
    ∃ lost tail, lines = sent.map (·, none) ++ lost ∧ Stuck canOpen w before sent lost p tail

/-- **The next file**, after the files that are closed. -/
theorem rollFile_inv (closed : List (List (List UInt8))) (hcut : w.Cut sent ⟨closed, []⟩)
    (hfiles : Files w.name before w.directory (closed.map List.flatten))
    (hnumber : w.fileNumber = .ofNat closed.length) (hopens : w.opens = closed.length)
    (hopened : ∀ k < closed.length, canOpen k = true) :
    Inv canOpen (rollFile canOpen w) before (sent.map (·, none)) := by
  have hnumber' : w.fileNumber + 1 = .ofNat (closed.length + 1) := by
    rw [UInt32.ofNat_add, hnumber]
    rfl
  refine ⟨sent, ⟨closed, []⟩, ?_⟩
  cases hopen : canOpen w.opens with
  | true =>
    left
    refine ⟨rfl, hcut, ?_, hnumber', ?_, rfl, congrArg (· + 1) hopens, fun k hk => ?_⟩
    · show Files w.name before (rollFile canOpen w).directory _
      rw [← List.append_nil (closed.map _)] at hfiles
      have hput := hfiles.put (Nat.zero_le 1) []
      rw [List.length_map, ← hnumber'] at hput
      simp only [rollFile, hopen]
      exact hput
    · simp only [rollFile, hopen]
      rfl
    · rcases Nat.lt_or_eq_of_le hk with hlt | rfl
      · exact hopened k hlt
      · exact hopens ▸ hopen
  | false =>
    right
    refine ⟨[], [], (List.append_nil _).symm, hcut, ?_, hopened, .unopened [] (hopens ▸ hopen) rfl,
      ⟨_, rfl, ?_⟩, le_rfl⟩
    · show Files w.name before (rollFile canOpen w).directory _
      simp only [rollFile, hopen, List.append_nil]
      exact hfiles
    · simp only [hopen]
      rfl

/-- A line that the stream takes. -/
theorem Working.inv_write (h : Working canOpen w before sent p) (hprints : Prints H C logline text) :
    ∃ w', write canOpen H C w logline none = .ok w' ∧ w'.name = w.name ∧
      w'.logFileRollSizeBytes = w.logFileRollSizeBytes ∧
      Inv canOpen w' before ((sent ++ [text]).map (·, none)) := by
  obtain ⟨returned, tags, hprints⟩ := hprints
  have hcut := isCut_add h.cut text
  -- the line is behind the others in the current file
  have hfiles := h.files.put le_rfl (p.last ++ [text]).flatten
  have hlast := h.files.last
  rw [List.length_map, ← h.fileNumber] at hfiles hlast
  obtain ⟨v, hv⟩ : ∃ v, v = { w with
    bytesWritten := (p.last ++ [text]).flatten.length
    os := some ⟨logFileName w.name w.fileNumber, false, (p.last ++ [text]).flatten.length⟩
    directory := Function.update w.directory (logFileName w.name w.fileNumber)
      (some (p.last ++ [text]).flatten) } := ⟨_, rfl⟩
  have hwrite : write canOpen H C w logline none =
      .ok (if v.bytesWritten > v.logFileRollSizeBytes.toNat then rollFile canOpen v else v) := by
    rw [hv, write, h.os, hprints]
    simp [print, OFStream.tellp, h.bytesWritten, hlast]
  have htotal : total List.length (p.last ++ [text]) = (p.last ++ [text]).flatten.length :=
    List.length_flatten.symm
  rw [Rolling.add, htotal] at hcut
  refine ⟨_, hwrite, ?_⟩
  by_cases hover : (p.last ++ [text]).flatten.length > w.logFileRollSizeBytes.toNat
  · -- the file is closed
    have hroll : v.bytesWritten > v.logFileRollSizeBytes.toNat := by
      rw [hv]
      exact Int.ofNat_lt.mpr hover
    have hclosed : (p.closed ++ [p.last ++ [text]]).length = p.closed.length + 1 := List.length_append
    rw [if_pos hover] at hcut
    rw [if_pos hroll]
    refine ⟨by rw [hv]; rfl, by rw [hv]; rfl, rollFile_inv (p.closed ++ [p.last ++ [text]]) ?_ ?_ ?_ ?_
      fun k hk => h.opened k (Nat.le_of_lt_succ (hk.trans_eq hclosed))⟩
    · rw [hv]
      exact hcut
    · rw [hv, List.map_append]
      exact hfiles
    · rw [hv, hclosed]
      exact h.fileNumber
    · rw [hv, hclosed]
      exact h.opens
  · have hstay : ¬ v.bytesWritten > v.logFileRollSizeBytes.toNat := by
      rw [hv]
      exact fun hlt => hover (Int.ofNat_lt.mp hlt)
    rw [if_neg hover] at hcut
    rw [if_neg hstay, hv]
    exact ⟨rfl, rfl, _, _, .inl ⟨rfl, hcut, hfiles, h.fileNumber, rfl, rfl, h.opens, h.opened⟩⟩

/-- A line that the stream does not take whole. -/
theorem Working.inv_fail (h : Working canOpen w before sent p) (n : ℕ)
    (hprints : Prints H C logline text) :
    ∃ w', write canOpen H C w logline (some n) = .ok w' ∧ w'.name = w.name ∧
      w'.logFileRollSizeBytes = w.logFileRollSizeBytes ∧
      Inv canOpen w' before (sent.map (·, none) ++ [(text, some n)]) := by
  obtain ⟨returned, tags, hprints⟩ := hprints
  have hfiles := h.files.put le_rfl (p.last.flatten ++ text.take n)
  have hlast := h.files.last
  rw [List.length_map, ← h.fileNumber] at hfiles hlast
  obtain ⟨v, hv⟩ : ∃ v, v = { w with
    bytesWritten := -1
    os := some ⟨logFileName w.name w.fileNumber, true, p.last.flatten.length + (text.take n).length⟩
    directory := Function.update w.directory (logFileName w.name w.fileNumber)
      (some (p.last.flatten ++ text.take n)) } := ⟨_, rfl⟩
  have hstay : ¬ v.bytesWritten > v.logFileRollSizeBytes.toNat := by
    rw [hv]
    show ¬ (-1 : ℤ) > w.logFileRollSizeBytes.toNat
    omega
  have hwrite : write canOpen H C w logline (some n) =
      .ok (if v.bytesWritten > v.logFileRollSizeBytes.toNat then rollFile canOpen v else v) := by
    rw [hv, write, h.os, hprints]
    simp [print, OFStream.tellp, h.bytesWritten, hlast]
  rw [if_neg hstay, hv] at hwrite
  exact ⟨_, hwrite, rfl, rfl, sent, p, .inr ⟨_, _, rfl, h.cut, hfiles,
    fun k hk => h.opened k hk.le, .untaken text n [] (h.opened _ le_rfl), ⟨_, rfl, rfl⟩,
    (by decide : (-1 : ℤ) ≤ 0)⟩⟩

/-- After a failure nothing is written any more. -/
theorem Stuck.inv_write (h : Stuck canOpen w before sent lost p tail) (fails : Option ℕ)
    (hprints : Prints H C logline text) :
    ∃ w', write canOpen H C w logline fails = .ok w' ∧ w'.name = w.name ∧
      w'.logFileRollSizeBytes = w.logFileRollSizeBytes ∧
      Inv canOpen w' before (sent.map (·, none) ++ lost ++ [(text, fails)]) := by
  obtain ⟨returned, tags, hprints⟩ := hprints
  obtain ⟨os, hos, hfail⟩ := h.os
  have hstay : ¬ w.bytesWritten > w.logFileRollSizeBytes.toNat := by
    have := h.bytesWritten
    omega
  have hwrite : write canOpen H C w logline fails = .ok w := by
    rw [write, hos, hprints]
    simp only [print, hfail, if_true, sub_self, add_zero, if_neg hstay]
    rw [← hos]
  exact ⟨w, hwrite, rfl, rfl, sent, p, .inr ⟨_, tail, List.append_assoc .., h.cut, h.files, h.opened,
    h.failed.concat _, h.os, h.bytesWritten⟩⟩

/-- `write` keeps the invariant, whatever the file system answers. -/
theorem Inv.write (h : Inv canOpen w before lines) (hprints : Prints H C logline text) :
    ∃ w', write canOpen H C w logline fails = .ok w' ∧ w'.name = w.name ∧
      w'.logFileRollSizeBytes = w.logFileRollSizeBytes ∧
      Inv canOpen w' before (lines ++ [(text, fails)]) := by
  obtain ⟨sent, p, ⟨rfl, hworking⟩ | ⟨lost, tail, rfl, hstuck⟩⟩ := h
  · cases fails with
    | none =>
      obtain ⟨w', hwrite, hname, hsize, hinv⟩ := hworking.inv_write hprints
      rw [List.map_append] at hinv
      exact ⟨w', hwrite, hname, hsize, hinv⟩
    | some n => exact hworking.inv_fail n hprints
  · exact hstuck.inv_write fails hprints

/-- `run` keeps the invariant, and adds its lines to those before. -/
theorem Inv.run {calls : List (LogLine × Option ℕ)} {texts : List (List UInt8)}
    (h : Inv canOpen w before lines)
    (hprints : List.Forall₂ (fun call text => Prints H C call.1 text) calls texts) :
    ∃ w', run canOpen H C w calls = .ok w' ∧ w'.name = w.name ∧
      w'.logFileRollSizeBytes = w.logFileRollSizeBytes ∧
      Inv canOpen w' before (lines ++ texts.zip (calls.map Prod.snd)) := by
  induction hprints generalizing w lines with
  | nil => exact ⟨w, rfl, rfl, rfl, (List.append_nil lines).symm ▸ h⟩
  | @cons call text calls texts hcall hcalls ih =>
    obtain ⟨w₁, hwrite, hname, hsize, hinv⟩ := h.write hcall
    obtain ⟨w', hrun, hname', hsize', hinv'⟩ := ih hinv
    refine ⟨w', ?_, hname'.trans hname, hsize'.trans hsize, ?_⟩
    · rw [FileWriter.run, List.foldlM_cons, hwrite]
      exact hrun
    · rw [List.append_assoc] at hinv'
      exact hinv'

/-- The constructor opens the first file. -/
theorem make_inv (canOpen : ℕ → Bool) (logDirectorary logFileName : List UInt8)
    (logFileRollSizeMb : UInt32) (before : Directory) :
    Inv canOpen (make canOpen logDirectorary logFileName logFileRollSizeMb before) before [] :=
  rollFile_inv [] isCut_nil (files_nil _ before) rfl rfl fun _ hk => absurd hk (Nat.not_lt_zero _)

/-! ## The lines -/

/-- **A line without a NUL in a `std::string`** is printed with its arguments. -/
theorem prints_of_clean (C : Clock) (header : LogLine.Header H) (args : List LogLine.Arg)
    (hclean : ∀ arg ∈ args, arg.Clean) :
    ∃ l, (LogLine.make H header >>= fun l => l.insertAll H args) = some l ∧
      Prints H C l (header.text C ++ args.flatMap (LogLine.Arg.text H) ++ header.suffix) := by
  obtain ⟨l, out, hl, hout, hos, -⟩ := LogLine.undoes_of_clean C header hclean
  exact ⟨l, hl, .atEnd, out.tags, by rw [hout, ← hos]⟩

/-- What comes last is not empty. -/
def Ends {α : Type} (x : Load LogLine.Fault LogLine.Output α) : Prop :=
  ∀ s a t, Yields x s a t → t.os ≠ []

theorem Ends.bind {α β : Type} {x : Load LogLine.Fault LogLine.Output α}
    {f : α → Load LogLine.Fault LogLine.Output β} (h : ∀ a, Ends (f a)) : Ends (x >>= f) := by
  intro s b t hyields
  obtain ⟨a, u, -, hrest⟩ := yields_bind.mp hyields
  exact h a u b t hrest

/-- Every line ends with a newline. -/
theorem Prints.ne_nil (h : Prints H C logline text) : text ≠ [] := by
  obtain ⟨returned, tags, h⟩ := h
  have hends : Ends (LogLine.stringify H C logline) := by
    -- the six objects of the header, the time, the header, the arguments, and the place in the source
    iterate 11 refine Ends.bind fun _ => ?_
    intro s a t hyields
    obtain ⟨_, u, hwrite, hpure⟩ := yields_bind.mp hyields
    obtain ⟨-, rfl⟩ := yields_pure.mp hpure
    rw [yields_modify.mp hwrite]
    simp
  exact hends _ _ _ h

theorem prints_ne_nil {calls : List (LogLine × Option ℕ)} {texts : List (List UInt8)}
    (h : List.Forall₂ (fun call text => Prints H C call.1 text) calls texts) :
    ∀ text ∈ texts, text ≠ [] := by
  induction h with
  | nil => exact fun text htext => absurd htext List.not_mem_nil
  | cons hcall _ ih => exact List.forall_mem_cons.mpr ⟨hcall.ne_nil, ih⟩

/-- The roll size in bytes has 32 bits: it is 0 for every multiple of 4096 megabytes. -/
theorem rollSize_eq (mb : UInt32) :
    (mb * 1024 * 1024).toNat = mb.toNat * 2 ^ 20 % 2 ^ 32 := by
  rw [UInt32.toNat_mul, UInt32.toNat_mul]
  show mb.toNat * 1024 % 2 ^ 32 * 1024 % 2 ^ 32 = _
  omega

end Written

/-- **The files hold the lines before the first failure**, whole and in order, a file being closed by
the line that brings it over the roll size; a roll size of a multiple of 4096 megabytes makes a file of
every line.  When a file cannot be opened, or the stream fails at a line, that line and all after it are
lost, but for the front that was taken, and no file is opened any more. -/
theorem files_rolled (canOpen : ℕ → Bool) (H : Host) (C : Clock) (logDirectorary logFileName : List UInt8)
    (mb : UInt32) (before : Directory) {calls : List (LogLine × Option ℕ)} {texts : List (List UInt8)}
    (hprints : List.Forall₂ (fun call text => Prints H C call.1 text) calls texts) :
    ∃ w sent lost p tail,
      run canOpen H C (make canOpen logDirectorary logFileName mb before) calls = .ok w ∧
      sent.map (·, none) ++ lost = texts.zip (calls.map Prod.snd) ∧
      Rolling.IsCut List.length (mb.toNat * 2 ^ 20 % 2 ^ 32) sent p ∧
      (mb.toNat % 4096 = 0 → p.closed = sent.map ([·]) ∧ p.last = []) ∧
      Files (logDirectorary ++ logFileName) before w.directory (p.closed.map List.flatten ++ tail) ∧
      (∀ k < p.closed.length, canOpen k = true) ∧
      (canOpen p.closed.length = true ∧ lost = [] ∧ tail = [p.last.flatten] ∨
        Failed canOpen p lost tail) := by
  have hmake := make_inv canOpen logDirectorary logFileName mb before
  obtain ⟨w, hrun, hname, hsize, sent, p, hinv⟩ := hmake.run hprints
  have hlimit : w.logFileRollSizeBytes.toNat = mb.toNat * 2 ^ 20 % 2 ^ 32 := by
    rw [hsize]
    exact rollSize_eq mb
  have hbase : w.name = logDirectorary ++ logFileName := hname
  rw [List.nil_append] at hinv
  have hsent : ∀ text ∈ sent, text ≠ [] := by
    intro text htext
    have hmem : (text, none) ∈ texts.zip (calls.map Prod.snd) := by
      rcases hinv with ⟨hlines, -⟩ | ⟨lost, tail, hlines, -⟩
      · exact hlines ▸ List.mem_map_of_mem htext
      · exact hlines ▸ List.mem_append_left lost (List.mem_map_of_mem htext)
    exact prints_ne_nil hprints text (List.of_mem_zip hmem).1
  have hsingle (hcut : w.Cut sent p) (hmb : mb.toNat % 4096 = 0) :
      p.closed = sent.map ([·]) ∧ p.last = [] := by
    refine hcut.singletons fun text htext => ?_
    have hpos := List.length_pos_iff.mpr (hsent text htext)
    omega
  rcases hinv with ⟨hlines, h⟩ | ⟨lost, tail, hlines, h⟩
  · exact ⟨w, sent, [], p, _, hrun, by rw [hlines, List.append_nil], hlimit ▸ h.cut, hsingle h.cut,
      hbase ▸ h.files, fun k hk => h.opened k hk.le, .inl ⟨h.opened _ le_rfl, rfl, rfl⟩⟩
  · exact ⟨w, sent, lost, p, tail, hrun, hlines.symm, hlimit ▸ h.cut, hsingle h.cut, hbase ▸ h.files,
      h.opened, .inr h.failed⟩

/-- A line that is over the roll size of 4096 megabytes, and one of which three bytes are taken. -/
theorem files_rolled_two : ∃ C l text w,
    Prints LogLine.emptyLiterals C l text ∧
    run (fun _ => true) LogLine.emptyLiterals C
      (make (fun _ => true) (literal "/tmp/") (literal "log") 4096 fun _ => none)
      [(l, none), (l, some 3)] = .ok w ∧
    Files (literal "/tmp/log") (fun _ => none) w.directory [text, text.take 3] := by
  obtain ⟨C⟩ := LogLine.nonempty_clock
  obtain ⟨l, -, hl⟩ := prints_of_clean C LogLine.emptyHeader [.int32 5]
    (List.forall_mem_singleton.mpr trivial)
  obtain ⟨w, sent, lost, p, tail, hrun, hlines, -, hsingle, hfiles, -, hend⟩ :=
    files_rolled (fun _ => true) LogLine.emptyLiterals C (literal "/tmp/") (literal "log") 4096
      (fun _ => none) (.cons hl (.cons hl .nil) : List.Forall₂
        (fun call text => Prints LogLine.emptyLiterals C call.1 text) [(l, none), (l, some 3)] [_, _])
  obtain ⟨hclosed, hlast⟩ := hsingle rfl
  refine ⟨C, l, _, w, hl, hrun, ?_⟩
  -- the first line is sent, and the stream fails at the second one
  match sent, lost, tail, hlines, hend with
  | [], _, _, hlines, .inl ⟨_, rfl, _⟩ => cases hlines
  | [], _, _, hlines, .inr (.untaken ..) => cases hlines
  | [a], _, _, hlines, .inl ⟨_, rfl, _⟩ => cases hlines
  | [a], _, _, hlines, .inr (.untaken ..) =>
    cases hlines
    rw [hclosed, hlast] at hfiles
    show Files (literal "/tmp/" ++ literal "log") _ _ _
    simpa using hfiles
  | a :: b :: sent, _, _, hlines, _ => cases hlines

end FileWriter

end MengSen

import MengSen.Base.AsyncLoggingLines
import MengSen.Base.LogConvert
import MengSen.Base.LogFile
import Mathlib.Data.List.Forall2

/-!
# Base.AsyncLogFile — the asynchronous log over its files

`AsyncLogging` with the `LogFile` that its back end opens, writes to and flushes: the machine of
`Base.AsyncLogging` beside the state of `output`, which a statement of `threadFunc` changes by the
calls it makes.  The clock, the results of `fwrite_unlocked` and the text of the time in a notice are
parameters.

A file is rolled between two calls of `LogFile::append`, and a call brings a buffer with whole lines
(`Base.AsyncLoggingLines`).  `files_whole` puts the two together.
-/

namespace MengSen.AsyncLogFile

open AsyncLogging (Action Output ShortLines Cut Whole outputs)
open detail (literal decimal)

variable {N : ℕ}

/-- `buf` of `threadFunc`: what `snprintf` writes into 256 bytes. -/
def noticeText (now : List UInt8) (dropped : ℕ) : List UInt8 :=
  (literal "Dropped log messages at " ++ (now ++ (literal ", " ++ (decimal dropped ++
    literal " larger buffers\n")))).take 255

/-- The bytes of a call of `LogFile::append`, `now` being `Timestamp::toString_now()`. -/
def text (now : List UInt8) : Output → List UInt8
  | .data bytes => bytes
  | .notice dropped => noticeText now dropped

structure State (N : ℕ) where
  log : AsyncLogging.State N
  /-- the local variable of `threadFunc` -/
  output : Option LogFile

inductive Fault
  | log (fault : AsyncLogging.Fault)
  | nullFile

section Model

variable (P : LogFileParams) (clock : ℕ → ℤ) (answer : ℕ → ℕ → ℕ) (toString_now : ℕ → List UInt8)

/-- The texts of the calls of `LogFile::append`; the `k`-th call comes with the `k`-th time. -/
def texts (l : List Output) : List (List UInt8) := l.mapIdx fun k o => text (toString_now k) o

/-- The calls of a statement that leads from `s` to `t`. -/
def calls (s t : AsyncLogging.State N) : List LogFile.Call :=
  ((texts toString_now t.output).drop s.output.length).map .append ++
    match s.pc, t.pc with
    | .recycle, _ | .loopHead, .done => [.flush]
    | _, _ => []

/-- `output` after a statement of `threadFunc`. -/
def callLogFile (s : State N) (t : AsyncLogging.State N) : Except Fault (State N) :=
  match s.log.pc with
  | .setup => .ok ⟨t, some (.make clock)⟩
  | _ =>
    match calls toString_now s.log t, s.output with
    | [], output => .ok ⟨t, output⟩
    | _ :: _, none => .error .nullFile
    | c :: cs, some l =>
      match (c :: cs).foldlM (LogFile.call P clock answer) l with
      | none => .error .nullFile
      | some l => .ok ⟨t, some l⟩

def act (s : State N) (a : Action) : Option (Except Fault (State N)) :=
  match AsyncLogging.act s.log a, a with
  | none, _ => none
  | some (.error e), _ => some (.error (.log e))
  | some (.ok t), .thread => some (callLogFile P clock answer toString_now s t)
  | some (.ok t), _ => some (.ok { s with log := t })

def machine (N : ℕ) : Machine (State N) Action Fault where
  init s := s = ⟨AsyncLogging.init, none⟩
  act := act P clock answer toString_now

end Model

/-! ## What a file holds -/

/-- `bytes` are the lines and the notices, one after the other. -/
inductive Holds (toString_now : ℕ → List UInt8) : List Output → List UInt8 → Prop
  | nil : Holds toString_now [] []
  | line {es : List Output} {bytes : List UInt8} (logline : List UInt8)
      (h : Holds toString_now es bytes) : Holds toString_now (.data logline :: es) (logline ++ bytes)
  | notice {es : List Output} {bytes : List UInt8} (k dropped : ℕ) (h : Holds toString_now es bytes) :
    Holds toString_now (.notice dropped :: es) (noticeText (toString_now k) dropped ++ bytes)

/-- What is to be read in the files of a batch whose buffers hold these lines. -/
def entries (batch : List (List (List UInt8))) : List Output :=
  if batch.length > 25 then .notice (batch.length - 2) :: (batch.take 2).flatten.map .data
  else batch.flatten.map .data

section Holds

variable {toString_now : ℕ → List UInt8} {es es' : List Output} {bytes bytes' : List UInt8}

theorem Holds.append (h : Holds toString_now es bytes) (h' : Holds toString_now es' bytes') :
    Holds toString_now (es ++ es') (bytes ++ bytes') := by
  induction h with
  | nil => exact h'
  | line logline h ih =>
    rw [List.append_assoc]
    exact .line logline ih
  | notice k dropped h ih =>
    rw [List.append_assoc]
    exact .notice k dropped ih

theorem holds_lines (ls : List (List UInt8)) : Holds toString_now (ls.map .data) ls.flatten := by
  induction ls with
  | nil => exact .nil
  | cons l ls ih => exact .line l ih

/-- Texts one after the other. -/
theorem holds_flatten {ess : List (List Output)} {bs : List (List UInt8)}
    (h : List.Forall₂ (Holds toString_now) ess bs) : Holds toString_now ess.flatten bs.flatten := by
  induction h with
  | nil => exact .nil
  | cons h _ ih => exact h.append ih

end Holds

/-- The lines of the calls for a batch, call by call. -/
def chunks (batch : List (List (List UInt8))) : List (List Output) :=
  if batch.length > 25 then [.notice (batch.length - 2)] :: (batch.take 2).map (List.map .data)
  else batch.map (List.map .data)

theorem flatten_chunks (batch : List (List (List UInt8))) :
    (chunks batch).flatten = entries batch := by
  unfold chunks entries
  split
  · rw [List.flatten_cons, ← List.map_flatten]
    rfl
  · rw [← List.map_flatten]

/-- The call `o` is to write the lines and notices `es`. -/
def Writes (o : Output) (es : List Output) : Prop :=
  (∃ ls : List (List UInt8), o = .data ls.flatten ∧ es = ls.map .data) ∨
    ∃ dropped, o = .notice dropped ∧ es = [o]

theorem outputs_writes (batch : List (List (List UInt8))) :
    List.Forall₂ Writes (outputs (batch.map List.flatten)) (chunks batch) := by
  have hdata : ∀ l : List (List (List UInt8)),
      List.Forall₂ Writes ((l.map List.flatten).map .data) (l.map (List.map .data)) := by
    intro l
    induction l with
    | nil => exact .nil
    | cons ls l ih => exact .cons (.inl ⟨ls, rfl, rfl⟩) ih
  unfold outputs chunks
  rw [List.length_map]
  split
  · rw [← List.map_take]
    exact .cons (.inr ⟨_, rfl, rfl⟩) (hdata _)
  · exact hdata _

/-! ## Steps and runs -/

section Runs

variable {P : LogFileParams} {clock : ℕ → ℤ} {answer : ℕ → ℕ → ℕ} {toString_now : ℕ → List UInt8}

/-- `output` is there when `threadFunc` is past its first statements, and has been given the texts of
all calls. -/
structure Inv (P : LogFileParams) (clock : ℕ → ℤ) (toString_now : ℕ → List UInt8) (s : State N) :
    Prop where
  closed : s.output = none →
    s.log.output = [] ∧ (s.log.pc = .unborn ∨ s.log.pc = .begin_ ∨ s.log.pc = .setup)
  opened : ∀ l, s.output = some l → s.log.pc ≠ .unborn ∧ s.log.pc ≠ .begin_ ∧ s.log.pc ≠ .setup ∧
    ∃ f, LogFile.Inv clock l f (texts toString_now s.log.output) ∧ LogFile.Bounded P clock l f

theorem appended_calls (s t : AsyncLogging.State N) : LogFile.appended (calls toString_now s t) =
    (texts toString_now t.output).drop s.output.length := by
  have happend : ∀ (l : List (List UInt8)) (r : List LogFile.Call),
      LogFile.appended (l.map .append ++ r) = l ++ LogFile.appended r := by
    intro l r
    induction l with
    | nil => rfl
    | cons x l ih => rw [List.map_cons, List.cons_append, LogFile.appended, ih, List.cons_append]
  unfold calls
  rw [happend]
  split <;> simp [LogFile.appended]

/-- The texts of the calls so far do not change. -/
theorem texts_append (l new : List Output) : texts toString_now (l ++ new) =
    texts toString_now l ++ new.mapIdx fun k o => text (toString_now (k + l.length)) o :=
  List.mapIdx_append

theorem length_noticeText_le (now : List UInt8) (dropped : ℕ) :
    (noticeText now dropped).length ≤ 255 :=
  List.length_take_le _ _

/-- A call brings a buffer or a notice. -/
theorem length_le_of_mem_calls {s t : AsyncLogging.State N}
    (hs : AsyncLogging.threadFunc s = some (.ok t)) {x : List UInt8}
    (hx : x ∈ LogFile.appended (calls toString_now s t)) : x.length ≤ max N 255 := by
  obtain ⟨new, hout, hnew, -⟩ := AsyncLogging.threadFunc_output hs
  have hlen : s.output.length = (texts toString_now s.output).length := List.length_mapIdx.symm
  rw [appended_calls, hout, texts_append, hlen, List.drop_left] at hx
  obtain ⟨k, hk, rfl⟩ := List.mem_mapIdx.mp hx
  rcases hnew _ (List.getElem_mem hk) with ⟨b, hb⟩ | ⟨dropped, hd⟩
  · rw [hb]
    exact (b.length_content.le.trans b.cur_le).trans (le_max_left _ _)
  · rw [hd]
    exact (length_noticeText_le _ _).trans (le_max_right _ _)

/-- Only the first statement leads to the one that opens the file. -/
theorem pc_ne_setup {s t : AsyncLogging.State N} (hs : AsyncLogging.threadFunc s = some (.ok t))
    (hbegin : s.pc ≠ .begin_) : t.pc ≠ .setup := by
  cases hpc : s.pc <;>
    simp only [AsyncLogging.threadFunc, hpc, reduceCtorEq, Option.some.injEq, Except.ok.injEq,
      Machine.check_bind_eq_ok, Machine.pure_eq_ok] at hs
  case begin_ => exact absurd hpc hbegin
  case loopHead =>
    subst hs
    cases s.running <;> simp
  case checks =>
    obtain ⟨-, -, -, rfl⟩ := hs
    simp
  case lock =>
    subst hs
    cases s.buffers.isEmpty <;> simp
  case refill => split at hs <;> cases hs <;> simp
  case batch =>
    rw [(AsyncLogging.dropExcess_output hs).1]
    simp
  case write i => split at hs <;> cases hs <;> simp
  case recycle =>
    obtain ⟨p, q, rfl⟩ := AsyncLogging.recycle_cases hs
    simp
  all_goals
    subst hs
    simp

/-- Once it is there, `output` takes the calls of a statement one after the other. -/
theorem callLogFile_some {s : State N} {t : AsyncLogging.State N} {l : LogFile}
    (hpc : s.log.pc ≠ .setup) (hout : s.output = some l) :
    callLogFile P clock answer toString_now s t =
      match (calls toString_now s.log t).foldlM (LogFile.call P clock answer) l with
      | none => .error .nullFile
      | some l => .ok ⟨t, some l⟩ := by
  unfold callLogFile
  split
  · contradiction
  · rw [hout]
    cases calls toString_now s.log t with
    | nil => rfl
    | cons c cs => rfl

/-- **A statement of `threadFunc`**: the file is there for the calls, and takes them. -/
theorem Inv.thread {s : State N} {t : AsyncLogging.State N} (h : Inv P clock toString_now s)
    (hmono : Monotone clock) (hpos : ∀ n, 0 < clock n) (hanswer : ∀ i k, max N 255 ≤ answer i k)
    (hs : AsyncLogging.threadFunc s.log = some (.ok t)) :
    ∃ output, callLogFile P clock answer toString_now s t = .ok ⟨t, output⟩ ∧
      Inv P clock toString_now ⟨t, output⟩ := by
  obtain ⟨-, hborn, hbegin⟩ := (AsyncLogging.threadFunc_frame hs).born
  cases hout : s.output with
  | none =>
    obtain ⟨hnil, hpc | hpc | hpc⟩ := h.closed hout
    · simp only [AsyncLogging.threadFunc, hpc, reduceCtorEq] at hs
    · simp only [AsyncLogging.threadFunc, hpc, Option.some.injEq, Machine.check_bind_eq_ok,
        Machine.pure_eq_ok, Except.ok.injEq] at hs
      obtain ⟨-, rfl⟩ := hs
      refine ⟨none, ?_, fun _ => ⟨hnil, .inr (.inr rfl)⟩, fun l hl => ?_⟩
      · simp [callLogFile, calls, hpc, hnil, hout, texts]
      · cases hl
    · simp only [AsyncLogging.threadFunc, hpc, Option.some.injEq, Except.ok.injEq] at hs
      subst hs
      obtain ⟨f, hf, hopened⟩ := LogFile.inv_make hpos
      refine ⟨some (.make clock), ?_, fun hl => ?_, fun l hl => ?_⟩
      · simp only [callLogFile, hpc]
      · cases hl
      · obtain rfl := Option.some.inj hl
        refine ⟨by simp, by simp, by simp, f, ?_, .inr hopened⟩
        simp only [hnil]
        exact hf
  | some l =>
    obtain ⟨-, hnotBegin, hnotSetup, f, hf, hbound⟩ := h.opened l hout
    obtain ⟨l', f', hfold, hf', hbound'⟩ := hf.calls hbound hmono hpos (calls toString_now s.log t)
      fun x hx i k => (length_le_of_mem_calls hs hx).trans (hanswer i k)
    refine ⟨some l', ?_, fun hl => ?_, fun m hm => ?_⟩
    · rw [callLogFile_some hnotSetup hout, hfold]
    · cases hl
    · obtain rfl := Option.some.inj hm
      refine ⟨hborn, hbegin, pc_ne_setup hs hnotBegin, f', ?_, hbound'⟩
      obtain ⟨new, hnew, -⟩ := AsyncLogging.threadFunc_output hs
      have hlen : s.log.output.length = (texts toString_now s.log.output).length :=
        List.length_mapIdx.symm
      rw [appended_calls, hnew, texts_append, hlen, List.drop_left] at hf'
      simp only [hnew, texts_append, hlen]
      exact hf'

/-- **Step lemma**: an enabled action fails no check, and keeps the invariant. -/
theorem Inv.spec {s : State N} (h : Inv P clock toString_now s)
    (hr : (AsyncLogging.machine N).Reach ShortLines s.log) (hmono : Monotone clock)
    (hpos : ∀ n, 0 < clock n) (hanswer : ∀ i k, max N 255 ≤ answer i k) {a : Action}
    (ha : ShortLines s.log a) {r : Except Fault (State N)}
    (hs : act P clock answer toString_now s a = some r) :
    ∃ t, r = .ok t ∧ Inv P clock toString_now t ∧ (AsyncLogging.machine N).Step s.log a t.log := by
  obtain ⟨hi, hl⟩ := AsyncLogging.reach_inv hr
  cases hlog : AsyncLogging.act s.log a with
  | none => simp [act, hlog] at hs
  | some r₀ =>
    obtain ⟨t, rfl, -⟩ := hi.spec hl ha hlog
    have he := AsyncLogging.effect hlog
    cases he with
    | thread hthread =>
      obtain ⟨output, hcall, hinv⟩ := h.thread hmono hpos hanswer hthread
      simp only [act, hlog, hcall, Option.some.injEq] at hs
      exact ⟨_, hs.symm, hinv, hlog⟩
    | start ho =>
      have hpc := hl.built.mp ho
      simp only [act, hlog, Option.some.injEq] at hs
      refine ⟨_, hs.symm, ⟨fun hout => ⟨(h.closed hout).1, .inr (.inl rfl)⟩, fun l hout => ?_⟩, hlog⟩
      exact absurd hpc (h.opened l hout).1
    | append hm happend =>
      obtain ⟨b, c, n, rfl⟩ := AsyncLogging.append_cases happend
      simp only [act, hlog, Option.some.injEq] at hs
      exact ⟨_, hs.symm, ⟨h.closed, h.opened⟩, hlog⟩
    | startReturns ho hz | stop ho | clearRunning ho | stopReturns ho hpc =>
      simp only [act, hlog, Option.some.injEq] at hs
      exact ⟨_, hs.symm, ⟨h.closed, h.opened⟩, hlog⟩

/-- **Run lemma**: the invariant holds of every state reached, and its logging part is reached alone. -/
theorem reach_inv {s : State N} (hmono : Monotone clock) (hpos : ∀ n, 0 < clock n)
    (hanswer : ∀ i k, max N 255 ≤ answer i k)
    (h : (machine P clock answer toString_now N).Reach (fun s => ShortLines s.log) s) :
    Inv P clock toString_now s ∧ (AsyncLogging.machine N).Reach ShortLines s.log := by
  refine Machine.Reach.induct (I := fun s => Inv P clock toString_now s ∧
    (AsyncLogging.machine N).Reach ShortLines s.log) ?_ ?_ h
  · rintro s rfl
    exact ⟨⟨fun _ => ⟨rfl, .inl rfl⟩, fun l hl => by cases hl⟩, .init rfl⟩
  · rintro s a t - ⟨hinv, hr⟩ ha hs
    obtain ⟨t', ht, hinv', hstep⟩ := hinv.spec hr hmono hpos hanswer ha hs
    obtain rfl := Except.ok.inj ht
    exact ⟨hinv', .step hr ha hstep⟩

variable (P answer toString_now) in
/-- The files do not hold the log up: each of its runs is one with files. -/
theorem exists_reach {t : AsyncLogging.State N} (hmono : Monotone clock) (hpos : ∀ n, 0 < clock n)
    (hanswer : ∀ i k, max N 255 ≤ answer i k) (h : (AsyncLogging.machine N).Reach ShortLines t) :
    ∃ s, (machine P clock answer toString_now N).Reach (fun s => ShortLines s.log) s ∧ s.log = t := by
  refine Machine.Reach.induct (I := fun t => ∃ s, (machine P clock answer toString_now N).Reach
    (fun s => ShortLines s.log) s ∧ s.log = t) ?_ ?_ h
  · rintro t rfl
    exact ⟨_, .init rfl, rfl⟩
  · rintro _ a t - ⟨s, hs, rfl⟩ ha ht
    obtain ⟨r, hr⟩ : ∃ r, act P clock answer toString_now s a = some r := by
      have ht' : AsyncLogging.act s.log a = some (.ok t) := ht
      cases a <;> simp [act, ht']
    obtain ⟨hinv, hreach⟩ := reach_inv hmono hpos hanswer hs
    obtain ⟨s', rfl, -, hstep⟩ := hinv.spec hreach hmono hpos hanswer ha hr
    exact ⟨s', .step hs ha hr, hstep.det ht⟩

end Runs

/-! ## The files -/

section Files

variable {toString_now : ℕ → List UInt8}

theorem Writes.holds {o : Output} {es : List Output} (h : Writes o es) (k : ℕ) :
    Holds toString_now es (text (toString_now k) o) := by
  rcases h with ⟨ls, rfl, rfl⟩ | ⟨dropped, rfl, rfl⟩
  · exact holds_lines ls
  · have hn : Holds toString_now [.notice dropped] (noticeText (toString_now k) dropped ++ []) :=
      .notice k dropped .nil
    rwa [List.append_nil] at hn

theorem texts_holds {l : List Output} {ess : List (List Output)} (h : List.Forall₂ Writes l ess) :
    List.Forall₂ (Holds toString_now) ess (texts toString_now l) := by
  unfold texts
  -- the texts of the calls after the first have later times
  suffices hshift : ∀ n, List.Forall₂ (Holds toString_now) ess
      (l.mapIdx fun k o => text (toString_now (k + n)) o) from hshift 0
  induction h with
  | nil => exact fun _ => .nil
  | cons h _ ih =>
    intro n
    rw [List.mapIdx_cons]
    refine .cons (h.holds _) ?_
    have hrest := ih (n + 1)
    simpa only [Nat.add_assoc, Nat.add_comm 1] using hrest

/-- What is in relation to pieces put together comes in such pieces. -/
theorem exists_pieces {α β : Type} {R : α → β → Prop} {xs : List α} {L : List (List β)}
    (h : List.Forall₂ R xs L.flatten) :
    ∃ X : List (List α), X.flatten = xs ∧ List.Forall₂ (List.Forall₂ R) X L := by
  induction L generalizing xs with
  | nil =>
    rw [List.flatten_nil, List.forall₂_nil_right_iff] at h
    exact ⟨[], h.symm, .nil⟩
  | cons ys L ih =>
    rw [List.flatten_cons] at h
    obtain ⟨X, hX, hR⟩ := ih (List.forall₂_drop_append xs ys L.flatten h)
    refine ⟨xs.take ys.length :: X, ?_, .cons (List.forall₂_take_append xs ys L.flatten h) hR⟩
    rw [List.flatten_cons, hX, List.take_append_drop]

theorem flatMap_outputs_writes (batches : List (List (List (List UInt8)))) :
    List.Forall₂ Writes ((batches.map (List.map List.flatten)).flatMap outputs)
      (batches.flatMap chunks) := by
  induction batches with
  | nil => exact .nil
  | cons b batches ih => exact List.rel_append (outputs_writes b) ih

/-- The line, if it is one. -/
def line? : Output → Option (List UInt8)
  | .data logline => some logline
  | .notice _ => none

theorem filterMap_data (ls : List (List UInt8)) : (ls.map Output.data).filterMap line? = ls := by
  rw [List.filterMap_map]
  exact List.filterMap_some

theorem entries_sublist (batch : List (List (List UInt8))) :
    ((entries batch).filterMap line?).Sublist batch.flatten := by
  unfold entries
  split
  · rw [List.filterMap_cons_none rfl, filterMap_data]
    exact (List.take_sublist 2 batch).flatten
  · rw [filterMap_data]

theorem flatMap_entries_sublist (batches : List (List (List (List UInt8)))) :
    ((batches.flatMap entries).filterMap line?).Sublist batches.flatten.flatten := by
  induction batches with
  | nil => exact .slnil
  | cons b batches ih =>
    rw [List.flatMap_cons, List.filterMap_append, List.flatten_cons, List.flatten_append]
    exact (entries_sublist b).append ih

theorem flatMap_entries_of_small {batches : List (List (List (List UInt8)))}
    (h : ∀ b ∈ batches, b.length ≤ 25) :
    batches.flatMap entries = batches.flatten.flatten.map .data := by
  induction batches with
  | nil => rfl
  | cons b batches ih =>
    have hb : b.length ≤ 25 := h b (List.mem_cons_self ..)
    rw [List.flatMap_cons, ih fun b' hb' => h b' (List.mem_cons_of_mem _ hb'), entries,
      if_neg (by omega), List.flatten_cons, List.flatten_append, List.map_append]

/-- What the files hold after the calls for some batches. -/
theorem exists_read {clock : ℕ → ℤ} {l : LogFile} {f : LogPart} {called due : List Output}
    {batches : List (List (List (List UInt8)))}
    (hf : LogFile.Inv clock l f (texts toString_now called))
    (hcalls : called ++ due = (batches.map (List.map List.flatten)).flatMap outputs) :
    ∃ read, List.Forall₂ (Holds toString_now) read (l.files.map fun g => g.out.file) ∧
      read.flatten <+: batches.flatMap entries ∧
      (due = [] → read.flatten = batches.flatMap entries) := by
  have hfiles : l.files = l.older ++ [f] := by rw [LogFile.files, hf.file, Option.toList_some]
  have hchunks : (batches.flatMap chunks).flatten = batches.flatMap entries := by
    rw [List.flatMap_def, List.flatMap_def, List.flatten_flatten, List.map_map]
    exact congrArg List.flatten (List.map_congr_left fun b _ => flatten_chunks b)
  have htexts : texts toString_now called = ((l.older ++ [f]).map LogPart.lines).flatten := by
    rw [← hf.inOrder, List.flatMap_def]
  have hall := flatMap_outputs_writes batches
  rw [← hcalls] at hall
  -- the lines of the calls made so far, call by call
  obtain ⟨made, hmade⟩ : ∃ made, (batches.flatMap chunks).take called.length = made := ⟨_, rfl⟩
  have hwrites : List.Forall₂ Writes called made := by
    rw [← hmade]
    exact (List.forall₂_take_append _ _ _ hall.flip).flip
  have hheld : List.Forall₂ (Holds toString_now) made (texts toString_now called) :=
    texts_holds hwrites
  rw [htexts] at hheld
  obtain ⟨X, hX, hpieces⟩ := exists_pieces hheld
  refine ⟨X.map List.flatten, ?_, ?_, fun hdue => ?_⟩
  · rw [hfiles, List.map_congr_left fun g hg => hf.whole g hg, List.forall₂_map_left_iff,
      List.forall₂_map_right_iff]
    rw [List.forall₂_map_right_iff] at hpieces
    exact hpieces.imp fun _ _ h => holds_flatten h
  · rw [← hchunks, ← List.flatten_flatten, hX, ← hmade]
    exact (List.take_prefix _ _).flatten
  · have hlen := hall.length_eq
    rw [hdue, List.append_nil] at hlen
    rw [← hchunks, ← List.flatten_flatten, hX, ← hmade, hlen, List.take_length]

end Files

section Runs

variable {P : LogFileParams} {clock : ℕ → ℤ} {answer : ℕ → ℕ → ℕ} {toString_now : ℕ → List UInt8}
  {s : State N}

/-- **From `append` to the files**: whatever the interleaving, the clock and the rolls, the files, in
the order in which they are opened, hold the lines in the order in which they were appended; no line
is split between two files, and none is missing but those of the buffers that a notice, which stands
in their place, counts.  Nothing of what was taken over is missing when the back end is done. -/
theorem files_whole (hmono : Monotone clock) (hpos : ∀ n, 0 < clock n)
    (hanswer : ∀ i k, max N 255 ≤ answer i k)
    (h : (machine P clock answer toString_now N).Reach (fun s => ShortLines s.log) s) :
    (∀ a, ShortLines s.log a → ¬ (machine P clock answer toString_now N).Faults s a) ∧
      ∃ cut, Whole s.log cut ∧ ∀ l, s.output = some l →
        (l.files.map LogPart.opened).Pairwise (· < ·) ∧
        ∃ read, List.Forall₂ (Holds toString_now) read (l.files.map fun f => f.out.file) ∧
          read.flatten <+: cut.batches.flatMap entries ∧
          (s.log.pc = .done → read.flatten = cut.batches.flatMap entries) ∧
          (read.flatten.filterMap line?).Sublist s.log.lines ∧
          ((∀ b ∈ s.log.batches, b.length ≤ 25) → read.flatten <+: s.log.lines.map .data) := by
  obtain ⟨hinv, hr⟩ := reach_inv hmono hpos hanswer h
  obtain ⟨cut, hcut⟩ := AsyncLogging.reach_whole hr
  have hlines : cut.batches.flatten.flatten <+: s.log.lines := by
    rw [← hcut.lines, Cut.lines, List.append_assoc, List.append_assoc]
    exact List.prefix_append _ _
  refine ⟨?_, cut, hcut, fun l hl => ?_⟩
  · rintro a ha ⟨e, he⟩
    obtain ⟨t, ht, -⟩ := hinv.spec hr hmono hpos hanswer ha he
    cases ht
  · obtain ⟨-, -, -, f, hf, -⟩ := hinv.opened l hl
    have hcalls := AsyncLogging.reach_output hr
    rw [hcut.batches] at hcalls
    obtain ⟨read, hread, hfront, hdone⟩ := exists_read hf hcalls
    refine ⟨?_, read, hread, hfront, fun hpc => hdone ?_, ?_, fun hsmall => ?_⟩
    · rw [LogFile.files, hf.file, Option.toList_some]
      exact hf.increasing
    · simp only [AsyncLogging.State.due, hpc]
    · exact (hfront.sublist.filterMap line?).trans
        ((flatMap_entries_sublist _).trans hlines.sublist)
    · have hsmall' : ∀ b ∈ cut.batches, b.length ≤ 25 := by
        intro b hb
        have hmem : b.map List.flatten ∈ s.log.batches := by
          rw [hcut.batches]
          exact List.mem_map_of_mem hb
        simpa only [List.length_map] using hsmall _ hmem
      rw [flatMap_entries_of_small hsmall'] at hfront
      exact hfront.trans (hlines.map Output.data)

/-- Two lines are in the first file, and one came while the back end wrote them. -/
theorem files_whole_threeLines : ∃ s : State kLargeBuffer,
    (machine ⟨0, 3, 1⟩ (fun n => 1700000000 + n) (fun _ _ => kLargeBuffer) (fun _ => [])
      kLargeBuffer).Reach (fun s => ShortLines s.log) s ∧ s.log.pc = .write 1 ∧
      ∃ l read, s.output = some l ∧
        List.Forall₂ (Holds fun _ => []) read (l.files.map fun f => f.out.file) ∧
        read.flatten <+: [.data [65], .data [66], .data [67]] := by
  have hmono : Monotone fun n : ℕ => (1700000000 + n : ℤ) := fun _ _ h => by simpa using h
  have hpos : ∀ n : ℕ, (0 : ℤ) < 1700000000 + n := fun n => by omega
  have hanswer : ∀ _ _ : ℕ, max kLargeBuffer 255 ≤ kLargeBuffer := fun _ _ => by decide
  obtain ⟨t, ht, hpc, hlines, hbatches⟩ : ∃ t : AsyncLogging.State kLargeBuffer,
      (AsyncLogging.machine kLargeBuffer).exec ShortLines AsyncLogging.init
        AsyncLogging.threeLineRun = some t ∧ t.pc = .write 1 ∧
          t.lines = [[65], [66], [67]] ∧ t.batches.map List.length = [1] := ⟨_, rfl, rfl, rfl, rfl⟩
  obtain ⟨s, hs, rfl⟩ := exists_reach ⟨0, 3, 1⟩ (fun _ _ => kLargeBuffer) (fun _ => []) hmono hpos
    hanswer (.of_exec (.init rfl) ht)
  have hsmall : ∀ b ∈ s.log.batches, b.length ≤ 25 := by
    intro b hb
    have hmem := List.mem_map_of_mem (f := List.length) hb
    rw [hbatches, List.mem_singleton] at hmem
    omega
  obtain ⟨-, cut, -, hfiles⟩ := files_whole hmono hpos hanswer hs
  cases hout : s.output with
  | none =>
    have hclosed := ((reach_inv hmono hpos hanswer hs).1.closed hout).2
    rw [hpc] at hclosed
    simp at hclosed
  | some l =>
    obtain ⟨-, read, hread, -, -, -, hfront⟩ := hfiles l hout
    have hread' := hfront hsmall
    rw [hlines] at hread'
    exact ⟨s, hs, hpc, l, read, hout, hread, hread'⟩

end Runs

end MengSen.AsyncLogFile

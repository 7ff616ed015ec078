import MengSen.Lib.Mem
import Mathlib.Data.List.Infix

/-!
# Base.ReadSmallFile — reading a file

`FileUtil::ReadSmallFile` of `base/FileUtil.cpp`.  The `k`-th `read` or `pread` of the object fails with
an `errno`, or delivers what there is, `n + 1` bytes at most when `answer k` is `n`; so every sequence of
short reads is that of some `answer`.

An access outside `buf_` is a fault, and so is the exception of `reserve` for a negative size.  `Reads`
says what a piece of the loop does, `Delivers` what a run of calls returns: the contents are the pieces of
the file, one behind the other, and a call without an error has all that it asked for.  A negative size is
the greatest `size_t` for the loop, so that the file is read to its end; where the size of a regular file
is asked for, it throws before the loop (`Call.throws`).
-/

namespace MengSen

inductive ReadSmallFile.Fault
  | outOfBounds
  /-- `std::length_error` -/
  | lengthError
  deriving DecidableEq

/-- What `fstat` tells. -/
structure Stat where
  isReg : Bool
  isDir : Bool
  st_size : ℕ
  st_mtime : ℤ
  st_ctime : ℤ

structure ReadSmallFile where
  /-- `fd_ >= 0` -/
  opened : Bool
  err_ : ℕ
  buf_ : List UInt8
  /-- what is in the file, and how far it is read -/
  file : List UInt8
  offset : ℕ
  /-- the number of calls of `read` and `pread` -/
  calls : ℕ

namespace ReadSmallFile

def kBufferSize : ℕ := 64 * 1024

def EISDIR : ℕ := 21

/-- The constructor, with what `open` answers: its `errno`, or the file; `mem` is what is in `buf_`. -/
def ofOpen (mem : List UInt8) : Except ℕ (List UInt8) → ReadSmallFile
  | .error errno => ⟨false, errno, mem.set 0 0, [], 0, 0⟩
  | .ok file => ⟨true, 0, mem.set 0 0, file, 0, 0⟩

/-- What a call of `readToString` returns and stores; `none` is left as it was. -/
structure Result where
  err : ℕ
  content : Option (List UInt8)
  fileSize : Option ℕ
  modifyTime : Option ℤ
  createTime : Option ℤ

section Model

variable (answer : ℕ → Except ℕ ℕ)

/-- `::read(fd_, buf_, toRead)`, or its `errno`. -/
def read (f : ReadSmallFile) (toRead : ℕ) : Except Fault (Except ℕ ℕ × ReadSmallFile) :=
  match answer f.calls with
  | .error errno => .ok (.error errno, { f with calls := f.calls + 1 })
  | .ok n =>
    let d := (f.file.drop f.offset).take (min toRead (n + 1))
    match Mem.store? f.buf_ 0 d with
    | none => .error .outOfBounds
    | some buf =>
      .ok (.ok d.length,
        { f with buf_ := buf, offset := f.offset + d.length, calls := f.calls + 1 })

/-- The loop of `readToString`, with the `errno` that it stores. -/
def readLoop (maxSize : ℕ) (f : ReadSmallFile) (content : List UInt8) :
    Except Fault (Option ℕ × List UInt8 × ReadSmallFile) :=
  if _hsize : content.length < maxSize then
    match f.read answer (min (maxSize - content.length) kBufferSize) with
    | .error e => .error e
    | .ok (.error errno, f) => .ok (some errno, content, f)
    | .ok (.ok n, f) =>
      if _hn : n > 0 then
        if _hbuf : 0 + n ≤ f.buf_.length then
          readLoop maxSize f (content ++ Mem.slice f.buf_ 0 n)
        else .error .outOfBounds
      else .ok (none, content, f)
  else .ok (none, content, f)
termination_by maxSize - content.length
decreasing_by
  rw [List.length_append, Mem.length_slice _hbuf]
  omega

/-- `implicit_cast<size_t>(maxSize)`. -/
def sizeOf (maxSize : Int32) : ℕ := maxSize.toInt64.toUInt64.toNat

/-- What `readToString` stores before it reads; `fstat` is called when there is a place for the size. -/
def readStat (f : ReadSmallFile) (maxSize : Int32) (fstat : Option (Except ℕ Stat)) :
    Except Fault Result :=
  let r : Result := ⟨f.err_, some [], none, none, none⟩
  match fstat with
  | none => .ok r
  | some (.error errno) => .ok { r with err := errno }
  | some (.ok s) =>
    let r := { r with modifyTime := some s.st_mtime, createTime := some s.st_ctime }
    if s.isReg then
      -- the size is reserved
      if min maxSize.toInt s.st_size < 0 then .error .lengthError
      else .ok { r with fileSize := some s.st_size }
    else if s.isDir then .ok { r with err := EISDIR }
    else .ok r

def readToString (f : ReadSmallFile) (maxSize : Int32) (fstat : Option (Except ℕ Stat)) :
    Except Fault (Result × ReadSmallFile) :=
  if f.opened then do
    let r ← f.readStat maxSize fstat
    let (errno, content, f) ← readLoop answer (sizeOf maxSize) f []
    return ({ r with err := errno.getD r.err, content := some content }, f)
  else .ok (⟨f.err_, none, none, none, none⟩, f)

/-- `readToBuffer`, with its result and the size that it stores. -/
def readToBuffer (f : ReadSmallFile) : Except Fault (ℕ × Option ℕ × ReadSmallFile) :=
  if f.opened then
    match answer f.calls with
    | .error errno => .ok (errno, none, { f with calls := f.calls + 1 })
    | .ok n =>
      let d := f.file.take (min (kBufferSize - 1) (n + 1))
      match (Mem.store? f.buf_ 0 d).bind fun buf => Mem.store? buf d.length [0] with
      | none => .error .outOfBounds
      | some buf => .ok (f.err_, some d.length, { f with buf_ := buf, calls := f.calls + 1 })
  else .ok (f.err_, none, f)

end Model

/-! ## The loop -/

section Loop

variable {answer : ℕ → Except ℕ ℕ} {f : ReadSmallFile}

/-- What a piece of the loop does from `f` to `f'`: it takes `d`, the front of the rest of the file, with
at most one call more than it has bytes; and it goes on until there are `size` bytes or the file is at its
end, or the last call fails. -/
structure Reads (answer : ℕ → Except ℕ ℕ) (size : ℕ) (f : ReadSmallFile) (errno : Option ℕ)
    (d : List UInt8) (f' : ReadSmallFile) : Prop where
  same : f'.opened = f.opened ∧ f'.err_ = f.err_ ∧ f'.file = f.file
  buf : f'.buf_.length = f.buf_.length
  front : d <+: f.file.drop f.offset
  length_le : d.length ≤ size
  offset : f'.offset = f.offset + d.length
  calls : f'.calls ≤ f.calls + d.length + 1
  whole : errno = none → d = (f.file.drop f.offset).take size
  failed : ∀ e, errno = some e → ∃ k, answer k = .error e

theorem Reads.nothing {size : ℕ} (h : (f.file.drop f.offset).take size = []) :
    Reads answer size f none [] f where
  same := ⟨rfl, rfl, rfl⟩
  buf := rfl
  front := List.nil_prefix
  length_le := Nat.zero_le _
  offset := rfl
  calls := Nat.le_succ _
  whole _ := h.symm
  failed _ he := by cases he

/-- The state after a `read` that delivers `d`. -/
def took (f : ReadSmallFile) (d : List UInt8) : ReadSmallFile :=
  { f with buf_ := Mem.store f.buf_ 0 d, offset := f.offset + d.length, calls := f.calls + 1 }

/-- A read that delivers something, and what follows it. -/
theorem Reads.cons {size : ℕ} {d e : List UInt8} {errno : Option ℕ} {f' : ReadSmallFile}
    (hbuf : d.length ≤ f.buf_.length) (hd : d <+: f.file.drop f.offset) (hpos : 0 < d.length)
    (hsize : d.length ≤ size) (h : Reads answer (size - d.length) (f.took d) errno e f') :
    Reads answer size f errno (d ++ e) f' := by
  have hrest : f.file.drop f.offset = d ++ f.file.drop (f.offset + d.length) := by
    obtain ⟨rest, hrest⟩ := hd
    rw [← List.drop_drop, ← hrest, List.drop_left]
  have hcalls := h.calls
  have hlen := h.length_le
  refine ⟨h.same, ?_, ?_, ?_, ?_, ?_, fun hnone => ?_, h.failed⟩
  · rw [h.buf, took, Mem.length_store (by omega)]
  · rw [hrest]
    exact (List.prefix_append_right_inj d).mpr h.front
  · rw [List.length_append]
    omega
  · rw [h.offset, took, List.length_append, Nat.add_assoc]
  · simp only [took] at hcalls
    rw [List.length_append]
    omega
  · have he : e = (f.file.drop (f.offset + d.length)).take (size - d.length) := h.whole hnone
    rw [hrest, List.take_append, List.take_of_length_le hsize, ← he]

theorem read_of_error {errno toRead : ℕ} (h : answer f.calls = .error errno) :
    f.read answer toRead = .ok (.error errno, { f with calls := f.calls + 1 }) := by
  rw [read, h]

/-- What a `read` that does not fail delivers. -/
theorem read_of_ok {n toRead : ℕ} (h : answer f.calls = .ok n) (hbuf : toRead ≤ f.buf_.length) :
    ∃ d, d = (f.file.drop f.offset).take (min toRead (n + 1)) ∧
      f.read answer toRead = .ok (.ok d.length, f.took d) := by
  refine ⟨_, rfl, ?_⟩
  have hlen : 0 + ((f.file.drop f.offset).take (min toRead (n + 1))).length ≤ f.buf_.length := by
    rw [List.length_take]
    omega
  rw [read, h]
  simp only [Mem.store?_of_le hlen, took]

/-- **The loop** reads on from the content so far, within `buf_`. -/
theorem readLoop_reads (answer : ℕ → Except ℕ ℕ) (hbuf : f.buf_.length = kBufferSize) (maxSize : ℕ)
    (content : List UInt8) :
    ∃ errno d f', readLoop answer maxSize f content = .ok (errno, content ++ d, f') ∧
      Reads answer (maxSize - content.length) f errno d f' := by
  -- by induction on what is still missing
  induction hrest : maxSize - content.length using Nat.strong_induction_on generalizing f content with
  | _ rest ih =>
  rw [readLoop]
  split
  case isFalse hsize =>
    refine ⟨none, [], f, by rw [List.append_nil], Reads.nothing ?_⟩
    rw [← hrest, Nat.sub_eq_zero_of_le (Nat.le_of_not_lt hsize), List.take_zero]
  case isTrue hsize =>
    rw [hrest]
    cases hanswer : answer f.calls with
    | error errno =>
      rw [read_of_error hanswer]
      refine ⟨some errno, [], { f with calls := f.calls + 1 }, by simp only [List.append_nil],
        ⟨rfl, rfl, rfl⟩, rfl, List.nil_prefix, Nat.zero_le _, rfl, Nat.le_refl _, ?_, ?_⟩
      · intro h
        cases h
      · rintro e ⟨⟩
        exact ⟨_, hanswer⟩
    | ok n =>
      have hle : min rest kBufferSize ≤ f.buf_.length := by omega
      obtain ⟨d, hd, hread⟩ := read_of_ok hanswer hle
      have hlen : d.length ≤ min rest kBufferSize := by
        rw [hd, List.length_take]
        omega
      have hfront : d <+: f.file.drop f.offset := hd ▸ List.take_prefix _ _
      rw [hread]
      by_cases hpos : 0 < d.length
      · have hslice : Mem.slice (f.took d).buf_ 0 d.length = d := Mem.slice_store_self (by omega)
        have hbuf' : (f.took d).buf_.length = kBufferSize := by
          rw [took, Mem.length_store (by omega), hbuf]
        have hless : maxSize - (content ++ d).length < rest := by
          rw [List.length_append]
          omega
        obtain ⟨errno, e, f', hloop, he⟩ := ih _ hless hbuf' (content ++ d) rfl
        refine ⟨errno, d ++ e, f', ?_, .cons (by omega) hfront hpos (by omega) ?_⟩
        · simp only [gt_iff_lt, hpos, ↓reduceDIte, hslice]
          rw [dif_pos (by omega), hloop, List.append_assoc]
        · rwa [List.length_append, ← Nat.sub_sub, hrest] at he
      · -- the end of the file
        have hnil : d = [] := List.length_eq_zero_iff.mp (Nat.le_zero.mp (Nat.not_lt.mp hpos))
        have hend : f.file.drop f.offset = [] := by
          have hmin : min (min rest kBufferSize) (n + 1) ≠ 0 := by
            have : kBufferSize = 65536 := rfl
            omega
          exact (List.take_eq_nil_iff.mp (hnil ▸ hd).symm).resolve_left hmin
        refine ⟨none, [], f.took d, ?_, ?_⟩
        · simp only [gt_iff_lt, hpos, ↓reduceDIte, List.append_nil]
        · subst hnil
          exact ⟨⟨rfl, rfl, rfl⟩, Mem.length_store (Nat.zero_le _), List.nil_prefix,
            Nat.zero_le _, rfl, Nat.le_refl _, fun _ => by rw [hend, List.take_nil], fun _ h => by
              cases h⟩

end Loop

/-! ## Runs -/

inductive Call
  | readToString (maxSize : Int32) (fstat : Option (Except ℕ Stat))
  | readToBuffer

/-- `reserve` throws. -/
def Call.throws : Call → Bool
  | .readToString maxSize (some (.ok s)) => s.isReg && maxSize.toInt < 0
  | _ => false

/-- What a call leaves to its caller. -/
inductive Returned
  | string (r : Result)
  /-- the error, the size and `buffer()` -/
  | buffer (err : ℕ) (size : Option ℕ) (buf : List UInt8)

section Run

variable (answer : ℕ → Except ℕ ℕ)

def call (f : ReadSmallFile) : Call → Except Fault (Returned × ReadSmallFile)
  | .readToString maxSize fstat => do
    let (r, f) ← f.readToString answer maxSize fstat
    return (.string r, f)
  | .readToBuffer => do
    let (err, size, f) ← f.readToBuffer answer
    return (.buffer err size f.buf_, f)

/-- The calls on one object, one after the other. -/
def run (f : ReadSmallFile) : List Call → Except Fault (List Returned × ReadSmallFile)
  | [] => .ok ([], f)
  | c :: cs => do
    let (r, f) ← f.call answer c
    let (rs, f) ← f.run cs
    return (r :: rs, f)

end Run

/-- The strings that were returned, one behind the other. -/
def contents (rs : List Returned) : List UInt8 :=
  rs.flatMap fun
    | .string r => r.content.getD []
    | .buffer _ _ _ => []

/-- What a call returns of the file, which is read up to `o` before it and up to `o'` after it. -/
def Delivered (file : List UInt8) (o : ℕ) : Call → Returned → ℕ → Prop
  | .readToString maxSize _, .string r, o' => ∃ d, r.content = some d ∧ d <+: file.drop o ∧
      d.length ≤ sizeOf maxSize ∧ (r.err = 0 → d = (file.drop o).take (sizeOf maxSize)) ∧
      o' = o + d.length
  | .readToBuffer, .buffer err size buf, o' => o' = o ∧ (err = 0 → ∃ n, size = some n ∧
      n < kBufferSize ∧ buf.take n = file.take n ∧ buf[n]? = some 0 ∧ (n = 0 → file = []))
  | _, _, _ => False

/-- What the calls return of the file. -/
def Delivers (file : List UInt8) : ℕ → List Call → List Returned → ℕ → Prop
  | o, [], [], o' => o' = o
  | o, c :: cs, r :: rs, o' => ∃ o₁, Delivered file o c r o₁ ∧ Delivers file o₁ cs rs o'
  | _, _, _, _ => False

section Deliver

variable {answer : ℕ → Except ℕ ℕ} {f : ReadSmallFile}

/-- An open object before its calls and between them. -/
structure Inv (file : List UInt8) (f : ReadSmallFile) : Prop where
  opened : f.opened = true
  err_ : f.err_ = 0
  file : f.file = file
  buf : f.buf_.length = kBufferSize

theorem Inv.reads {file d : List UInt8} {size : ℕ} {errno : Option ℕ} {f' : ReadSmallFile}
    (hf : Inv file f) (h : Reads answer size f errno d f') : Inv file f' :=
  ⟨h.same.1.trans hf.opened, h.same.2.1.trans hf.err_, h.same.2.2.trans hf.file, h.buf.trans hf.buf⟩

/-- Without a negative size for a regular file `reserve` does not throw. -/
theorem readStat_ok {maxSize : Int32} {fstat : Option (Except ℕ Stat)}
    (h : (Call.readToString maxSize fstat).throws = false) : ∃ r, f.readStat maxSize fstat = .ok r := by
  obtain _ | (errno | st) := fstat
  · exact ⟨_, rfl⟩
  · exact ⟨_, rfl⟩
  · rw [readStat]
    cases hreg : st.isReg with
    | false => cases st.isDir <;> exact ⟨_, rfl⟩
    | true =>
      simp only [Call.throws, hreg, Bool.true_and, decide_eq_false_iff_not] at h
      rw [if_pos rfl, if_neg (by omega)]
      exact ⟨_, rfl⟩

/-- A negative size for a regular file. -/
theorem readStat_throws {maxSize : Int32} {fstat : Option (Except ℕ Stat)}
    (h : (Call.readToString maxSize fstat).throws = true) :
    f.readStat maxSize fstat = .error .lengthError := by
  obtain _ | (errno | st) := fstat
  · cases h
  · cases h
  · simp only [Call.throws, Bool.and_eq_true, decide_eq_true_eq] at h
    rw [readStat, if_pos h.1, if_pos (by omega)]

theorem call_throws (hopen : f.opened = true) {c : Call} (hc : c.throws = true) :
    f.call answer c = .error .lengthError := by
  cases c with
  | readToString maxSize fstat =>
    simp only [call, readToString, hopen, if_true, readStat_throws hc, bind, Except.bind]
  | readToBuffer => cases hc

/-- `readToString` after its loop. -/
theorem readToString_eq {maxSize : Int32} {fstat : Option (Except ℕ Stat)} {errno : Option ℕ}
    {d : List UInt8} {f' : ReadSmallFile} (hopen : f.opened = true)
    (hthrows : (Call.readToString maxSize fstat).throws = false)
    (hloop : readLoop answer (sizeOf maxSize) f [] = .ok (errno, d, f')) :
    ∃ r, f.readToString answer maxSize fstat = .ok (r, f') ∧ r.content = some d ∧
      ∀ e, errno = some e → r.err = e := by
  obtain ⟨r, hr⟩ := readStat_ok (f := f) hthrows
  refine ⟨{ r with err := errno.getD r.err, content := some d }, ?_, rfl, ?_⟩
  · rw [readToString, if_pos hopen]
    simp only [hr, hloop, bind, Except.bind, pure, Except.pure]
  · rintro e rfl
    rfl

theorem readToString_delivered {file : List UInt8} (hf : Inv file f) {maxSize : Int32}
    {fstat : Option (Except ℕ Stat)} (hanswer : ∀ k e, answer k = .error e → e ≠ 0)
    (hthrows : (Call.readToString maxSize fstat).throws = false) :
    ∃ r f', f.readToString answer maxSize fstat = .ok (r, f') ∧ Inv file f' ∧
      Delivered file f.offset (.readToString maxSize fstat) (.string r) f'.offset ∧
      f'.calls + f.offset ≤ f.calls + f'.offset + 1 := by
  obtain ⟨errno, d, f', hloop, h⟩ := readLoop_reads answer hf.buf (sizeOf maxSize) []
  obtain ⟨r, hr, hcontent, herr⟩ := readToString_eq hf.opened hthrows hloop
  have hoffset := h.offset
  have hcalls := h.calls
  refine ⟨r, f', hr, hf.reads h, ⟨d, hcontent, hf.file ▸ h.front, h.length_le, ?_, hoffset⟩, by omega⟩
  intro hzero
  cases errno with
  | none => exact hf.file ▸ h.whole rfl
  | some e =>
    obtain ⟨k, hk⟩ := h.failed e rfl
    exact absurd (herr e rfl ▸ hzero) (hanswer k e hk)

theorem readToBuffer_delivered {file : List UInt8} (hf : Inv file f)
    (hanswer : ∀ k e, answer k = .error e → e ≠ 0) :
    ∃ err size f', f.readToBuffer answer = .ok (err, size, f') ∧ Inv file f' ∧
      Delivered file f.offset .readToBuffer (.buffer err size f'.buf_) f'.offset ∧
      f'.calls = f.calls + 1 := by
  cases hk : answer f.calls with
  | error errno =>
    refine ⟨errno, none, { f with calls := f.calls + 1 }, ?_, ⟨hf.opened, hf.err_, hf.file, hf.buf⟩,
      ⟨rfl, ?_⟩, rfl⟩
    · rw [readToBuffer, if_pos hf.opened, hk]
    · intro hzero
      exact absurd hzero (hanswer _ _ hk)
  | ok n =>
    obtain ⟨d, hd⟩ : ∃ d, d = f.file.take (min (kBufferSize - 1) (n + 1)) := ⟨_, rfl⟩
    have hlen : d.length < kBufferSize := by
      have : kBufferSize = 65536 := rfl
      rw [hd, List.length_take]
      omega
    have hfront : 0 + d.length ≤ f.buf_.length := by rw [hf.buf]; omega
    have hstore : 0 + (d ++ [0]).length ≤ f.buf_.length := by
      rw [List.length_append, hf.buf, List.length_singleton]
      omega
    have hbuf : (Mem.store? f.buf_ 0 d).bind (fun buf => Mem.store? buf d.length [0]) =
        some (Mem.store f.buf_ 0 (d ++ [0])) := by
      have hback := Mem.store_store_append (e := [0]) hfront
      rw [Nat.zero_add] at hback
      rw [Mem.store?_bind hfront, Mem.store?_of_le, hback]
      rw [Mem.length_store hfront, hf.buf, List.length_singleton]
      exact hlen
    refine ⟨f.err_, some d.length, { f with
        buf_ := Mem.store f.buf_ 0 (d ++ [0]), calls := f.calls + 1 }, ?_,
      ⟨hf.opened, hf.err_, hf.file, (Mem.length_store hstore).trans hf.buf⟩,
      ⟨rfl, fun _ => ⟨d.length, rfl, hlen, ?_, ?_, ?_⟩⟩, rfl⟩
    · rw [readToBuffer, if_pos hf.opened, hk]
      simp only [← hd, hbuf]
    · have htake := Mem.slice_store_front hstore
      rw [Mem.slice, List.drop_zero] at htake
      rw [htake, hd, hf.file, List.length_take, List.take_eq_take_iff]
      omega
    · have hself := congrArg (·[d.length]?) (Mem.slice_store_self hstore)
      simpa [Mem.getElem?_slice] using hself
    · intro hzero
      rw [List.length_eq_zero_iff, hd, List.take_eq_nil_iff, hf.file] at hzero
      refine hzero.resolve_left ?_
      have : kBufferSize = 65536 := rfl
      omega

/-- **One call** that does not throw returns what it reads. -/
theorem call_delivered {file : List UInt8} (hf : Inv file f)
    (hanswer : ∀ k e, answer k = .error e → e ≠ 0) {c : Call} (hc : c.throws = false) :
    ∃ r f', f.call answer c = .ok (r, f') ∧ Inv file f' ∧
      Delivered file f.offset c r f'.offset ∧ f'.calls + f.offset ≤ f.calls + f'.offset + 1 := by
  cases c with
  | readToString maxSize fstat =>
    obtain ⟨r, f', hr, hf', hd, hcalls⟩ := readToString_delivered hf hanswer hc
    refine ⟨.string r, f', ?_, hf', hd, hcalls⟩
    simp only [call, hr, bind, Except.bind, pure, Except.pure]
  | readToBuffer =>
    obtain ⟨err, size, f', hr, hf', hd, hcalls⟩ := readToBuffer_delivered hf hanswer
    refine ⟨.buffer err size f'.buf_, f', ?_, hf', hd, ?_⟩
    · simp only [call, hr, bind, Except.bind, pure, Except.pure]
    · have hsame : f'.offset = f.offset := hd.1
      omega

/-- **Runs of an open object** return what they read up to the first call that throws. -/
theorem Inv.of_run {file : List UInt8} (hf : Inv file f)
    (hanswer : ∀ k e, answer k = .error e → e ≠ 0) (cs : List Call) :
    ∃ rs f', f.run answer (cs.takeWhile (!·.throws)) = .ok (rs, f') ∧ Inv file f' ∧
      Delivers file f.offset (cs.takeWhile (!·.throws)) rs f'.offset ∧
      f'.calls + f.offset ≤ f.calls + f'.offset + (cs.takeWhile (!·.throws)).length ∧
      f.run answer cs = if cs.any Call.throws then .error .lengthError else .ok (rs, f') := by
  induction cs generalizing f with
  | nil => exact ⟨[], f, rfl, hf, rfl, Nat.le_refl _, rfl⟩
  | cons c cs ih =>
    cases hc : c.throws with
    | true =>
      -- the run ends here
      rw [List.takeWhile_cons_of_neg (by simp [hc]), List.any_cons, hc]
      refine ⟨[], f, rfl, hf, rfl, Nat.le_refl _, ?_⟩
      simp only [run, call_throws hf.opened hc, bind, Except.bind, Bool.true_or, if_true]
    | false =>
      obtain ⟨r, f₁, hr, hf₁, hd, hcalls⟩ := call_delivered hf hanswer hc
      obtain ⟨rs, f', hrs, hf', hds, hcalls', hrun⟩ := ih hf₁
      rw [List.takeWhile_cons_of_pos (by simp [hc]), List.any_cons, hc, Bool.false_or]
      refine ⟨r :: rs, f', ?_, hf', ⟨_, hd, hds⟩, ?_, ?_⟩
      · simp only [run, hr, hrs, bind, Except.bind, pure, Except.pure]
      · rw [List.length_cons]
        omega
      · simp only [run, hr, hrun, bind, Except.bind, pure, Except.pure]
        cases cs.any Call.throws <;> rfl

end Deliver

/-- The strings are the file, as far as it is read. -/
theorem Delivers.contents {file : List UInt8} {o o' : ℕ} {cs : List Call} {rs : List Returned}
    (h : Delivers file o cs rs o') : file.take o ++ contents rs = file.take o' := by
  induction cs generalizing o rs with
  | nil =>
    cases rs with
    | nil => rw [show o' = o from h]; exact List.append_nil _
    | cons r rs => exact h.elim
  | cons c cs ih =>
    cases rs with
    | nil => exact h.elim
    | cons r rs =>
      obtain ⟨o₁, hd, hds⟩ := h
      rw [← ih hds, ReadSmallFile.contents, List.flatMap_cons, ← List.append_assoc]
      congr 1
      cases c with
      | readToString maxSize fstat =>
        cases r with
        | buffer => exact hd.elim
        | string r =>
          obtain ⟨d, hcontent, hfront, -, -, rfl⟩ := hd
          have htake : d = (file.drop o).take d.length := List.prefix_iff_eq_take.mp hfront
          simp only [hcontent, Option.getD_some]
          rw [List.take_add, ← htake]
      | readToBuffer =>
        cases r with
        | string => exact hd.elim
        | buffer err size buf => rw [hd.1, List.append_nil]

/-- **What the calls on one object return**, up to the first one that throws.  The reads may be short and
may fail: the strings are the file, as far as it is read, one behind the other, and a string without an
error is all that was asked for. -/
theorem run_delivers {answer : ℕ → Except ℕ ℕ} {mem file : List UInt8} (cs : List Call)
    (hmem : mem.length = kBufferSize) (hanswer : ∀ k e, answer k = .error e → e ≠ 0) :
    ∃ rs f', (ofOpen mem (.ok file)).run answer (cs.takeWhile (!·.throws)) = .ok (rs, f') ∧
      Delivers file 0 (cs.takeWhile (!·.throws)) rs f'.offset ∧ contents rs = file.take f'.offset ∧
      f'.calls ≤ f'.offset + (cs.takeWhile (!·.throws)).length ∧
      (ofOpen mem (.ok file)).run answer cs =
        if cs.any Call.throws then .error .lengthError else .ok (rs, f') := by
  have hf : Inv file (ofOpen mem (.ok file)) := ⟨rfl, rfl, rfl, by rw [ofOpen, List.length_set, hmem]⟩
  obtain ⟨rs, f', hrs, -, hds, hcalls, hrun⟩ := hf.of_run hanswer cs
  have hcontents := hds.contents
  refine ⟨rs, f', hrs, hds, ?_, ?_, hrun⟩
  · exact hcontents
  · simpa [ofOpen] using hcalls

/-- Short reads, of which the second one is interrupted, and then a negative size for a regular file. -/
theorem run_delivers_interrupted :
    ∃ rs f', (ofOpen (List.replicate kBufferSize 0) (.ok [65, 66, 67])).run
        (fun k => if k = 1 then .error 4 else .ok 0)
        [.readToString 2 none, .readToBuffer, .readToString (-1) none] = .ok (rs, f') ∧
      Delivers [65, 66, 67] 0 [.readToString 2 none, .readToBuffer, .readToString (-1) none] rs
        f'.offset ∧
      contents rs = [65, 66, 67].take f'.offset ∧ f'.calls ≤ f'.offset + 3 ∧
      (ofOpen (List.replicate kBufferSize 0) (.ok [65, 66, 67])).run
        (fun k => if k = 1 then .error 4 else .ok 0)
        [.readToString 2 none, .readToBuffer, .readToString (-1) none,
          .readToString (-1) (some (.ok ⟨true, false, 3, 0, 0⟩))] = .error .lengthError := by
  refine run_delivers [.readToString 2 none, .readToBuffer, .readToString (-1) none,
    .readToString (-1) (some (.ok ⟨true, false, 3, 0, 0⟩))] List.length_replicate fun k e h => ?_
  by_cases hk : k = 1
  · rw [if_pos hk] at h
    cases h
    decide
  · rw [if_neg hk] at h
    cases h

end ReadSmallFile

end MengSen

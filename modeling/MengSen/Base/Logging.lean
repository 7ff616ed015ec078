import MengSen.Base.LogStream
import MengSen.Base.TimestampConvert

/-!
# Base.Logging — one log record

`Logger` of `base/Logging.h` and `base/Logging.cpp`: the constructor writes the time, the thread and the
level into the stream of 4000 bytes, the user inserts a message, and the destructor appends the place in
the source and a newline piece by piece and passes the text on.  The clock, the thread, `errno`, the time
zone and the C library are in `Env`.

A piece that does not leave one byte free is dropped, so the newline is dropped exactly when one byte is
left for it (`destroy_ends_iff`).
-/

namespace MengSen

open detail (IntType literal decimal)
open LogStream (Item insert insertAll insertAll_append insertAll_singleton insertAll_cons)

/-- `int`. -/
def detail.IntType.int : IntType := ⟨true, 32, by decide, by decide⟩

abbrev CInt := {v : ℤ // IntType.int.Holds v}

/-- `t_tidString`, the thread under `"%5d"`. -/
def tidString (tid : CInt) : List UInt8 :=
  List.replicate (5 - (decimal tid).length) 32 ++ decimal tid

/-- The index of the last `c` before the first NUL. -/
def strrchr : List UInt8 → UInt8 → Option ℕ
  | [], _ => none
  | x :: s, c =>
    if x = 0 then none
    else match strrchr s c with
      | some i => some (i + 1)
      | none => if x = c then some 0 else none

/-- No `double` is inserted. -/
instance : DoubleText Empty := ⟨Empty.elim, fun d => d.elim⟩

/-- Behind the last `c` there is none before the first NUL. -/
theorem strrchr_spec (s : List UInt8) (c : UInt8) :
    c ∉ cstring (s.drop ((strrchr s c).elim 0 (· + 1))) := by
  induction s with
  | nil => exact List.not_mem_nil
  | cons x s ih =>
    rw [strrchr]
    by_cases hx : x = 0
    · rw [if_pos hx, hx]
      exact List.not_mem_nil
    · rw [if_neg hx]
      rcases hs : strrchr s c with _ | i
      · rw [hs] at ih
        by_cases hc : x = c
        · simp only [if_pos hc]
          exact ih
        · simp only [if_neg hc]
          show c ∉ cstring (x :: s)
          rw [cstring_cons hx]
          exact List.not_mem_cons_of_ne_of_not_mem (Ne.symm hc) ih
      · rw [hs] at ih
        exact ih

namespace Logger

inductive LogLevel
  | TRACE
  | DEBUG
  | INFO
  | WARN
  | ERROR
  | FATAL
  deriving DecidableEq

def LogLevelName : LogLevel → List UInt8
  | .TRACE => literal "TRACE "
  | .DEBUG => literal "DEBUG "
  | .INFO => literal "INFO  "
  | .WARN => literal "WARN  "
  | .ERROR => literal "ERROR "
  | .FATAL => literal "FATAL "

/-- The `size_` bytes from `data_` on. -/
structure SourceFile where
  data_ : List UInt8

/-- The constructor from an array, without its last NUL. -/
def SourceFile.ofArray (arr : List UInt8) : SourceFile :=
  match strrchr arr 47 with
  | some slash => ⟨arr.drop (slash + 1)⟩
  | none => ⟨arr⟩

/-- The constructor from a `const char*`. -/
def SourceFile.ofFilename (filename : List UInt8) : SourceFile :=
  match strrchr filename 47 with
  | some slash => ⟨cstring (filename.drop (slash + 1))⟩
  | none => ⟨cstring filename⟩

/-- The file name is what follows the last slash. -/
theorem SourceFile.slash_not_mem (filename : List UInt8) : 47 ∉ (ofFilename filename).data_ := by
  have h := strrchr_spec filename 47
  rw [ofFilename]
  rcases hs : strrchr filename 47 with _ | slash
  · rwa [hs] at h
  · rwa [hs] at h

/-- The two constructors agree on an array without another NUL. -/
theorem SourceFile.ofArray_eq {arr : List UInt8} (h : 0 ∉ arr) : ofArray arr = ofFilename arr := by
  have hcstring : ∀ k, cstring (arr.drop k) = arr.drop k := fun k =>
    cstring_of_notMem (mt List.mem_of_mem_drop h)
  rw [ofArray, ofFilename]
  rcases strrchr arr 47 with _ | slash
  · exact congrArg SourceFile.mk (hcstring 0).symm
  · exact congrArg SourceFile.mk (hcstring (slash + 1)).symm

/-- What a record depends on. -/
structure Env where
  gmtime : Gmtime
  /-- the `static` buffer of `Timestamp::convert` -/
  buffer : List UInt8
  length_buffer : buffer.length = 32
  /-- `Timestamp::now()` -/
  now : ℕ
  g_logTimeZone : CInt
  tid : CInt
  errno : CInt
  strerror_tl : CInt → List UInt8

structure Impl where
  time_ : ℕ
  stream_ : FixedBuffer kSmallBuffer
  level_ : LogLevel
  line_ : CInt
  basename_ : SourceFile
  func_ : Option (List UInt8)

/-- `T(str, len)`, `none` when its assertion fails. -/
def T (str : List UInt8) (len : ℕ) : Option (Item Empty) :=
  if str.length = len then some (.string str) else none

def Impl.formatTime (e : Env) (impl : Impl) : Option (FixedBuffer kSmallBuffer) := do
  let microSecondsSinceEpoch :=
    if e.g_logTimeZone.val ≠ 0 then Timestamp.switch_timezone impl.time_ e.g_logTimeZone
    else impl.time_
  let (text, _) ← Timestamp.convert e.gmtime e.buffer microSecondsSinceEpoch .microsecond
  insert (D := Empty) impl.stream_ (.string (text ++ literal " "))

/-- The constructor of `Impl`. -/
def Impl.make (e : Env) (level : LogLevel) (savedErrno : CInt) (file : SourceFile) (line : CInt)
    (func : Option (List UInt8)) : Option Impl := do
  let impl : Impl := ⟨e.now, .make, level, line, file, func⟩
  let stream ← impl.formatTime e
  let tid ← T (tidString e.tid) (tidString e.tid).length
  let name ← T (LogLevelName level) 6
  let stream ← insertAll stream [tid, .char 32, name]
  let stream ←
    if savedErrno.val ≠ 0 then
      insertAll (D := Empty) stream [.cstring (e.strerror_tl savedErrno), .cstring (literal " (errno="),
        .integer .int savedErrno, .cstring (literal ") ")]
    else some stream
  return { impl with stream_ := stream }

/-- How a `Logger` is constructed. -/
inductive Call
  | plain
  | level (level : LogLevel) (func : Option (List UInt8))
  | toAbort (toAbort : Bool)

/-- The constructors of `Logger`. -/
def construct (e : Env) (file : SourceFile) (line : CInt) : Call → Option Impl
  | .plain => Impl.make e .INFO ⟨0, by decide⟩ file line none
  | .level level func => Impl.make e level ⟨0, by decide⟩ file line func
  | .toAbort toAbort => Impl.make e (if toAbort then .FATAL else .ERROR) e.errno file line none

/-- `finish`, with the stream after it. -/
def Impl.finish (impl : Impl) : Option (FixedBuffer kSmallBuffer) :=
  match impl.func_ with
  | some func =>
    insertAll (D := Empty) impl.stream_ [.cstring (literal " - "), .string impl.basename_.data_,
      .char 58, .integer .int impl.line_, .char 58, .cstring func, .char 10]
  | none =>
    insertAll (D := Empty) impl.stream_ [.cstring (literal " - "), .string impl.basename_.data_,
      .char 58, .integer .int impl.line_, .char 10]

/-- `~Logger`: what is passed to `g_output`, and whether it aborts. -/
def destroy (impl : Impl) : Option (List UInt8 × Bool) := do
  let buf ← impl.finish
  return (buf.content, impl.level_ = .FATAL)

/-- A `Logger` with a message inserted. -/
def log {D : Type} [DoubleText D] (e : Env) (file : SourceFile) (line : CInt) (call : Call)
    (message : List (Item D)) : Option Impl := do
  let impl ← construct e file line call
  let stream ← insertAll impl.stream_ message
  return { impl with stream_ := stream }

/-! ## When the newline is written -/

/-- The bytes left of `n` by a piece of `len` bytes that is taken when `need` are free. -/
def left (n len need : ℕ) : ℕ := if need ≤ n then n - len else n

/-- A piece that leaves one byte of `n` free ends in a newline. -/
def EndsLine (n : ℕ) (piece : List UInt8) : Prop :=
  piece ≠ [] → n = piece.length + 1 → piece.getLast? = some 10

namespace Impl

variable (impl : Impl)

/-- The bytes free before `finish`, and after its pieces up to the file name and the line. -/
def room : ℕ := impl.stream_.avail

def roomDash : ℕ := left impl.room 3 4

def roomFile : ℕ :=
  left impl.roomDash impl.basename_.data_.length (impl.basename_.data_.length + 1)

def roomLine : ℕ := left (left impl.roomFile 1 2) (decimal impl.line_).length 32

/-- What is written last ends in a newline wherever it leaves one byte free. -/
structure Terminates : Prop where
  message : impl.room = 1 → impl.stream_.content.getLast? = some 10
  dash : impl.room ≠ 4
  file : EndsLine impl.roomDash impl.basename_.data_
  colon : impl.roomFile ≠ 2
  func : ∀ func ∈ impl.func_, impl.roomLine ≠ 2 ∧ EndsLine (left impl.roomLine 1 2) func

end Impl

section Lines

variable {D : Type} [DoubleText D] {SIZE : ℕ} {b b' : FixedBuffer SIZE}

/-- The text ends in a newline, or there is room for one. -/
def Open (b : FixedBuffer SIZE) : Prop := b.avail = 1 → b.content.getLast? = some 10

/-- No item leaves one byte of `n` free without ending in a newline. -/
def EndLines : ℕ → List (Item D) → Prop
  | _, [] => True
  | n, item :: items =>
    (item.need ≤ n → EndsLine n item.text) ∧ EndLines (left n item.text.length item.need) items

theorem getLast?_append_of_ne {l d : List UInt8} (hd : d ≠ []) : (l ++ d).getLast? = d.getLast? := by
  rw [List.getLast?_append]
  rcases hlast : d.getLast? with _ | c
  · exact absurd (List.getLast?_eq_none_iff.mp hlast) hd
  · rfl

/-- An item takes its bytes, and keeps the buffer open unless it fills it. -/
theorem open_insert (hb : 1 ≤ b.avail) (item : Item D) : ∃ b', insert b item = some b' ∧
    1 ≤ b'.avail ∧ b'.avail = left b.avail item.text.length item.need ∧
    (Open b' ↔ Open b ∧ (item.need ≤ b.avail → EndsLine b.avail item.text)) := by
  obtain ⟨b', hinsert, ⟨hneed, hcontent⟩ | ⟨hneed, rfl⟩⟩ := LogStream.insert_spec b item
  · have hlt := item.length_text_lt
    have hlen := congrArg List.length hcontent
    rw [List.length_append] at hlen
    have havail : b'.avail = b.avail - item.text.length := by
      rw [LogStream.avail_eq, LogStream.avail_eq, hlen, Nat.sub_add_eq]
    refine ⟨b', hinsert, by omega, by rw [havail, left, if_pos hneed], ?_⟩
    by_cases hnil : item.text = []
    · have hsame : Open b' ↔ Open b := by
        rw [Open, Open, hcontent, havail, hnil, List.append_nil, List.length_nil, Nat.sub_zero]
      rw [hsame]
      exact (and_iff_left fun _ hne => absurd hnil hne).symm
    · have hpos := List.length_pos_iff.mpr hnil
      have hopen : Open b := fun h => by omega
      rw [and_iff_right hopen, Open, hcontent, getLast?_append_of_ne hnil, havail]
      refine ⟨fun h _ _ hn => h (by omega), fun h hn => h hneed hnil (by omega)⟩
  · refine ⟨b', hinsert, hb, (if_neg (by omega)).symm, ?_⟩
    exact (and_iff_left fun h => absurd h (by omega)).symm

/-- **A sequence of insertions** leaves the text open exactly if no item fills it but for one byte. -/
theorem open_insertAll (hb : 1 ≤ b.avail) (items : List (Item D)) : ∃ b', insertAll b items = some b' ∧
    1 ≤ b'.avail ∧ (Open b' ↔ Open b ∧ EndLines b.avail items) := by
  induction items generalizing b with
  | nil => exact ⟨b, rfl, hb, (and_iff_left trivial).symm⟩
  | cons item items ih =>
    obtain ⟨b', hinsert, hb', havail, hopen⟩ := open_insert hb item
    obtain ⟨b'', hall, hb'', hrest⟩ := ih hb'
    refine ⟨b'', (insertAll_cons hinsert items).trans hall, hb'', ?_⟩
    rw [hrest, hopen, EndLines, havail, and_assoc]

/-- A newline ends the text of an open buffer. -/
theorem insert_newline (hb : 1 ≤ b.avail) : ∃ b', insert b (.char 10 : Item D) = some b' ∧
    (b'.content.getLast? = some 10 ↔ Open b) := by
  obtain ⟨b', hinsert, hcase⟩ := LogStream.insert_spec b (.char 10 : Item D)
  refine ⟨b', hinsert, ?_⟩
  rcases hcase with ⟨hneed, hcontent⟩ | ⟨hneed, rfl⟩
  · have htwo : 2 ≤ b.avail := hneed
    refine iff_of_true ?_ fun h => by omega
    rw [hcontent]
    exact getLast?_append_of_ne (List.cons_ne_nil 10 [])
  · have hone : b'.avail < 2 := hneed
    exact ⟨fun h _ => h, fun h => h (by omega)⟩

end Lines

section Records

variable {D : Type} [DoubleText D] {e : Env} {impl : Impl}

/-- The pieces of `finish` before the newline. -/
def Impl.suffix (impl : Impl) : List (Item Empty) :=
  [.cstring (literal " - "), .string impl.basename_.data_, .char 58, .integer .int impl.line_] ++
    impl.func_.toList.flatMap fun func => [.char 58, .cstring (some func)]

theorem Impl.finish_eq (impl : Impl) :
    impl.finish = insertAll impl.stream_ (impl.suffix ++ [.char 10]) := by
  rw [finish, suffix]
  cases impl.func_ with
  | some func => rfl
  | none => rfl

/-- A piece without a newline at its end must not leave one byte. -/
theorem endsLine_iff_ne {n : ℕ} (piece : List UInt8) (hne : piece ≠ [])
    (hlast : piece.getLast? ≠ some 10) :
    (piece.length + 1 ≤ n → EndsLine n piece) ↔ n ≠ piece.length + 1 :=
  ⟨fun h hn => hlast (h hn.ge hne hn), fun h _ _ hn => absurd hn h⟩

/-- Being taken is no restriction. -/
theorem endsLine_iff {n : ℕ} {piece : List UInt8} :
    (piece.length + 1 ≤ n → EndsLine n piece) ↔ EndsLine n piece :=
  ⟨fun h hne hn => h hn.ge hne hn, fun h _ => h⟩

/-- A number leaves more than one byte. -/
theorem endsLine_decimal (n : ℕ) (line : CInt) : 32 ≤ n → EndsLine n (decimal line) := by
  intro hn _ heq
  have hlen : (decimal line).length ≤ 20 := detail.length_decimal_le line.2
  omega

/-- The pieces one by one. -/
theorem Impl.terminates_iff (impl : Impl) :
    impl.Terminates ↔ Open impl.stream_ ∧ EndLines impl.stream_.avail impl.suffix := by
  have hdash : (4 ≤ impl.room → EndsLine impl.room (literal " - ")) ↔ impl.room ≠ 4 :=
    endsLine_iff_ne (literal " - ") (by decide) (by decide)
  have hcolon : ∀ n, (2 ≤ n → EndsLine n [58]) ↔ n ≠ 2 :=
    fun n => endsLine_iff_ne [58] (by decide) (by decide)
  have hline := endsLine_decimal (left impl.roomFile 1 2) impl.line_
  have hfunc : EndLines impl.roomLine
      (impl.func_.toList.flatMap fun func => [(.char 58 : Item Empty), .cstring (some func)]) ↔
      ∀ func ∈ impl.func_, impl.roomLine ≠ 2 ∧ EndsLine (left impl.roomLine 1 2) func := by
    rcases impl.func_ with _ | func
    · exact iff_of_true trivial fun func h => by cases h
    · show (2 ≤ impl.roomLine → EndsLine impl.roomLine [58]) ∧
        (func.length + 1 ≤ left impl.roomLine 1 2 → EndsLine (left impl.roomLine 1 2) func) ∧
        True ↔ _
      rw [hcolon, endsLine_iff, and_true]
      exact ⟨fun h func' hf => Option.some.inj hf ▸ h, fun h => h func rfl⟩
  have hends : EndLines impl.stream_.avail impl.suffix ↔
      (4 ≤ impl.room → EndsLine impl.room (literal " - ")) ∧
      (impl.basename_.data_.length + 1 ≤ impl.roomDash →
        EndsLine impl.roomDash impl.basename_.data_) ∧
      (2 ≤ impl.roomFile → EndsLine impl.roomFile [58]) ∧
      (32 ≤ left impl.roomFile 1 2 → EndsLine (left impl.roomFile 1 2) (decimal impl.line_)) ∧
      EndLines impl.roomLine
        (impl.func_.toList.flatMap fun func => [(.char 58 : Item Empty), .cstring (some func)]) :=
    Iff.rfl
  rw [hends, hdash, endsLine_iff, hcolon, hfunc]
  refine ⟨fun h => ⟨h.message, h.dash, h.file, h.colon, hline, h.func⟩, ?_⟩
  rintro ⟨hm, hd, hf, hc, -, hg⟩
  exact ⟨hm, hd, hf, hc, hg⟩

/-- **The text ends in a newline exactly under the condition**. -/
theorem destroy_ends_iff (impl : Impl) (himpl : 1 ≤ impl.stream_.avail) : ∃ text aborts,
    destroy impl = some (text, aborts) ∧ (text.getLast? = some 10 ↔ impl.Terminates) := by
  obtain ⟨b, hall, hb, hopen⟩ := open_insertAll himpl impl.suffix
  obtain ⟨b', hinsert, hends⟩ := insert_newline (D := Empty) hb
  refine ⟨b'.content, impl.level_ = .FATAL, ?_, ?_⟩
  · rw [destroy, impl.finish_eq, LogStream.insertAll_concat, hall]
    show (insert b (.char 10 : Item Empty) >>= fun buf => some (buf.content, _)) = _
    rw [hinsert]
    rfl
  · rw [hends, hopen, impl.terminates_iff]

/-- A level name passes the assertion of `T`. -/
theorem length_LogLevelName (level : LogLevel) : (LogLevelName level).length = 6 := by
  cases level <;> rfl

/-- What `formatTime` inserts. -/
theorem formatTime_eq (e : Env) (impl : Impl) : ∃ text, text.length = 24 ∧
    impl.formatTime e = insertAll (D := Empty) impl.stream_ [.string (text ++ literal " ")] := by
  have hconvert := fun time => Timestamp.convert_eq e.gmtime time e.length_buffer .microsecond
  unfold Impl.formatTime
  generalize (if e.g_logTimeZone.val ≠ 0 then
    Timestamp.switch_timezone impl.time_ e.g_logTimeZone else impl.time_) = time
  obtain ⟨buffer', -, htext⟩ := hconvert time
  refine ⟨Timestamp.text (e.gmtime.gmtime (Timestamp.to_time_t time)) time .microsecond, ?_, ?_⟩
  · rw [Timestamp.text, List.length_append,
      length_timeText (Timestamp.fourDigits_gmtime e.gmtime time),
      Timestamp.length_fraction (by decide)]
    rfl
  · show (Timestamp.convert e.gmtime e.buffer time .microsecond >>= fun r => insert (D := Empty)
      impl.stream_ (.string (r.1 ++ literal " "))) = _
    rw [htext, insertAll_singleton]
    rfl

/-- What the constructor inserts. -/
def header (e : Env) (text : List UInt8) (level : LogLevel) (savedErrno : CInt) : List (Item Empty) :=
  [.string (text ++ literal " ")] ++ ([.string (tidString e.tid), .char 32,
    .string (LogLevelName level)] ++
  if savedErrno.val ≠ 0 then [.cstring (e.strerror_tl savedErrno), .cstring (literal " (errno="),
    .integer .int savedErrno, .cstring (literal ") ")] else [])

/-- **The constructor** inserts the time, the thread, the level and the error. -/
theorem make_eq (e : Env) (level : LogLevel) (savedErrno : CInt) (file : SourceFile) (line : CInt)
    (func : Option (List UInt8)) : ∃ text : List UInt8, text.length = 24 ∧
      Impl.make e level savedErrno file line func =
        insertAll .make (header e text level savedErrno) >>= fun stream =>
          some ⟨e.now, stream, level, line, file, func⟩ := by
  obtain ⟨text, hlen, htime⟩ := formatTime_eq e ⟨e.now, .make, level, line, file, func⟩
  have htid : T (tidString e.tid) (tidString e.tid).length = some (.string (tidString e.tid)) :=
    if_pos rfl
  have hname : T (LogLevelName level) 6 = some (.string (LogLevelName level)) :=
    if_pos (length_LogLevelName level)
  refine ⟨text, hlen, ?_⟩
  -- what is inserted after the time
  have hrest : ∀ stream : FixedBuffer kSmallBuffer,
      (T (tidString e.tid) (tidString e.tid).length >>= fun tid => T (LogLevelName level) 6 >>=
        fun name => insertAll stream [tid, .char 32, name]) =
        insertAll (D := Empty) stream
          [.string (tidString e.tid), .char 32, .string (LogLevelName level)] := by
    intro stream
    rw [htid, hname]
    rfl
  have herror : ∀ stream : FixedBuffer kSmallBuffer,
      (if savedErrno.val ≠ 0 then
        insertAll (D := Empty) stream [.cstring (e.strerror_tl savedErrno), .cstring (literal " (errno="),
          .integer .int savedErrno, .cstring (literal ") ")]
      else some stream) = insertAll (D := Empty) stream (if savedErrno.val ≠ 0 then
        [.cstring (e.strerror_tl savedErrno), .cstring (literal " (errno="),
          .integer .int savedErrno, .cstring (literal ") ")] else []) := by
    intro stream
    split
    · rfl
    · rfl
  rw [Impl.make, htime, header, insertAll_append, bind_assoc]
  simp only [insertAll_append, bind_assoc, ← herror, ← hrest]
  by_cases hsaved : savedErrno.val ≠ 0
  · simp only [if_pos hsaved]
    rfl
  · simp only [if_neg hsaved]
    rfl

theorem log_of_eq {file : SourceFile} {line : CInt} {call : Call} {message : List (Item D)}
    {stream : FixedBuffer kSmallBuffer} (himpl : construct e file line call = some impl)
    (hstream : insertAll impl.stream_ message = some stream) :
    log e file line call message = some { impl with stream_ := stream } := by
  rw [log, himpl]
  show (insertAll impl.stream_ message >>= fun stream => some { impl with stream_ := stream }) = _
  rw [hstream]
  rfl

/-- Every `Logger` is constructed, with a byte free. -/
theorem log_eq (e : Env) (file : SourceFile) (line : CInt) (call : Call) (message : List (Item D)) :
    ∃ impl, log e file line call message = some impl ∧ 1 ≤ impl.stream_.avail := by
  have hmake : ∀ level savedErrno func, ∃ impl,
      Impl.make e level savedErrno file line func = some impl ∧ 1 ≤ impl.stream_.avail := by
    intro level savedErrno func
    obtain ⟨text, -, hmake⟩ := make_eq e level savedErrno file line func
    obtain ⟨b, hall, hb, -⟩ := open_insertAll (b := (.make : FixedBuffer kSmallBuffer)) (by decide)
      (header e text level savedErrno)
    exact ⟨⟨e.now, b, level, line, file, func⟩, by rw [hmake, hall]; rfl, hb⟩
  have hconstruct : ∃ impl, construct e file line call = some impl ∧ 1 ≤ impl.stream_.avail := by
    cases call with
    | plain => exact hmake _ _ _
    | level level func => exact hmake _ _ _
    | toAbort toAbort => exact hmake _ _ _
  obtain ⟨impl, himpl, havail⟩ := hconstruct
  obtain ⟨b, hall, hb, -⟩ := open_insertAll havail message
  exact ⟨{ impl with stream_ := b }, log_of_eq himpl hall, hb⟩

/-- **Every record**, with the state before `finish` and the text that is passed on. -/
theorem record_terminated_iff (e : Env) (file : SourceFile) (line : CInt) (call : Call)
    (message : List (Item D)) : ∃ impl text aborts, log e file line call message = some impl ∧
      destroy impl = some (text, aborts) ∧ (text.getLast? = some 10 ↔ impl.Terminates) := by
  obtain ⟨impl, hlog, havail⟩ := log_eq e file line call message
  obtain ⟨text, aborts, hdestroy, hiff⟩ := destroy_ends_iff impl havail
  exact ⟨impl, text, aborts, hlog, hdestroy, hiff⟩

/-- A message that leaves one byte free after a header of 37 bytes is not terminated. -/
theorem unterminated_of_length {m : List UInt8} (hm : m.length = 3962) (hlast : m.getLast? ≠ some 10) :
    ∃ (e : Env) (impl : Impl) (text : List UInt8) (aborts : Bool),
      log (D := Empty) e (.ofArray (literal "main.cc")) ⟨1, by decide⟩ .plain [.string m] =
        some impl ∧ destroy impl = some (text, aborts) ∧ text.getLast? ≠ some 10 := by
  obtain ⟨G⟩ := nonempty_gmtime
  let e : Env := ⟨G, List.replicate 32 0, List.length_replicate, 1598877050123456789,
    ⟨0, by decide⟩, ⟨7, by decide⟩, ⟨0, by decide⟩, fun _ => []⟩
  obtain ⟨text, hlen, hmake⟩ := make_eq e .INFO ⟨0, by decide⟩ (.ofArray (literal "main.cc"))
    ⟨1, by decide⟩ none
  have hheader : ((header e text .INFO ⟨0, by decide⟩).map Item.text).flatten.length = 37 := by
    show ((text ++ literal " ") ++ (tidString ⟨7, by decide⟩ ++ ([32] ++ (literal "INFO  " ++
      [])))).length = 37
    rw [List.length_append, List.length_append, hlen]
    decide
  obtain ⟨b, hall, hcontent⟩ := LogStream.insertAll_of_room (b := (.make : FixedBuffer kSmallBuffer))
    (header e text .INFO ⟨0, by decide⟩) (by rw [hheader]; decide)
  have hb : b.avail = 3963 := by
    rw [LogStream.avail_eq, hcontent, FixedBuffer.content_eq_nil rfl, List.nil_append, hheader]
    rfl
  have hneed : (.string m : Item Empty).need ≤ b.avail := by
    rw [hb]
    exact (congrArg Nat.succ hm).le
  obtain ⟨b', hinsert, ⟨-, hmessage⟩ | ⟨hfull, -⟩⟩ := LogStream.insert_spec b (.string m : Item Empty)
  · have hb' : b'.avail = 1 := by
      have havail := LogStream.avail_eq b
      have htext : (.string m : Item Empty).text.length = 3962 := hm
      rw [LogStream.avail_eq, hmessage, List.length_append]
      omega
    let impl : Impl := ⟨e.now, b', .INFO, ⟨1, by decide⟩, .ofArray (literal "main.cc"), none⟩
    obtain ⟨text', aborts, hdestroy, hiff⟩ := destroy_ends_iff impl hb'.ge
    have hconstruct : construct e (.ofArray (literal "main.cc")) ⟨1, by decide⟩ .plain =
        some { impl with stream_ := b } := by
      rw [construct, hmake, hall]
      rfl
    refine ⟨e, impl, text', aborts, log_of_eq hconstruct ?_, hdestroy, fun hten => hlast ?_⟩
    · rw [insertAll_singleton, hinsert]
    · have hfull := (hiff.mp hten).message hb'
      have hne : m ≠ [] := by
        rintro rfl
        cases hm
      rw [hmessage] at hfull
      exact (getLast?_append_of_ne hne).symm.trans hfull
  · exact absurd hneed (by omega)

/-- A message that leaves one byte free. -/
theorem record_unterminated : ∃ (e : Env) (impl : Impl) (text : List UInt8) (aborts : Bool),
    log (D := Empty) e (.ofArray (literal "main.cc")) ⟨1, by decide⟩ .plain
      [.string (List.replicate 3962 120)] = some impl ∧
    destroy impl = some (text, aborts) ∧ text.getLast? ≠ some 10 :=
  unterminated_of_length List.length_replicate (by
    rw [List.getLast?_replicate, if_neg (by decide)]
    decide)

end Records

end Logger

end MengSen

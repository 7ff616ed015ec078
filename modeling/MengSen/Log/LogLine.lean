import MengSen.Lib.Bytes
import MengSen.Lib.Load
import MengSen.Base.TimestampConvert

/-!
# Log.LogLine — encoding and printing a log line

`LogLine` of `example/log/Log.h` and `example/log/Log.cpp`.  The constructor and `operator<<` store
objects and C strings, each behind the index of its type, in the characters of the stack buffer and
later of a heap buffer; `stringify` reads them back.  A store outside the current buffer fails, and a
read outside it, or of a string at a wild address, is a fault.

`tags` and `Return` are ghosts: where a `type_id` has been read, and how `stringify` returned.
-/

namespace MengSen

open detail (literal decimal)

inductive LogLevel
  | DEBUG
  | INFO
  | NOTICE
  | WARN
  | ERROR
  | CRIT
  | ALERT
  | EMERGE
  | FATAL
  deriving DecidableEq

namespace LogLevel

/-- The `uint8_t` of a level, and the level of one. -/
def toUInt8 (loglevel : LogLevel) : UInt8 := .ofNat loglevel.ctorIdx

def ofUInt8 (b : UInt8) : Option LogLevel :=
  [DEBUG, INFO, NOTICE, WARN, ERROR, CRIT, ALERT, EMERGE, FATAL][b.toNat]?

/-- `to_string`. -/
def toString : Option LogLevel → List UInt8
  | some DEBUG => literal "DEBUG"
  | some INFO => literal "INFO"
  | some NOTICE => literal "NOTICE"
  | some WARN => literal "WARN"
  | some ERROR => literal "ERROR"
  | some CRIT => literal "CRIT"
  | some ALERT => literal "ALERT"
  | some EMERGE => literal "EMERGE"
  | some FATAL => literal "FATAL"
  | none => literal "unknow"

end LogLevel

/-- What the machine and the C++ library decide. -/
structure Host where
  order : Bytes.Order
  /-- `new char[n]`, with whatever is in it -/
  newChars : ℕ → List UInt8
  length_newChars : ∀ n, (newChars n).length = n
  /-- the text of the `double` with these bits -/
  double : UInt64 → List UInt8
  /-- the C string at an address, without its NUL -/
  stringAt : UInt64 → Option (List UInt8)

/-- `std::gmtime` and the `static` buffer of `Timestamp::convert`. -/
structure Clock where
  gmtime : Gmtime
  buffer : List UInt8
  length_buffer : buffer.length = 32

/-- The memory from a `const char*` on. -/
structure CString where
  ptr : List UInt8
  terminated : 0 ∈ ptr

def CString.strlen (s : CString) : ℕ := (cstring s.ptr).length

structure LogLine where
  bytesUsed : ℕ
  bufferSize : ℕ
  heapBuffer : Option (List UInt8)
  stackBuffer : List UInt8

namespace LogLine

/-- `sizeof(_stack_buffer)`. -/
def stackSize : ℕ := 256 - 2 * 8 - 8 - 8

/-- `SupportedTypes`. -/
inductive SupportedType
  | char
  | uint32
  | uint64
  | int32
  | int64
  | double
  | stringLiteral
  | charPtr
  deriving DecidableEq

/-- `TupleIndex<T, SupportedTypes>::value`. -/
def tupleIndex (T : SupportedType) : UInt8 := .ofNat T.ctorIdx

/-- `std::tuple_element<num, SupportedTypes>::type` for the cases of the `switch`. -/
def tupleElement (num : UInt8) : Option SupportedType :=
  [.char, .uint32, .uint64, .int32, .int64, .double, .stringLiteral, .charPtr][num.toNat]?

/-- `string_literal_t`, whose address is valid. -/
structure StringLiteral (H : Host) where
  s : UInt64
  text : List UInt8
  stringAt_s : H.stringAt s = some text

/-- What the constructor encodes: its arguments, the time and the thread. -/
structure Header (H : Host) where
  timestamp : UInt64
  threadid : Int32
  file : StringLiteral H
  function : StringLiteral H
  line : UInt32
  loglevel : LogLevel

/-- What `operator<<` takes. -/
inductive Arg
  | char (v : UInt8)
  | uint32 (v : UInt32)
  | uint64 (v : UInt64)
  | int32 (v : Int32)
  | int64 (v : Int64)
  /-- a `double`, by its bits -/
  | double (v : UInt64)
  /-- a `const char*` or `char*`, which may be null -/
  | cstring (v : Option CString)
  | string (v : List UInt8)

/-! ## Encoding -/

section Encode

variable (H : Host) (l : LogLine)

/-- The current buffer. -/
def chars : List UInt8 :=
  match l.heapBuffer with
  | none => l.stackBuffer
  | some heap => heap

/-- A store at `buffer() + offset`. -/
def store (offset : ℕ) (d : List UInt8) : Option LogLine :=
  match l.heapBuffer with
  | none => do
    let stack ← Mem.store? l.stackBuffer (l.bytesUsed + offset) d
    return { l with stackBuffer := stack }
  | some heap => do
    let heap ← Mem.store? heap (l.bytesUsed + offset) d
    return { l with heapBuffer := some heap }

def resizeBufferIfNeeded (additionalBytes : ℕ) : Option LogLine :=
  let requiredSize := l.bytesUsed + additionalBytes
  if requiredSize ≤ l.bufferSize then some l
  else
    let bufferSize := max 512 requiredSize
    match l.heapBuffer with
    | none => do
      let d ← Mem.read? l.stackBuffer 0 l.bytesUsed
      let heap ← Mem.store? (H.newChars bufferSize) 0 d
      return { l with bufferSize := bufferSize, heapBuffer := some heap }
    | some heap => do
      let d ← Mem.read? heap 0 l.bytesUsed
      let newHeap ← Mem.store? (H.newChars bufferSize) 0 d
      return { l with bufferSize := bufferSize, heapBuffer := some newHeap }

/-- `encode<Arg>(arg)` of an object with the bytes `d`. -/
def encode (d : List UInt8) : Option LogLine := do
  let l ← l.store 0 d
  return { l with bytesUsed := l.bytesUsed + d.length }

/-- `encode<Arg>(arg, type_id)`. -/
def encodeTyped (d : List UInt8) (typeId : UInt8) : Option LogLine := do
  let l ← l.resizeBufferIfNeeded H (d.length + 1)
  let l ← l.encode [typeId]
  l.encode d

/-- `encode_c_string`. -/
def encodeCString (arg : List UInt8) (length : ℕ) : Option LogLine :=
  if length = 0 then some l
  else do
    let l ← l.resizeBufferIfNeeded H (1 + length + 1)
    let l ← l.store 0 [tupleIndex .charPtr]
    let d ← Mem.read? arg 0 (length + 1)
    let l ← l.store 1 d
    return { l with bytesUsed := l.bytesUsed + (1 + length + 1) }

/-- `encode(const char*)`. -/
def encodeCharPtr : Option CString → Option LogLine
  | none => some l
  | some arg => l.encodeCString H arg.ptr arg.strlen

/-- `operator<<`. -/
def insert : Arg → Option LogLine
  | .char v => l.encodeTyped H (H.order.store 1 v.toNat) (tupleIndex .char)
  | .uint32 v => l.encodeTyped H (H.order.store 4 v.toNat) (tupleIndex .uint32)
  | .uint64 v => l.encodeTyped H (H.order.store 8 v.toNat) (tupleIndex .uint64)
  | .int32 v => l.encodeTyped H (H.order.store 4 v.toUInt32.toNat) (tupleIndex .int32)
  | .int64 v => l.encodeTyped H (H.order.store 8 v.toUInt64.toNat) (tupleIndex .int64)
  | .double v => l.encodeTyped H (H.order.store 8 v.toNat) (tupleIndex .double)
  | .cstring v => l.encodeCharPtr H v
  | .string v => l.encodeCString H (v ++ [0]) v.length

/-- A sequence of insertions. -/
def insertAll (args : List Arg) : Option LogLine := args.foldlM (insert H) l

/-- The constructor. -/
def make (header : Header H) : Option LogLine := do
  let l : LogLine := ⟨0, stackSize, none, H.newChars stackSize⟩
  let l ← l.encode (H.order.store 8 header.timestamp.toNat)
  let l ← l.encode (H.order.store 4 header.threadid.toUInt32.toNat)
  let l ← l.encode (H.order.store 8 header.file.s.toNat)
  let l ← l.encode (H.order.store 8 header.function.s.toNat)
  let l ← l.encode (H.order.store 4 header.line.toNat)
  l.encode (H.order.store 1 header.loglevel.toUInt8.toNat)

end Encode

/-! ## Printing -/

inductive Fault
  | outOfBounds
  | badPointer
  deriving DecidableEq

/-- How the recursion of `stringify` returned. -/
inductive Return
  /-- at `start == end` -/
  | atEnd
  /-- from the `switch`, which has no case for the type -/
  | unknownType
  deriving DecidableEq

structure Output where
  os : List UInt8
  tags : List ℕ
  deriving DecidableEq

section Stringify

variable (H : Host) (mem : List UInt8)

/-- `os << text`. -/
def write (text : List UInt8) : Load Fault Output PUnit :=
  modify fun s => { s with os := s.os ++ text }

/-- The object of `size` bytes at `b`. -/
def read (b size : ℕ) : Load Fault Output ℕ :=
  match Mem.read? mem b size with
  | some d => pure (H.order.load d)
  | none => throw .outOfBounds

/-- The characters of a `string_literal_t`. -/
def literalAt (s : ℕ) : Load Fault Output (List UInt8) :=
  match H.stringAt (.ofNat s) with
  | some text => pure text
  | none => throw .badPointer

/-- `decode<Arg>`, which returns by how much `b` moves. -/
def decodeObject (b size : ℕ) (text : ℕ → List UInt8) : Load Fault Output ℕ := do
  let arg ← read H mem b size
  write (text arg)
  return size

/-- `decode<LogLine::string_literal_t>`. -/
def decodeLiteral (b : ℕ) : Load Fault Output ℕ := do
  let s ← read H mem b 8
  let text ← literalAt H s
  write text
  return 8

/-- `decode<char*>`, with the characters from `b` on. -/
def decodeCharPtr : List UInt8 → Load Fault Output ℕ
  | [] => throw .outOfBounds
  | c :: rest =>
    if c = 0 then return 1
    else do
      write [c]
      let n ← decodeCharPtr rest
      return n + 1

def decode (b : ℕ) : SupportedType → Load Fault Output ℕ
  | .char => decodeObject H mem b 1 fun n => [.ofNat n]
  | .uint32 => decodeObject H mem b 4 fun n => decimal n
  | .uint64 => decodeObject H mem b 8 fun n => decimal n
  | .int32 => decodeObject H mem b 4 fun n => decimal (UInt32.ofNat n).toInt32.toInt
  | .int64 => decodeObject H mem b 8 fun n => decimal (UInt64.ofNat n).toInt64.toInt
  | .double => decodeObject H mem b 8 fun n => H.double (.ofNat n)
  | .stringLiteral => decodeLiteral H mem b
  | .charPtr => decodeCharPtr (mem.drop b)

/-- `stringify(os, start, end)`.  Every round moves `start`, so that the length of the buffer is enough
fuel. -/
def stringifyFrom (stop : ℕ) : ℕ → ℕ → Load Fault Output Return
  | 0, start => if start = stop then return .atEnd else throw .outOfBounds
  | fuel + 1, start =>
    if start = stop then return .atEnd
    else do
      let typeId ← read H mem start 1
      modify fun s => { s with tags := s.tags ++ [start] }
      match tupleElement (.ofNat typeId) with
      | some T =>
        let n ← decode H mem (start + 1) T
        stringifyFrom stop fuel (start + 1 + n)
      | none => return .unknownType

/-- `format_timestamp`.  The buffer that `convert` leaves is not read here. -/
def formatTimestamp (C : Clock) (timestamp : ℕ) : Load Fault Output PUnit :=
  match Timestamp.convert C.gmtime C.buffer timestamp .microsecond with
  | some (text, _) => write text
  | none => throw .outOfBounds

end Stringify

/-- `stringify(os)`. -/
def stringify (H : Host) (C : Clock) (l : LogLine) : Load Fault Output Return := do
  let timestamp ← read H l.chars 0 8
  let threadid ← read H l.chars 8 4
  let file ← read H l.chars 12 8
  let function ← read H l.chars 20 8
  let line ← read H l.chars 28 4
  let loglevel ← read H l.chars 32 1
  formatTimestamp C timestamp
  write (literal " " ++ decimal (UInt32.ofNat threadid).toInt32.toInt ++ literal " " ++
    LogLevel.toString (LogLevel.ofUInt8 (.ofNat loglevel)) ++ literal " ")
  let returned ← stringifyFrom H l.chars l.bytesUsed l.chars.length 33
  let fileText ← literalAt H file
  let functionText ← literalAt H function
  write (literal " - " ++ fileText ++ literal " " ++ functionText ++ literal ": " ++ decimal line ++
    [10])
  return returned

end LogLine

end MengSen

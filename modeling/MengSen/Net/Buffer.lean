import MengSen.Lib.Machine
import MengSen.Lib.Mem
import MengSen.Lib.Word

/-!
# Net.Buffer — the network buffer

`net/Buffer.h`: one vector of bytes with two indices,
`(prepend zone) --- readerIndex --- (read zone) --- writerIndex --- (write zone)`.

Sizes and indices are `size_t`, so the arithmetic wraps at `2 ^ 64`.  A method fails with the
state it leaves behind: an assert that does not hold, a `length_error` of the vector, or an access
outside the vector.  Pointers into the vector are positions in it.
-/

namespace MengSen.Net

open Machine (check)

/-- Why a buffer method stops. -/
inductive Buffer.Fault
  | assertion
  | lengthError
  | outOfBounds
  deriving DecidableEq

/-- A buffer: the vector and the two indices into it. -/
structure Buffer where
  buffer : List UInt8
  readerIndex : ℕ
  writerIndex : ℕ
  deriving DecidableEq

/-- A stopped method and the buffer it leaves behind. -/
structure Buffer.Failure where
  fault : Buffer.Fault
  state : Buffer
  deriving DecidableEq

namespace Buffer

def kCheapPrepend : ℕ := 8

def kInitialSize : ℕ := 1024

/-- `max_size()` of a vector of bytes. -/
def maxSize : ℕ := 2 ^ 63 - 1

def readableBytes (b : Buffer) : ℕ := Word.sub 64 b.writerIndex b.readerIndex

def writableBytes (b : Buffer) : ℕ := Word.sub 64 b.buffer.length b.writerIndex

def prependableBytes (b : Buffer) : ℕ := b.readerIndex

/-! ## Access to the vector -/

/-- `buffer_.resize(n)`: new cells are zero. -/
def resize (b : Buffer) (n : ℕ) : Except Failure Buffer :=
  if maxSize < n then .error ⟨.lengthError, b⟩
  else .ok { b with buffer := (b.buffer ++ List.replicate (n - b.buffer.length) 0).take n }

/-- Copy of `data` to position `p` of the vector. -/
def storeAt (b : Buffer) (p : ℕ) (data : List UInt8) : Except Failure Buffer :=
  match Mem.store? b.buffer p data with
  | some m => .ok { b with buffer := m }
  | none => .error ⟨.outOfBounds, b⟩

/-- Copy of the `len` bytes at position `p` out of the vector. -/
def loadAt (b : Buffer) (p len : ℕ) : Except Failure (List UInt8) :=
  match Mem.read? b.buffer p len with
  | some d => .ok d
  | none => .error ⟨.outOfBounds, b⟩

/-! ## Construction -/

/-- The constructor. -/
def make (initialSize : ℕ) : Except Fault Buffer := do
  let n := Word.add 64 initialSize kCheapPrepend
  check (n ≤ maxSize) .lengthError
  let b : Buffer := ⟨List.replicate n 0, kCheapPrepend, kCheapPrepend⟩
  check (b.readableBytes = 0) .assertion
  check (b.writableBytes = initialSize) .assertion
  check (b.prependableBytes = kCheapPrepend) .assertion
  return b

/-- `a.swap(b)`: the new values of `a` and `b`. -/
def swap (a b : Buffer) : Buffer × Buffer :=
  (⟨b.buffer, b.readerIndex, b.writerIndex⟩, ⟨a.buffer, a.readerIndex, a.writerIndex⟩)

/-! ## Reading -/

def retrieveAll (b : Buffer) : Buffer :=
  { b with readerIndex := kCheapPrepend, writerIndex := kCheapPrepend }

def retrieve (b : Buffer) (len : ℕ) : Except Failure Buffer := do
  check (len ≤ b.readableBytes) ⟨.assertion, b⟩
  if len < b.readableBytes then
    return { b with readerIndex := Word.add 64 b.readerIndex len }
  else
    return b.retrieveAll

/-- `end_` is the position of the pointer `end` in the vector. -/
def retrieveUntil (b : Buffer) (end_ : ℕ) : Except Failure Buffer := do
  check (b.readerIndex ≤ end_) ⟨.assertion, b⟩
  check (end_ ≤ b.writerIndex) ⟨.assertion, b⟩
  b.retrieve (Word.sub 64 end_ b.readerIndex)

def retrieveAsString (b : Buffer) (len : ℕ) : Except Failure (Buffer × List UInt8) := do
  check (len ≤ b.readableBytes) ⟨.assertion, b⟩
  let result ← b.loadAt b.readerIndex len
  let b ← b.retrieve len
  return (b, result)

/-! ## Writing -/

/-- Room for `len` bytes: the vector grows, or the readable bytes slide down to the cheap zone. -/
def makeSpace (b : Buffer) (len : ℕ) : Except Failure Buffer :=
  if Word.add 64 b.writableBytes b.prependableBytes < Word.add 64 len kCheapPrepend then
    b.resize (Word.add 64 b.writerIndex len)
  else do
    check (kCheapPrepend < b.readerIndex) ⟨.assertion, b⟩
    let readable := b.readableBytes
    -- `std::copy` runs from the left, so the ranges may overlap
    check (b.readerIndex ≤ b.writerIndex ∧ b.writerIndex ≤ b.buffer.length) ⟨.outOfBounds, b⟩
    let tidy : Buffer :=
      { buffer := Mem.copyForward b.buffer b.readerIndex kCheapPrepend
          (b.writerIndex - b.readerIndex)
        readerIndex := kCheapPrepend
        writerIndex := Word.add 64 kCheapPrepend readable }
    check (readable = tidy.readableBytes) ⟨.assertion, tidy⟩
    return tidy

def ensureWritableBytes (b : Buffer) (len : ℕ) : Except Failure Buffer := do
  let b' ← if b.writableBytes < len then b.makeSpace len else pure b
  check (len ≤ b'.writableBytes) ⟨.assertion, b'⟩
  return b'

def hasWritten (b : Buffer) (len : ℕ) : Except Failure Buffer := do
  check (len ≤ b.writableBytes) ⟨.assertion, b⟩
  return { b with writerIndex := Word.add 64 b.writerIndex len }

def append (b : Buffer) (data : List UInt8) : Except Failure Buffer := do
  let b ← b.ensureWritableBytes data.length
  let b ← b.storeAt b.writerIndex data
  b.hasWritten data.length

def unwrite (b : Buffer) (len : ℕ) : Except Failure Buffer := do
  check (len ≤ b.readableBytes) ⟨.assertion, b⟩
  return { b with writerIndex := Word.sub 64 b.writerIndex len }

def prepend (b : Buffer) (data : List UInt8) : Except Failure Buffer := do
  check (data.length ≤ b.prependableBytes) ⟨.assertion, b⟩
  let b := { b with readerIndex := Word.sub 64 b.readerIndex data.length }
  b.storeAt b.readerIndex data

/-- The length of `toStringPiece()`, an `int`, as the `size_t` that `append` receives. -/
def pieceLength (b : Buffer) : ℕ := Word.ofSigned 64 (Word.toSigned 32 b.readableBytes)

/-- A failure of the local buffer `other` leaves `b` as it was. -/
def shrink (b : Buffer) (reserve : ℕ) : Except Failure Buffer := do
  let other ← (make kInitialSize).mapError (⟨·, b⟩)
  let other ← (other.ensureWritableBytes (Word.add 64 b.readableBytes reserve)).mapError
    (⟨·.fault, b⟩)
  let data ← b.loadAt b.readerIndex b.pieceLength
  let other ← (other.append data).mapError (⟨·.fault, b⟩)
  return (b.swap other).1

/-! ## Invariant and content -/

/-- The index invariant. -/
structure Valid (b : Buffer) : Prop where
  reader_le : b.readerIndex ≤ b.writerIndex
  writer_le : b.writerIndex ≤ b.buffer.length
  cheap_le : kCheapPrepend ≤ b.buffer.length

/-- The readable bytes. -/
def content (b : Buffer) : List UInt8 :=
  Mem.slice b.buffer b.readerIndex (b.writerIndex - b.readerIndex)

section Sizes

variable {b : Buffer} (h : b.Valid) (hs : b.buffer.length < 2 ^ 63)
include h hs

theorem Valid.readableBytes_eq : b.readableBytes = b.writerIndex - b.readerIndex :=
  Word.sub_of_le h.reader_le (lt_of_le_of_lt h.writer_le (by omega))

theorem Valid.writableBytes_eq : b.writableBytes = b.buffer.length - b.writerIndex :=
  Word.sub_of_le h.writer_le (by omega)

theorem Valid.length_content : b.content.length = b.readableBytes := by
  rw [h.readableBytes_eq hs, content, Mem.length_slice]
  have := h.reader_le
  have := h.writer_le
  omega

end Sizes

end Buffer

end MengSen.Net

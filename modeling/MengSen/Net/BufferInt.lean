import MengSen.Lib.Bytes
import MengSen.Net.BufferSpec

/-!
# Net.BufferInt — integers in a buffer

The `appendInt`, `peekInt`, `readInt` and `perpendInt` methods of `net/Buffer.h` with the
conversions of `net/Endian.h`.  Signed values are integers; they pass through the unsigned
conversions and through the memory of the host, whose byte order is a parameter.  The methods of
one kind differ in the width, except those of one byte, which convert nothing.

`IntType.encode` is the big-endian two's complement of a value: every `append` appends it, and every
`read` takes it back.
-/

namespace MengSen.Net

/-! ## `net/Endian.h` -/

namespace sockets

open Bytes (Order)

def hostToNetwork64 (o : Order) (host64 : ℕ) : ℕ := o.htobe 8 host64
def hostToNetwork32 (o : Order) (host32 : ℕ) : ℕ := o.htobe 4 host32
def hostToNetwork16 (o : Order) (host16 : ℕ) : ℕ := o.htobe 2 host16
def networkToHost64 (o : Order) (net64 : ℕ) : ℕ := o.betoh 8 net64
def networkToHost32 (o : Order) (net32 : ℕ) : ℕ := o.betoh 4 net32
def networkToHost16 (o : Order) (net16 : ℕ) : ℕ := o.betoh 2 net16

end sockets

namespace Buffer

open Machine (check)
open Bytes (Order)

variable (o : Order) (b : Buffer)

/-! ## The methods -/

/-- The bytes in memory of a signed object of `k` bytes. -/
def objectBytes (k : ℕ) (x : ℤ) : List UInt8 := o.store k (Word.ofSigned (8 * k) x)

/-- The signed object of `k` bytes with these bytes in memory. -/
def objectOf (k : ℕ) (bytes : List UInt8) : ℤ := Word.toSigned (8 * k) (o.load bytes)

/-- `x` as the conversion `f` of unsigned objects of `k` bytes leaves it in a signed one. -/
def convert (k : ℕ) (f : ℕ → ℕ) (x : ℤ) : ℤ := Word.toSigned (8 * k) (f (Word.ofSigned (8 * k) x))

/-- The `k` bytes at `peek()`, copied to a signed object. -/
def peekObject (k : ℕ) : Except Failure ℤ := do
  check (k ≤ b.readableBytes) ⟨.assertion, b⟩
  let bytes ← b.loadAt b.readerIndex k
  return objectOf o k bytes

def appendInt64 (x : ℤ) : Except Failure Buffer :=
  b.append (objectBytes o 8 (convert 8 (sockets.hostToNetwork64 o) x))

def appendInt32 (x : ℤ) : Except Failure Buffer :=
  b.append (objectBytes o 4 (convert 4 (sockets.hostToNetwork32 o) x))

def appendInt16 (x : ℤ) : Except Failure Buffer :=
  b.append (objectBytes o 2 (convert 2 (sockets.hostToNetwork16 o) x))

def appendInt8 (x : ℤ) : Except Failure Buffer := b.append (objectBytes o 1 x)

def peekInt64 : Except Failure ℤ := do
  let be64 ← b.peekObject o 8
  return convert 8 (sockets.networkToHost64 o) be64

def peekInt32 : Except Failure ℤ := do
  let be32 ← b.peekObject o 4
  return convert 4 (sockets.networkToHost32 o) be32

def peekInt16 : Except Failure ℤ := do
  let be16 ← b.peekObject o 2
  return convert 2 (sockets.networkToHost16 o) be16

def peekInt8 : Except Failure ℤ := b.peekObject o 1

def retrieveInt64 : Except Failure Buffer := b.retrieve 8
def retrieveInt32 : Except Failure Buffer := b.retrieve 4
def retrieveInt16 : Except Failure Buffer := b.retrieve 2
def retrieveInt8 : Except Failure Buffer := b.retrieve 1

def readInt64 : Except Failure (Buffer × ℤ) := do
  let result ← b.peekInt64 o
  let b ← b.retrieveInt64
  return (b, result)

def readInt32 : Except Failure (Buffer × ℤ) := do
  let result ← b.peekInt32 o
  let b ← b.retrieveInt32
  return (b, result)

def readInt16 : Except Failure (Buffer × ℤ) := do
  let result ← b.peekInt16 o
  let b ← b.retrieveInt16
  return (b, result)

def readInt8 : Except Failure (Buffer × ℤ) := do
  let result ← b.peekInt8 o
  let b ← b.retrieveInt8
  return (b, result)

def perpendInt64 (x : ℤ) : Except Failure Buffer :=
  b.prepend (objectBytes o 8 (convert 8 (sockets.hostToNetwork64 o) x))

def perpendInt32 (x : ℤ) : Except Failure Buffer :=
  b.prepend (objectBytes o 4 (convert 4 (sockets.hostToNetwork32 o) x))

def perpendInt16 (x : ℤ) : Except Failure Buffer :=
  b.prepend (objectBytes o 2 (convert 2 (sockets.hostToNetwork16 o) x))

def perpendInt8 (x : ℤ) : Except Failure Buffer := b.prepend (objectBytes o 1 x)

/-! ## The types -/

inductive IntType
  | int64
  | int32
  | int16
  | int8
  deriving DecidableEq

namespace IntType

/-- `sizeof` of the type. -/
def size : IntType → ℕ
  | int64 => 8
  | int32 => 4
  | int16 => 2
  | int8 => 1

/-- The values of the type. -/
def InRange (t : IntType) (x : ℤ) : Prop := -2 ^ (8 * t.size) ≤ 2 * x ∧ 2 * x < 2 ^ (8 * t.size)

instance (t : IntType) (x : ℤ) : Decidable (t.InRange x) := inferInstanceAs (Decidable (_ ∧ _))

/-- The big-endian two's complement. -/
def encode (t : IntType) (x : ℤ) : List UInt8 :=
  (Bytes.encode t.size (Word.ofSigned (8 * t.size) x)).reverse

def decode (t : IntType) (bytes : List UInt8) : ℤ :=
  Word.toSigned (8 * t.size) (Bytes.decode bytes.reverse)

variable (t : IntType) {x : ℤ}

@[simp] theorem length_encode : (t.encode x).length = t.size := by
  rw [encode, List.length_reverse, Bytes.length_encode]

theorem size_pos : 0 < t.size := by cases t <;> decide

theorem size_le : t.size ≤ 8 := by cases t <;> decide

theorem pow_size : 256 ^ t.size = 2 ^ (8 * t.size) := by rw [pow_mul]; rfl

theorem decode_encode (hx : t.InRange x) : t.decode (t.encode x) = x := by
  have hlt : Word.ofSigned (8 * t.size) x < 256 ^ t.size := by
    rw [pow_size]
    exact Word.ofSigned_lt x
  rw [decode, encode, List.reverse_reverse, Bytes.decode_encode, Nat.mod_eq_of_lt hlt,
    Word.toSigned_ofSigned hx.1 hx.2]

end IntType

/-! `appendInt`, `readInt`, `perpendInt` of a type. -/

def appendInt (x : ℤ) : IntType → Except Failure Buffer
  | .int64 => b.appendInt64 o x
  | .int32 => b.appendInt32 o x
  | .int16 => b.appendInt16 o x
  | .int8 => b.appendInt8 o x

def readInt : IntType → Except Failure (Buffer × ℤ)
  | .int64 => b.readInt64 o
  | .int32 => b.readInt32 o
  | .int16 => b.readInt16 o
  | .int8 => b.readInt8 o

def perpendInt (x : ℤ) : IntType → Except Failure Buffer
  | .int64 => b.perpendInt64 o x
  | .int32 => b.perpendInt32 o x
  | .int16 => b.perpendInt16 o x
  | .int8 => b.perpendInt8 o x

end Buffer

end MengSen.Net

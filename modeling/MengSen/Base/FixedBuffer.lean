import MengSen.Lib.Mem

/-!
# Base.FixedBuffer — the fixed-size log buffer

`detail::FixedBuffer<SIZE>` of `base/LogStream.h`: an array of `SIZE` bytes and the write position
`cur_` in it.  `append` drops a piece that does not leave one byte free.
-/

namespace MengSen

def kLargeBuffer : ℕ := 4000 * 1000

/-- `SIZE` bytes of which the first `cur` are in use. -/
structure FixedBuffer (SIZE : ℕ) where
  data : List UInt8
  cur : ℕ
  length_data : data.length = SIZE
  cur_le : cur ≤ SIZE

namespace FixedBuffer

variable {SIZE : ℕ}

/-- The constructor; the bytes of a new buffer are never read before they are written. -/
def make : FixedBuffer SIZE := ⟨List.replicate SIZE 0, 0, List.length_replicate, Nat.zero_le _⟩

def length (b : FixedBuffer SIZE) : ℕ := b.cur

def avail (b : FixedBuffer SIZE) : ℕ := SIZE - b.cur

def append (b : FixedBuffer SIZE) (buf : List UInt8) : FixedBuffer SIZE :=
  if h : buf.length < b.avail then
    have hfit : b.cur + buf.length ≤ SIZE := by unfold avail at h; omega
    { data := Mem.store b.data b.cur buf
      cur := b.cur + buf.length
      length_data := by rw [Mem.length_store (by rw [b.length_data]; exact hfit), b.length_data]
      cur_le := hfit }
  else b

def reset (b : FixedBuffer SIZE) : FixedBuffer SIZE := { b with cur := 0, cur_le := Nat.zero_le _ }

/-- The bytes in use. -/
def content (b : FixedBuffer SIZE) : List UInt8 := Mem.slice b.data 0 b.cur

theorem length_content (b : FixedBuffer SIZE) : b.content.length = b.length := by
  refine Mem.length_slice ?_
  have := b.cur_le
  rw [b.length_data]
  omega

theorem content_eq_nil {b : FixedBuffer SIZE} (h : b.length = 0) : b.content = [] :=
  List.eq_nil_of_length_eq_zero (b.length_content.trans h)

/-- A piece that fits is appended as a whole. -/
theorem content_append {b : FixedBuffer SIZE} {buf : List UInt8} (h : buf.length < b.avail) :
    (b.append buf).content = b.content ++ buf := by
  have hfit : b.cur + buf.length ≤ b.data.length := by
    have := b.length_data
    unfold avail at h
    omega
  simp only [append, dif_pos h, content]
  rw [← Mem.slice_append_slice, Nat.zero_add, Mem.slice_store_self hfit,
    Mem.slice_store_before hfit (by omega)]

/-- An empty buffer takes every piece shorter than its size. -/
theorem content_append_of_empty {b : FixedBuffer SIZE} (hb : b.length = 0) {buf : List UInt8}
    (h : buf.length < SIZE) : (b.append buf).content = buf := by
  have havail : buf.length < b.avail := by
    have hcur : b.cur = 0 := hb
    unfold avail
    omega
  rw [content_append havail, content_eq_nil hb, List.nil_append]

end FixedBuffer

end MengSen

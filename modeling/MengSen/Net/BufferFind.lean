import MengSen.Lib.Find
import MengSen.Net.BufferLimits

/-!
# Net.BufferFind — the delimiters

`findCRLF` and `findEOL` of `net/Buffer.h`, each without an argument and from a start; pointers are
positions in the vector, `nullptr` is `none`.  Two of the four end without a return statement, so
that their value is undefined: `noReturn`.
-/

namespace MengSen.Net.Buffer

open Find (First)
open Machine (check check_bind ok_bind pure_eq_ok)

variable {b : Buffer} {start p : ℕ}

inductive FindFault
  | assertion
  | outOfBounds
  | noReturn
  deriving DecidableEq

def kCRLF : List UInt8 := [13, 10]

/-- The `n` bytes from `p`. -/
def bytesAt (b : Buffer) (p n : ℕ) : Except FindFault (List UInt8) :=
  match Mem.read? b.buffer p n with
  | some d => .ok d
  | none => .error .outOfBounds

/-- `std::search(first, last, kCRLF, kCRLF + 2)`: `last` when there is no occurrence. -/
def searchCRLF (b : Buffer) (first last : ℕ) : Except FindFault ℕ := do
  let bytes ← b.bytesAt first (last - first)
  return first + (Find.search kCRLF bytes).getD bytes.length

/-- `memchr(s, '\n', n)` -/
def memchrLF (b : Buffer) (s n : ℕ) : Except FindFault (Option ℕ) := do
  let bytes ← b.bytesAt s n
  return (bytes.findIdx? (· = 10)).map (s + ·)

/-- `findCRLF()` -/
def findCRLF (b : Buffer) : Except FindFault (Option ℕ) := do
  let crlf ← b.searchCRLF b.readerIndex b.writerIndex
  -- the value of the conditional is dropped
  let _ : Option ℕ := if crlf = b.writerIndex then none else some crlf
  throw .noReturn

/-- `findCRLF(start)` -/
def findCRLFFrom (b : Buffer) (start : ℕ) : Except FindFault (Option ℕ) := do
  check (b.readerIndex ≤ start) .assertion
  check (start ≤ b.writerIndex) .assertion
  let crlf ← b.searchCRLF start b.writerIndex
  return if crlf = b.writerIndex then none else some crlf

/-- `findEOL()` -/
def findEOL (b : Buffer) : Except FindFault (Option ℕ) := do
  let eol ← b.memchrLF b.readerIndex b.readableBytes
  return eol

/-- `findEOL(start)` -/
def findEOLFrom (b : Buffer) (start : ℕ) : Except FindFault (Option ℕ) := do
  check (b.readerIndex ≤ start) .assertion
  check (start ≤ b.writerIndex) .assertion
  let _ ← b.memchrLF start (b.writerIndex - start)
  throw .noReturn

/-! ## What is looked for -/

/-- CR LF at `p`, both before `beginWrite()`. -/
def CRLFAt (b : Buffer) (p : ℕ) : Prop :=
  p + 1 < b.writerIndex ∧ b.buffer[p]? = some 13 ∧ b.buffer[p + 1]? = some 10

/-- LF at `p`, before `beginWrite()`. -/
def LFAt (b : Buffer) (p : ℕ) : Prop := p < b.writerIndex ∧ b.buffer[p]? = some 10

/-- The four searches agree with the first occurrences. -/
structure FindExact (b : Buffer) (start : ℕ) : Prop where
  crlfFrom : ∃ r, b.findCRLFFrom start = .ok r ∧ First (CRLFAt b) start r
  crlf : ∃ r, b.findCRLF = .ok r ∧ b.findCRLFFrom b.readerIndex = .ok r
  eolFrom : ∃ r, b.findEOLFrom start = .ok r ∧ First (LFAt b) start r
  eol : ∃ r, b.findEOL = .ok r ∧ b.findEOLFrom b.readerIndex = .ok r

/-! ## What is found -/

/-- The bytes from `start` to `beginWrite()`. -/
theorem bytesAt_eq (h : b.Valid) (hw : start ≤ b.writerIndex) :
    b.bytesAt start (b.writerIndex - start) =
      .ok (Mem.slice b.buffer start (b.writerIndex - start)) := by
  have hwl := h.writer_le
  have hroom : start + (b.writerIndex - start) ≤ b.buffer.length := by omega
  simp only [bytesAt, Mem.read?, if_pos hroom]

/-- Two bytes in front. -/
theorem prefix_pair {x y : UInt8} (l : List UInt8) :
    [x, y] <+: l ↔ l[0]? = some x ∧ l[1]? = some y := by
  cases l with
  | nil => simp
  | cons a l =>
    cases l with
    | nil => simp
    | cons c l => simp [List.cons_prefix_cons, eq_comm]

theorem first_crlf (b : Buffer) (start : ℕ) :
    First (CRLFAt b) start
      ((Find.search kCRLF (Mem.slice b.buffer start (b.writerIndex - start))).map (start + ·)) := by
  refine First.shift ((Find.first_search (by decide) _).congr fun i _ => ?_)
  rw [kCRLF, prefix_pair, Mem.drop_slice, Mem.getElem?_slice, Mem.getElem?_slice, CRLFAt]
  by_cases h : start + i + 1 < b.writerIndex
  · rw [if_pos (by omega), if_pos (by omega), and_iff_right h]
    rfl
  · refine iff_of_false ?_ fun hc => h hc.1
    rintro ⟨-, h1⟩
    rw [if_neg (by omega)] at h1
    cases h1

theorem first_lf (b : Buffer) (start : ℕ) :
    First (LFAt b) start
      (((Mem.slice b.buffer start (b.writerIndex - start)).findIdx? (· = 10)).map (start + ·)) := by
  refine First.shift ((Find.first_findIdx? _ _).congr fun i _ => ?_)
  rw [Mem.getElem?_slice, LFAt]
  by_cases h : start + i < b.writerIndex
  · rw [if_pos (by omega), and_iff_right h]
    simp
  · rw [if_neg (by omega)]
    simp [h]

/-- **`findCRLF(start)`** is exact. -/
theorem findCRLFFrom_exact (h : b.Valid) (hr : b.readerIndex ≤ start) (hw : start ≤ b.writerIndex) :
    ∃ r, b.findCRLFFrom start = .ok r ∧ First (CRLFAt b) start r := by
  refine ⟨_, ?_, first_crlf b start⟩
  have hlen : (Mem.slice b.buffer start (b.writerIndex - start)).length = b.writerIndex - start := by
    have hwl := h.writer_le
    exact Mem.length_slice (by omega)
  simp only [findCRLFFrom, check_bind _ hr, check_bind _ hw, searchCRLF, bytesAt_eq h hw, ok_bind,
    pure_eq_ok, hlen, Except.ok.injEq]
  cases hs : Find.search kCRLF (Mem.slice b.buffer start (b.writerIndex - start)) with
  | none =>
    rw [Option.getD_none, if_pos (by omega)]
    rfl
  | some i =>
    have hi := Find.search_lt (by decide) hs
    rw [Option.getD_some, if_neg (by omega)]
    rfl

/-- **`findEOL()`** is exact. -/
theorem findEOL_exact (h : b.Sound) :
    ∃ r, b.findEOL = .ok r ∧ First (LFAt b) b.readerIndex r := by
  refine ⟨_, ?_, first_lf b b.readerIndex⟩
  simp only [findEOL, memchrLF, h.toValid.readableBytes_eq h.lt, bytesAt_eq h.toValid h.reader_le,
    ok_bind, pure_eq_ok]

/-- The other two reach their end. -/
theorem findCRLF_noReturn (h : b.Valid) : b.findCRLF = .error .noReturn := by
  simp only [findCRLF, searchCRLF, bytesAt_eq h h.reader_le, ok_bind, pure_eq_ok]
  rfl

theorem findEOLFrom_noReturn (h : b.Valid) (hr : b.readerIndex ≤ start)
    (hw : start ≤ b.writerIndex) : b.findEOLFrom start = .error .noReturn := by
  simp only [findEOLFrom, check_bind _ hr, check_bind _ hw, memchrLF, bytesAt_eq h hw, ok_bind,
    pure_eq_ok]
  rfl

/-- **The searches never agree**: in every state that buffers reach and for every start in the
readable bytes, `findCRLF(start)` and `findEOL()` give the first occurrence, but `findCRLF()` and
`findEOL(start)` return nothing defined. -/
theorem find_never_exact {ι : Type} [DecidableEq ι] {w : World ι} (h : (uses ι).Reach Fits w) (i : ι)
    (hr : (w.buffers i).readerIndex ≤ start) (hw : start ≤ (w.buffers i).writerIndex) :
    ¬ FindExact (w.buffers i) start ∧
    (∃ r, (w.buffers i).findCRLFFrom start = .ok r ∧ First (CRLFAt (w.buffers i)) start r) ∧
    (∃ r, (w.buffers i).findEOL = .ok r ∧
      First (LFAt (w.buffers i)) (w.buffers i).readerIndex r) ∧
    (w.buffers i).findCRLF = .error .noReturn ∧
    (w.buffers i).findEOLFrom start = .error .noReturn := by
  have hs := reach_sound h i
  have hcrlf := findCRLF_noReturn hs.toValid
  refine ⟨fun hexact => ?_, findCRLFFrom_exact hs.toValid hr hw, findEOL_exact hs, hcrlf,
    findEOLFrom_noReturn hs.toValid hr hw⟩
  obtain ⟨r, hr', -⟩ := hexact.crlf
  rw [hcrlf] at hr'
  cases hr'

theorem find_never_exact_threeBytes : ¬ FindExact (threeBytes.buffers ()) 9 :=
  (find_never_exact uses_threeBytes () (by decide) (by decide)).1

/-- Three bytes without CR LF: `findCRLF(peek())` is null, `findCRLF()` is not. -/
theorem findCRLF_undefined : ∃ w : World Unit, (uses Unit).Reach Fits w ∧
    (w.buffers ()).findCRLFFrom (w.buffers ()).readerIndex = .ok none ∧
    ¬ FindExact (w.buffers ()) (w.buffers ()).readerIndex := by
  refine ⟨threeBytes, uses_threeBytes, rfl, fun hexact => ?_⟩
  obtain ⟨r, hr, -⟩ := hexact.crlf
  cases hr

end MengSen.Net.Buffer

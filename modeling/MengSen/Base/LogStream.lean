import MengSen.Base.FixedBuffer
import MengSen.Base.LogConvert
import MengSen.Base.StringPiece
import Mathlib.Data.List.Induction

/-!
# Base.LogStream — insertions into a log buffer

`LogStream` and `Fmt` of `base/LogStream.h` and `base/LogStream.cpp`, over a buffer of any size.  A
string is appended when it leaves one byte free; a number is written through `current()` when 32 bytes
are available.  A store outside `data_`, or a `cur_` beyond its end, fails.

`Selection` says what a buffer of a size takes of a sequence of items, each whole or not at all; the
buffer of the code follows it (`insertAll_selection`).
-/

namespace MengSen

open detail

def kSmallBuffer : ℕ := 4000

/-- The text of a `double` under `"%.12g"`. -/
class DoubleText (D : Type) where
  render : D → List UInt8
  length_le : ∀ d, (render d).length ≤ 24

/-- `snprintf(mem + p, n, ...)` of a format that renders as `text`, with its result. -/
def snprintf (mem : List UInt8) (p n : ℕ) (text : List UInt8) : Option (List UInt8 × ℕ) :=
  (Mem.store? mem p (text.take (n - 1) ++ [0])).map fun mem => (mem, text.length)

structure Fmt where
  buf_ : List UInt8
  length_ : ℕ
  length_buf : buf_.length = 32
  /-- the assertion of the constructor -/
  length_lt : length_ < 32

/-- The constructor of a format that renders as `text`, `none` when the assertion fails. -/
def Fmt.make (text : List UInt8) : Option Fmt := do
  let (buf, len) ← snprintf (List.replicate 32 0) 0 32 text
  if h : buf.length = 32 ∧ len < 32 then some ⟨buf, len, h.1, h.2⟩ else none

namespace FixedBuffer

variable {SIZE : ℕ}

/-- The buffer after stores through `current()` and `add(len)`. -/
def add (b : FixedBuffer SIZE) (r : List UInt8 × ℕ) : Option (FixedBuffer SIZE) :=
  if h : r.1.length = SIZE ∧ b.cur + r.2 ≤ SIZE then some ⟨r.1, b.cur + r.2, h.1, h.2⟩ else none

/-- `toStringPiece`. -/
def toStringPiece (b : FixedBuffer SIZE) : StringPiece :=
  ⟨b.data, b.cur, b.cur_le.trans_eq b.length_data.symm⟩

end FixedBuffer

namespace LogStream

def kMaxNumericSize : ℕ := 32

/-- What `operator<<` takes. -/
inductive Item (D : Type)
  | bool (v : Bool)
  | integer (T : IntType) (v : {v : ℤ // T.Holds v})
  | pointer (p : UInt64)
  | double (v : D)
  | char (v : UInt8)
  /-- a `const char*`, which may be null -/
  | cstring (str : Option (List UInt8))
  | string (v : List UInt8)
  | piece (v : StringPiece)
  | buffer {N : ℕ} (v : FixedBuffer N)
  | fmt (v : Fmt)

variable {D : Type} [DoubleText D] {SIZE : ℕ}

def formatInteger (b : FixedBuffer SIZE) (v : ℤ) : Option (FixedBuffer SIZE) :=
  if b.avail ≥ kMaxNumericSize then convert b.data b.cur v >>= b.add else some b

/-- `operator<<(const void* p)`. -/
def formatPointer (b : FixedBuffer SIZE) (v : ℕ) : Option (FixedBuffer SIZE) :=
  if b.avail ≥ kMaxNumericSize then do
    let data ← Mem.store? b.data b.cur (literal "0")
    let data ← Mem.store? data (b.cur + 1) (literal "x")
    let (data, len) ← convertHex data (b.cur + 2) v
    b.add (data, len + 2)
  else some b

/-- `operator<<(double v)`. -/
def formatDouble (b : FixedBuffer SIZE) (v : D) : Option (FixedBuffer SIZE) :=
  if b.avail ≥ kMaxNumericSize then
    snprintf b.data b.cur kMaxNumericSize (DoubleText.render v) >>= b.add
  else some b

/-- `operator<<`. -/
def insert (b : FixedBuffer SIZE) : Item D → Option (FixedBuffer SIZE)
  | .bool v => some (b.append (literal (if v then "1" else "0")))
  | .integer _ v => formatInteger b v
  | .pointer p => formatPointer b p.toNat
  | .double v => formatDouble b v
  | .char v => some (b.append [v])
  | .cstring (some str) => some (b.append str)
  | .cstring none => some (b.append (literal "(null)"))
  | .string v => some (b.append v)
  | .piece v => some (b.append v.bytes)
  | .buffer v => some (b.append v.toStringPiece.bytes)
  | .fmt v => some (b.append (v.buf_.take v.length_))

/-- A sequence of insertions. -/
def insertAll (b : FixedBuffer SIZE) (items : List (Item D)) : Option (FixedBuffer SIZE) :=
  items.foldlM insert b

/-! ## What a buffer takes -/

/-- The complete rendering of an item. -/
def Item.text : Item D → List UInt8
  | .bool v => literal (if v then "1" else "0")
  | .integer _ v => decimal v
  | .pointer p => literal "0x" ++ hex p.toNat
  | .double v => DoubleText.render v
  | .char v => [v]
  | .cstring (some str) => str
  | .cstring none => literal "(null)"
  | .string v => v
  | .piece v => v.bytes
  | .buffer v => v.content
  | .fmt v => v.buf_.take v.length_

/-- The free bytes without which an item is left out. -/
def Item.need : Item D → ℕ
  | .integer .. | .pointer _ | .double _ => kMaxNumericSize
  | item => item.text.length + 1

/-- A buffer of the size `SIZE` takes the renderings `text` of `items`: each as a whole, or not at all
when it has fewer bytes free than the item needs. -/
inductive Selection (SIZE : ℕ) : List (Item D) → List UInt8 → Prop
  | nil : Selection SIZE [] []
  | taken {items : List (Item D)} {text : List UInt8} (item : Item D) :
    Selection SIZE items text → item.need ≤ SIZE - text.length →
    Selection SIZE (items ++ [item]) (text ++ item.text)
  | dropped {items : List (Item D)} {text : List UInt8} (item : Item D) :
    Selection SIZE items text → SIZE - text.length < item.need → Selection SIZE (items ++ [item]) text

/-- What is taken are the renderings of a subsequence. -/
theorem Selection.sublist {items : List (Item D)} {text : List UInt8} (h : Selection SIZE items text) :
    ∃ kept : List (Item D), kept.Sublist items ∧ text = (kept.map Item.text).flatten := by
  induction h with
  | nil => exact ⟨[], .slnil, rfl⟩
  | taken item _ _ ih =>
    obtain ⟨kept, hkept, rfl⟩ := ih
    exact ⟨kept ++ [item], hkept.append_right [item], by simp⟩
  | dropped item _ _ ih =>
    obtain ⟨kept, hkept, rfl⟩ := ih
    exact ⟨kept, hkept.trans (List.sublist_append_left _ _), rfl⟩

/-- A `Fmt` holds the complete text of its format. -/
theorem Fmt.take_make {text : List UInt8} {f : Fmt} (h : Fmt.make text = some f) :
    f.buf_.take f.length_ = text := by
  have hfit : 0 + (text.take (32 - 1) ++ [0]).length ≤ (List.replicate 32 (0 : UInt8)).length := by
    rw [List.length_append, List.length_take, List.length_replicate, List.length_singleton]
    omega
  rw [Fmt.make, snprintf, Mem.store?_of_le hfit] at h
  obtain ⟨⟨_, hlen⟩, hf⟩ := Option.dite_none_right_eq_some.mp h
  obtain rfl := Option.some.inj hf
  have htake : text.take (32 - 1) = text := List.take_of_length_le (Nat.le_of_lt_succ hlen)
  have hslice := Mem.slice_store_front hfit
  rw [htake] at hslice
  show (Mem.store (List.replicate 32 0) 0 (text.take (32 - 1) ++ [0])).take text.length = text
  rw [htake]
  exact hslice

/-! ## Insertions -/

/-- The longest number and its NUL fit into the margin. -/
theorem Item.length_text_lt (item : Item D) : item.text.length < item.need := by
  cases item with
  | integer T v => exact Nat.lt_of_le_of_lt (length_decimal_le v.2) (show 20 < 32 by decide)
  | pointer p =>
    have hlen := length_hex_le p.toNat_lt
    show (literal "0x" ++ hex p.toNat).length < 32
    rw [List.length_append]
    exact Nat.lt_of_le_of_lt (Nat.add_le_add_left hlen 2) (by decide)
  | double v => exact Nat.lt_of_le_of_lt (DoubleText.length_le v) (show 24 < 32 by decide)
  | bool v => exact Nat.lt_succ_self _
  | char v => exact Nat.lt_succ_self _
  | cstring str => exact Nat.lt_succ_self _
  | string v => exact Nat.lt_succ_self _
  | piece v => exact Nat.lt_succ_self _
  | buffer v => exact Nat.lt_succ_self _
  | fmt v => exact Nat.lt_succ_self _

section Numbers

variable {b : FixedBuffer SIZE} {text : List UInt8}

theorem avail_le (b : FixedBuffer SIZE) : b.cur + b.avail = SIZE := Nat.add_sub_cancel' b.cur_le

/-- A text stored with its NUL at `current()` is appended. -/
theorem add_store (h : text.length < b.avail) :
    ∃ b', b.add (Mem.store b.data b.cur (text ++ [0]), text.length) = some b' ∧
      b'.content = b.content ++ text := by
  have havail := avail_le b
  have hdata := b.length_data
  have hfit : b.cur + (text ++ [0]).length ≤ b.data.length := by
    rw [List.length_append, List.length_singleton]
    omega
  have hadd : (Mem.store b.data b.cur (text ++ [0])).length = SIZE ∧ b.cur + text.length ≤ SIZE :=
    ⟨(Mem.length_store hfit).trans hdata, by omega⟩
  refine ⟨⟨Mem.store b.data b.cur (text ++ [0]), b.cur + text.length, hadd.1, hadd.2⟩,
    dif_pos hadd, ?_⟩
  simp only [FixedBuffer.content]
  rw [← Mem.slice_append_slice, Nat.zero_add, Mem.slice_store_front hfit,
    Mem.slice_store_before hfit (by omega)]

theorem formatInteger_eq {T : IntType} {v : ℤ} (hv : T.Holds v) (h : kMaxNumericSize ≤ b.avail) :
    ∃ b', formatInteger b v = some b' ∧ b'.content = b.content ++ decimal v := by
  have havail := avail_le b
  have hdata := b.length_data
  have hlen := length_decimal_le hv
  have hmargin : 32 ≤ b.avail := h
  rw [formatInteger, if_pos h, convert_eq (by omega)]
  exact add_store (by omega)

theorem formatDouble_eq {v : D} (h : kMaxNumericSize ≤ b.avail) :
    ∃ b', formatDouble b v = some b' ∧ b'.content = b.content ++ DoubleText.render v := by
  have havail := avail_le b
  have hdata := b.length_data
  have hlen := DoubleText.length_le v
  have hmargin : 32 ≤ b.avail := h
  have htake : (DoubleText.render v).take (kMaxNumericSize - 1) = DoubleText.render v :=
    List.take_of_length_le (hlen.trans (by decide))
  rw [formatDouble, if_pos h, snprintf, htake, Mem.store?_of_le (by
    rw [List.length_append, List.length_singleton]
    omega)]
  exact add_store (by omega)

theorem formatPointer_eq {v : ℕ} (hv : v < 2 ^ 64) (h : kMaxNumericSize ≤ b.avail) :
    ∃ b', formatPointer b v = some b' ∧ b'.content = b.content ++ (literal "0x" ++ hex v) := by
  have havail := avail_le b
  have hdata := b.length_data
  have hlen := length_hex_le hv
  have hmargin : 32 ≤ b.avail := h
  have h0 : b.cur + (literal "0").length ≤ b.data.length := by
    show b.cur + 1 ≤ _
    omega
  have hx : b.cur + (literal "0x").length ≤ b.data.length := by
    show b.cur + 2 ≤ _
    omega
  have hprefix : Mem.store (Mem.store b.data b.cur (literal "0")) (b.cur + 1) (literal "x") =
      Mem.store b.data b.cur (literal "0x") := Mem.store_store_append h0
  have hhex : convertHex (Mem.store b.data b.cur (literal "0x")) (b.cur + 2) v =
      some (Mem.store (Mem.store b.data b.cur (literal "0x")) (b.cur + 2) (hex v ++ [0]),
        (hex v).length) := convertHex_eq (by rw [Mem.length_store hx]; omega)
  have hall : Mem.store (Mem.store b.data b.cur (literal "0x")) (b.cur + 2) (hex v ++ [0]) =
      Mem.store b.data b.cur (literal "0x" ++ (hex v ++ [0])) := Mem.store_store_append hx
  have htwo : (hex v).length + 2 = (literal "0x" ++ hex v).length := by
    rw [List.length_append, Nat.add_comm]
    rfl
  rw [formatPointer, if_pos h, Option.bind_eq_bind, Mem.store?_bind h0, Option.bind_eq_bind,
    Mem.store?_bind (by rw [Mem.length_store h0]; exact hx), hprefix, hhex, hall, ← List.append_assoc]
  show ∃ b', b.add (_, (hex v).length + 2) = some b' ∧ _
  rw [htwo]
  exact add_store (by omega)

end Numbers

/-- **An insertion**: the item is appended, or it needs more bytes than are free. -/
theorem insert_spec (b : FixedBuffer SIZE) (item : Item D) :
    ∃ b', insert b item = some b' ∧
      (item.need ≤ b.avail ∧ b'.content = b.content ++ item.text ∨
        b.avail < item.need ∧ b' = b) := by
  -- a string
  have happend : ∀ buf : List UInt8, ∃ b', some (b.append buf) = some b' ∧
      (buf.length + 1 ≤ b.avail ∧ b'.content = b.content ++ buf ∨
        b.avail < buf.length + 1 ∧ b' = b) := by
    intro buf
    by_cases hfit : buf.length < b.avail
    · exact ⟨_, rfl, .inl ⟨hfit, FixedBuffer.content_append hfit⟩⟩
    · exact ⟨b, by rw [FixedBuffer.append, dif_neg hfit],
        .inr ⟨Nat.lt_succ_of_le (not_lt.mp hfit), rfl⟩⟩
  -- a number
  have hnumber : ∀ {f : Option (FixedBuffer SIZE)} {text : List UInt8},
      (kMaxNumericSize ≤ b.avail → ∃ b', f = some b' ∧ b'.content = b.content ++ text) →
      (¬ kMaxNumericSize ≤ b.avail → f = some b) →
      ∃ b', f = some b' ∧ (kMaxNumericSize ≤ b.avail ∧ b'.content = b.content ++ text ∨
        b.avail < kMaxNumericSize ∧ b' = b) := by
    intro f text hroom hfull
    by_cases hfit : kMaxNumericSize ≤ b.avail
    · obtain ⟨b', hf, hcontent⟩ := hroom hfit
      exact ⟨b', hf, .inl ⟨hfit, hcontent⟩⟩
    · exact ⟨b, hfull hfit, .inr ⟨not_le.mp hfit, rfl⟩⟩
  cases item with
  | bool v => exact happend _
  | char v => exact happend _
  | cstring str => cases str <;> exact happend _
  | string v => exact happend _
  | piece v => exact happend _
  | buffer v => exact happend _
  | fmt v => exact happend _
  | integer T v => exact hnumber (formatInteger_eq v.2) fun h => if_neg h
  | pointer p => exact hnumber (formatPointer_eq p.toNat_lt) fun h => if_neg h
  | double v => exact hnumber formatDouble_eq fun h => if_neg h

/-! ## Sequences of insertions -/

theorem avail_eq (b : FixedBuffer SIZE) : b.avail = SIZE - b.content.length := by
  rw [b.length_content]
  rfl

/-- An insertion keeps one byte free. -/
theorem length_insert_lt {b b' : FixedBuffer SIZE} {item : Item D} (hb : b.length < SIZE)
    (h : insert b item = some b') : b'.length < SIZE := by
  obtain ⟨b'', hinsert, hcase⟩ := insert_spec b item
  obtain rfl := Option.some.inj (h.symm.trans hinsert)
  rcases hcase with ⟨hneed, hcontent⟩ | ⟨-, rfl⟩
  · have hlen := congrArg List.length hcontent
    have htext := item.length_text_lt
    rw [List.length_append, b'.length_content] at hlen
    rw [avail_eq] at hneed
    omega
  · exact hb

/-- A step of the selection. -/
theorem Selection.insert {b : FixedBuffer SIZE} {items : List (Item D)}
    (h : Selection SIZE items b.content) (item : Item D) :
    ∃ b', LogStream.insert b item = some b' ∧ Selection SIZE (items ++ [item]) b'.content := by
  obtain ⟨b', hinsert, hcase⟩ := insert_spec b item
  refine ⟨b', hinsert, ?_⟩
  rw [avail_eq] at hcase
  rcases hcase with ⟨hneed, hcontent⟩ | ⟨hneed, rfl⟩
  · exact hcontent ▸ .taken item h hneed
  · exact .dropped item h hneed

theorem insertAll_append (b : FixedBuffer SIZE) (items items' : List (Item D)) :
    insertAll b (items ++ items') = insertAll b items >>= (insertAll · items') :=
  List.foldlM_append

theorem insertAll_singleton (b : FixedBuffer SIZE) (item : Item D) :
    insertAll b [item] = insert b item := by
  rw [insertAll, List.foldlM_cons]
  exact bind_pure _

theorem insertAll_concat (b : FixedBuffer SIZE) (items : List (Item D)) (item : Item D) :
    insertAll b (items ++ [item]) = insertAll b items >>= (insert · item) := by
  simp only [insertAll_append, insertAll_singleton]

theorem insertAll_cons {b b' : FixedBuffer SIZE} {item : Item D} (h : insert b item = some b')
    (items : List (Item D)) : insertAll b (item :: items) = insertAll b' items := by
  rw [insertAll, List.foldlM_cons, h]
  rfl

/-- Items that fit with the margin of a number are all taken. -/
theorem insertAll_of_room {b : FixedBuffer SIZE} (items : List (Item D))
    (h : (items.map Item.text).flatten.length + 32 ≤ b.avail) : ∃ b', insertAll b items = some b' ∧
      b'.content = b.content ++ (items.map Item.text).flatten := by
  induction items generalizing b with
  | nil => exact ⟨b, rfl, (List.append_nil _).symm⟩
  | cons item items ih =>
    rw [List.map_cons, List.flatten_cons, List.length_append] at h
    have hneed : item.need ≤ item.text.length + 32 := by
      cases item <;> simp only [Item.need, kMaxNumericSize] <;> omega
    obtain ⟨b', hinsert, ⟨-, hcontent⟩ | ⟨hfull, -⟩⟩ := insert_spec b item
    · have hlen := congrArg List.length hcontent
      rw [List.length_append] at hlen
      have havail := avail_eq b
      have havail' := avail_eq b'
      obtain ⟨b'', hall, hrest⟩ := ih (b := b') (by omega)
      refine ⟨b'', (insertAll_cons hinsert items).trans hall, ?_⟩
      rw [hrest, hcontent, List.map_cons, List.flatten_cons, List.append_assoc]
    · omega

/-- **A buffer takes whole items and never overflows**: every sequence of insertions succeeds, keeps one
byte free, and leaves the renderings of a subsequence, without an item only where it did not fit. -/
theorem insertAll_selection (hSIZE : 1 ≤ SIZE) (items : List (Item D)) :
    ∃ b : FixedBuffer SIZE, insertAll .make items = some b ∧ b.length ≤ SIZE - 1 ∧
      Selection SIZE items b.content ∧
      ∃ kept : List (Item D), kept.Sublist items ∧ b.content = (kept.map Item.text).flatten := by
  have hrun : ∃ b : FixedBuffer SIZE, insertAll .make items = some b ∧ b.length < SIZE ∧
      Selection SIZE items b.content := by
    induction items using List.reverseRecOn with
    | nil => exact ⟨.make, rfl, hSIZE, FixedBuffer.content_eq_nil (b := .make) rfl ▸ .nil⟩
    | append_singleton items item ih =>
      obtain ⟨b, hb, hlen, hsel⟩ := ih
      obtain ⟨b', hinsert, hsel'⟩ := hsel.insert item
      refine ⟨b', ?_, length_insert_lt hlen hinsert, hsel'⟩
      rw [insertAll_concat, hb]
      exact hinsert
  obtain ⟨b, hb, hlen, hsel⟩ := hrun
  exact ⟨b, hb, by omega, hsel, hsel.sublist⟩

theorem length_decimal_whole (d : Fin 1000000000000) : (decimal d.val).length ≤ 24 := by
  have hlen := Numeral.length_numeral_le (b := 10) (k := 24) (n := d.val) (by decide) (by decide)
    (by omega)
  rw [decimal, if_neg (by omega), Int.natAbs_natCast, List.nil_append, List.length_map]
  exact hlen

/-- Whole numbers of at most twelve digits, which `"%.12g"` renders as they are. -/
instance wholeText : DoubleText (Fin 1000000000000) := ⟨fun d => decimal d.val, length_decimal_whole⟩

/-- A number that finds 30 bytes is left out, the character after it is not. -/
theorem insertAll_selection_small :
    (insertAll (D := Fin 1000000000000) (.make : FixedBuffer 36)
        [.cstring none, .double 7, .bool true]).map FixedBuffer.content =
      some (literal "(null)1") ∧
    ∃ b : FixedBuffer 36, insertAll (D := Fin 1000000000000) .make
        [.cstring none, .double 7, .bool true] = some b ∧ b.length ≤ 35 := by
  have hsize : 1 ≤ 36 := by decide
  obtain ⟨b, hb, hlen, -⟩ := insertAll_selection (D := Fin 1000000000000) hsize
    [.cstring none, .double 7, .bool true]
  exact ⟨by decide, b, hb, hlen⟩

end LogStream

end MengSen

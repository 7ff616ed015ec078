import MengSen.Net.BufferInt
import MengSen.Net.BufferLimits

/-!
# Net.BufferIntQueue — integers come back as they went in

The bytes of an integer in the buffer are its big-endian two's complement on every host, so
`appendInt` is `append` of `IntType.encode` (`appendInt_eq`), and `readInt` takes the encoding off the
front and decodes it (`readInt_spec`).  In a run of appends and reads the readable bytes are the
encodings of the values not yet read.
-/

namespace MengSen.Net.Buffer

open Machine (check_bind ok_bind pure_eq_ok)
open Bytes (Order)

variable {o : Order} {b b' : Buffer} {t : IntType} {k : ℕ} {x : ℤ}

/-! ## One call -/

/-- A converted value lies in memory with the most significant byte first. -/
theorem objectBytes_convert (o : Order) (k : ℕ) (x : ℤ) :
    objectBytes o k (convert k (o.htobe k) x) =
      (Bytes.encode k (Word.ofSigned (8 * k) x)).reverse := by
  have hpow : 256 ^ k = 2 ^ (8 * k) := by rw [pow_mul]; rfl
  have hlt : Word.ofSigned (8 * k) x < 256 ^ k := by
    rw [hpow]
    exact Word.ofSigned_lt x
  have hbe := o.htobe_lt hlt
  rw [hpow] at hbe
  rw [objectBytes, convert, Word.ofSigned_toSigned hbe, o.store_htobe]

/-- A value read from memory and converted is read with the most significant byte first. -/
theorem convert_objectOf (o : Order) {bytes : List UInt8} (hl : bytes.length = k) :
    convert k (o.betoh k) (objectOf o k bytes) =
      Word.toSigned (8 * k) (Bytes.decode bytes.reverse) := by
  have hlt := o.load_lt hl
  rw [show 256 ^ k = 2 ^ (8 * k) by rw [pow_mul]; rfl] at hlt
  rw [convert, objectOf, Word.ofSigned_toSigned hlt, o.betoh_load hl]

/-- `appendInt` and `perpendInt` append and prepend the encoding of the value. -/
theorem appendInt_eq (t : IntType) : b.appendInt o x t = b.append (t.encode x) := by
  cases t with
  | int64 => exact congrArg b.append (objectBytes_convert o 8 x)
  | int32 => exact congrArg b.append (objectBytes_convert o 4 x)
  | int16 => exact congrArg b.append (objectBytes_convert o 2 x)
  | int8 => cases o <;> rfl

theorem perpendInt_eq (t : IntType) : b.perpendInt o x t = b.prepend (t.encode x) := by
  cases t with
  | int64 => exact congrArg b.prepend (objectBytes_convert o 8 x)
  | int32 => exact congrArg b.prepend (objectBytes_convert o 4 x)
  | int16 => exact congrArg b.prepend (objectBytes_convert o 2 x)
  | int8 => cases o <;> rfl

theorem peekObject_eq (h : b.Sound) (hk : k ≤ b.readableBytes) :
    b.peekObject o k = .ok (objectOf o k (b.content.take k)) := by
  have hr := h.toValid.readableBytes_eq h.lt
  have hrw := h.reader_le
  have hwl := h.writer_le
  have hload : b.loadAt b.readerIndex k = .ok (b.content.take k) := by
    rw [loadAt_eq (by omega), content, Mem.take_slice (by omega)]
  rw [peekObject, check_bind _ hk, hload, ok_bind, pure_eq_ok]

/-- **`readInt`** takes the encoding off the front; the indices return when nothing is left. -/
theorem readInt_spec (h : b.Sound) (t : IntType) (hk : t.size ≤ b.content.length) :
    ∃ b', b.readInt o t = .ok (b', t.decode (b.content.take t.size)) ∧ b'.Sound ∧
      b'.content = b.content.drop t.size ∧
      (b'.content = [] → b'.readerIndex = kCheapPrepend ∧ b'.writerIndex = kCheapPrepend) := by
  have hlen := h.toValid.length_content h.lt
  have hk' : t.size ≤ b.readableBytes := hlen ▸ hk
  obtain ⟨b', hb', hpost⟩ := retrieve_spec h.toValid h.lt hk'
  have hbytes : (b.content.take t.size).length = t.size := List.length_take_of_le hk
  refine ⟨b', ?_, h.retrieve hb', hpost.content_eq, fun hnil => ?_⟩
  · have hread : ∀ k, k = t.size → b.peekObject o k = .ok (objectOf o k (b.content.take t.size)) := by
      rintro k rfl
      exact peekObject_eq h hk'
    cases t with
    | int64 =>
      simp only [readInt, readInt64, peekInt64, hread 8 rfl, ok_bind, retrieveInt64, pure_eq_ok]
      rw [show b.retrieve 8 = .ok b' from hb', ok_bind]
      exact congrArg (fun x => Except.ok (b', x)) (convert_objectOf o hbytes)
    | int32 =>
      simp only [readInt, readInt32, peekInt32, hread 4 rfl, ok_bind, retrieveInt32, pure_eq_ok]
      rw [show b.retrieve 4 = .ok b' from hb', ok_bind]
      exact congrArg (fun x => Except.ok (b', x)) (convert_objectOf o hbytes)
    | int16 =>
      simp only [readInt, readInt16, peekInt16, hread 2 rfl, ok_bind, retrieveInt16, pure_eq_ok]
      rw [show b.retrieve 2 = .ok b' from hb', ok_bind]
      exact congrArg (fun x => Except.ok (b', x)) (convert_objectOf o hbytes)
    | int8 =>
      -- one byte reads the same both ways
      obtain ⟨c, hc⟩ := List.length_eq_one_iff.mp hbytes
      simp only [readInt, readInt8, peekInt8, hread 1 rfl, ok_bind, retrieveInt8, pure_eq_ok]
      rw [show b.retrieve 1 = .ok b' from hb', ok_bind, hc]
      cases o <;> rfl
  · -- nothing is left: `retrieve` has reset the indices
    rw [hpost.content_eq, List.drop_eq_nil_iff] at hnil
    have hall : ¬ t.size < b.readableBytes := by omega
    simp only [retrieve, check_bind _ hk', if_neg hall, pure_eq_ok, Except.ok.injEq] at hb'
    rw [← hb']
    exact ⟨rfl, rfl⟩

/-- `perpendInt` and `readInt` of the same type. -/
theorem perpend_read (h : b.Sound) (hx : t.InRange x) (hk : t.size ≤ b.prependableBytes) :
    ∃ b₁ b₂, b.perpendInt o x t = .ok b₁ ∧ b₁.content = t.encode x ++ b.content ∧
      b₁.readInt o t = .ok (b₂, x) ∧ b₂.content = b.content := by
  obtain ⟨b₁, hb₁, -, hc⟩ := prepend_spec h.toValid h.lt (d := t.encode x) (by simpa using hk)
  have hlen : (t.encode x).length = t.size := t.length_encode
  obtain ⟨b₂, hb₂, -, hc₂, -⟩ := readInt_spec (o := o) (h.prepend hb₁) t (by
    rw [hc, List.length_append]
    omega)
  rw [hc, List.take_left' hlen, t.decode_encode hx] at hb₂
  rw [hc, List.drop_left' hlen] at hc₂
  exact ⟨b₁, b₂, by rw [perpendInt_eq, hb₁], hc, hb₂, hc₂⟩

/-! ## Runs -/

/-- A value of one of the types. -/
structure IntValue where
  type : IntType
  val : ℤ
  inRange : type.InRange val

namespace IntValue

def encode (v : IntValue) : List UInt8 := v.type.encode v.val

def typed (v : IntValue) : IntType × ℤ := (v.type, v.val)

end IntValue

/-- A buffer, the values appended to it and the values read from it. -/
structure IntState where
  buffer : Buffer
  appended : List IntValue
  read : List (IntType × ℤ)

inductive IntAction
  | append (v : IntValue)
  | read (t : IntType)

def IntState.act (o : Order) (s : IntState) : IntAction → Option (Except Failure IntState)
  | .append v => some do
    let b ← s.buffer.appendInt o v.val v.type
    return { s with buffer := b, appended := s.appended ++ [v] }
  | .read t => some do
    let (b, x) ← s.buffer.readInt o t
    return { s with buffer := b, read := s.read ++ [(t, x)] }

/-- A buffer with nothing to read, its indices and its vector in any state. -/
def intMachine (o : Order) : Machine IntState IntAction Failure where
  init s := s.buffer.Sound ∧ s.buffer.content = [] ∧ s.appended = [] ∧ s.read = []
  act := IntState.act o

/-- The values that were appended and not read. -/
def IntState.unread (s : IntState) : List IntValue := s.appended.drop s.read.length

/-- A read takes a value that was appended, by its type. -/
def NotAhead (s : IntState) : IntAction → Prop
  | .append _ => True
  | .read t => s.unread.head?.map IntValue.type = some t

/-- The readable bytes are the encodings of the values that were not read. -/
structure IntState.Inv (s : IntState) : Prop where
  sound : s.buffer.Sound
  read_eq : s.read = (s.appended.take s.read.length).map IntValue.typed
  content_eq : s.buffer.content = s.unread.flatMap IntValue.encode
  home : s.read ≠ [] → s.buffer.content = [] →
    s.buffer.readerIndex = kCheapPrepend ∧ s.buffer.writerIndex = kCheapPrepend

theorem IntState.Inv.length_le {s : IntState} (h : s.Inv) : s.read.length ≤ s.appended.length := by
  have hlen := congrArg List.length h.read_eq
  rw [List.length_map, List.length_take] at hlen
  omega

/-- `appendInt` puts a value behind the others, or the vector cannot grow. -/
theorem IntState.Inv.append {s : IntState} (h : s.Inv) (o : Order) (v : IntValue) :
    (∃ s', (intMachine o).Step s (.append v) s' ∧ s'.Inv) ∨
      s.act o (.append v) = some (.error ⟨.lengthError, s.buffer⟩) ∧
        maxSize < s.buffer.writerIndex + v.type.size := by
  have hlen : v.encode.length = v.type.size := v.type.length_encode
  have hsize := v.type.size_le
  rcases h.sound.append_cases (d := v.encode) (by omega) with ⟨b', hb', hsound, hpost⟩ | ⟨hb, hmax⟩
  · have hunread : (s.appended ++ [v]).drop s.read.length = s.unread ++ [v] :=
      List.drop_append_of_le_length h.length_le
    refine .inl ⟨{ s with buffer := b', appended := s.appended ++ [v] }, ?_, hsound, ?_, ?_, ?_⟩
    · have hcall : s.buffer.appendInt o v.val v.type = .ok b' := (appendInt_eq v.type).trans hb'
      simp only [Machine.Step, intMachine, IntState.act, hcall, ok_bind, pure_eq_ok]
    · simp only
      rw [List.take_append_of_le_length h.length_le]
      exact h.read_eq
    · show b'.content = ((s.appended ++ [v]).drop s.read.length).flatMap IntValue.encode
      rw [hunread, hpost.content_eq, h.content_eq, List.flatMap_append, List.flatMap_singleton]
    · -- an encoding is not empty
      intro _ hnil
      have hpos := v.type.size_pos
      simp only [hpost.content_eq] at hnil
      have := congrArg List.length (List.append_eq_nil_iff.mp hnil).2
      rw [List.length_nil] at this
      omega
  · refine .inr ⟨?_, by omega⟩
    have hcall : s.buffer.appendInt o v.val v.type = .error ⟨.lengthError, s.buffer⟩ :=
      (appendInt_eq v.type).trans hb
    simp only [IntState.act, hcall]
    rfl

/-- `readInt` takes the first value that was not read. -/
theorem IntState.Inv.read {s : IntState} (h : s.Inv) (o : Order) {t : IntType}
    (ht : NotAhead s (.read t)) :
    ∃ v s', s.unread.head? = some v ∧ v.type = t ∧ (intMachine o).Step s (.read t) s' ∧
      s'.read = s.read ++ [v.typed] ∧ s'.Inv := by
  obtain ⟨v, hv, rfl⟩ := Option.map_eq_some_iff.mp ht
  have hlen : v.encode.length = v.type.size := v.type.length_encode
  obtain ⟨l, hl⟩ : ∃ l, s.unread = v :: l := by
    cases hu : s.unread with
    | nil => simp [hu] at hv
    | cons u l =>
      rw [hu, List.head?_cons, Option.some.injEq] at hv
      exact ⟨l, by rw [hv]⟩
  have hc : s.buffer.content = v.encode ++ l.flatMap IntValue.encode := by
    rw [h.content_eq, hl, List.flatMap_cons]
  have hnext : s.appended.drop (s.read.length + 1) = l := by
    rw [← List.drop_drop, show s.appended.drop s.read.length = v :: l from hl]
    rfl
  obtain ⟨b', hb', hsound, hcont, hhome⟩ := readInt_spec (o := o) h.sound v.type (by
    rw [hc, List.length_append]
    omega)
  rw [hc, List.take_left' hlen, show v.encode = v.type.encode v.val from rfl,
    v.type.decode_encode v.inRange] at hb'
  rw [hc, List.drop_left' hlen] at hcont
  refine ⟨v, { s with buffer := b', read := s.read ++ [v.typed] }, hv, rfl, ?_, rfl, hsound, ?_, ?_,
    fun _ => hhome⟩
  · simp only [Machine.Step, intMachine, IntState.act, hb', ok_bind, pure_eq_ok]
    rfl
  · simp only [List.length_append, List.length_singleton]
    have hv' : s.appended[s.read.length]? = some v := by
      rw [← List.head?_drop]
      exact hv
    rw [List.take_add_one, hv', Option.toList_some, List.map_append, ← h.read_eq, List.map_singleton]
  · simp only [IntState.unread, List.length_append, List.length_singleton, hnext]
    exact hcont

theorem intMachine_reach_inv {s : IntState} (h : (intMachine o).Reach NotAhead s) : s.Inv := by
  refine Machine.Reach.induct (I := IntState.Inv) ?_ ?_ h
  · rintro s ⟨hs, hc, ha, hr⟩
    exact ⟨hs, by rw [hr]; rfl, by rw [hc, IntState.unread, ha, hr]; rfl, fun hne => absurd hr hne⟩
  · intro s a s' _ hinv hok hs
    cases a with
    | append v =>
      rcases hinv.append o v with ⟨s'', hs'', hinv'⟩ | ⟨herr, -⟩
      · exact hs.det hs'' ▸ hinv'
      · exact absurd (herr.symm.trans hs) (by simp)
    | read t =>
      obtain ⟨v, s'', -, -, hs'', -, hinv'⟩ := hinv.read o hok
      exact hs.det hs'' ▸ hinv'

/-- **Integers round trip.**  On a host of either byte order, in every run of appends and reads that
never get ahead, from a buffer with nothing to read: the values read are the values appended, in
order; the readable bytes are the big-endian two's complement of the others; once all were read both
indices are back; every read that is not ahead returns the next value; every append returns, or the
vector cannot grow; and a value put in front is read back, and leaves the readable bytes. -/
theorem integers_roundTrip {s : IntState} (h : (intMachine o).Reach NotAhead s) :
    s.read = (s.appended.take s.read.length).map IntValue.typed ∧
    s.buffer.content = (s.appended.drop s.read.length).flatMap IntValue.encode ∧
    (s.read ≠ [] → s.read.length = s.appended.length →
      s.buffer.readerIndex = kCheapPrepend ∧ s.buffer.writerIndex = kCheapPrepend) ∧
    (∀ v, s.unread.head? = some v → ∃ s', (intMachine o).Step s (.read v.type) s' ∧
      s'.read = s.read ++ [v.typed]) ∧
    (∀ v, (∃ s', (intMachine o).Step s (.append v) s') ∨
      s.act o (.append v) = some (.error ⟨.lengthError, s.buffer⟩) ∧
        maxSize < s.buffer.writerIndex + v.type.size) ∧
    ∀ v : IntValue, v.type.size ≤ s.buffer.prependableBytes →
      ∃ b₁ b₂, s.buffer.perpendInt o v.val v.type = .ok b₁ ∧
        b₁.content = v.encode ++ s.buffer.content ∧ b₁.readInt o v.type = .ok (b₂, v.val) ∧
        b₂.content = s.buffer.content := by
  have hinv := intMachine_reach_inv h
  refine ⟨hinv.read_eq, hinv.content_eq, fun hne hall => hinv.home hne ?_, fun v hv => ?_,
    fun v => ?_, fun v hv => perpend_read hinv.sound v.inRange hv⟩
  · rw [hinv.content_eq, IntState.unread, hall, List.drop_length, List.flatMap_nil]
  · obtain ⟨u, s', hu, -, hs', hread, -⟩ := hinv.read o (t := v.type) (by
      rw [NotAhead, hv]
      rfl)
    rw [hv, Option.some.injEq] at hu
    exact ⟨s', hs', hu ▸ hread⟩
  · exact (hinv.append o v).imp_left fun ⟨s', hs', _⟩ => ⟨s', hs'⟩

/-- `-2` as two bytes was appended to an empty vector whose indices stand at 9. -/
def minusTwo : IntState where
  buffer := ⟨List.replicate 9 0 ++ [255, 254], 9, 11⟩
  appended := [⟨.int16, -2, by decide⟩]
  read := []

theorem minusTwo_reach : (intMachine .little).Reach NotAhead minusTwo := by
  have hvalid : Sound ⟨List.replicate 9 0, 9, 9⟩ := ⟨⟨by decide, by decide, by decide⟩, by decide⟩
  have h0 : (intMachine .little).Reach NotAhead ⟨⟨List.replicate 9 0, 9, 9⟩, [], []⟩ :=
    .init ⟨hvalid, rfl, rfl, rfl⟩
  refine .step (a := .append ⟨.int16, -2, by decide⟩) h0 trivial ?_
  simp only [Machine.Step, intMachine, IntState.act]
  rfl

theorem integers_roundTrip_minusTwo :
    ∃ s', (intMachine .little).Step minusTwo (.read .int16) s' ∧ s'.read = [(.int16, -2)] :=
  (integers_roundTrip minusTwo_reach).2.2.2.1 ⟨.int16, -2, by decide⟩ rfl

end MengSen.Net.Buffer

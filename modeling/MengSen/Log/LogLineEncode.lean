import MengSen.Log.LogLine

/-!
# Log.LogLineEncode — what a log line holds

`Holds l data`: the bytes in use are `data`, at the front of the current buffer.  An insertion appends
the record of its argument, whether or not the buffer has to grow for it.
-/

namespace MengSen.LogLine

/-! ## The records -/

section Records

variable (H : Host)

/-- The type of an object and its bytes. -/
def typed (T : SupportedType) (d : List UInt8) : List UInt8 := tupleIndex T :: d

/-- A C string behind its type; an empty one is left out. -/
def charPtrRecord (text : List UInt8) : List UInt8 :=
  if text = [] then [] else typed .charPtr (text ++ [0])

/-- What an insertion appends. -/
def Arg.record : Arg → List UInt8
  | .char v => typed .char (H.order.store 1 v.toNat)
  | .uint32 v => typed .uint32 (H.order.store 4 v.toNat)
  | .uint64 v => typed .uint64 (H.order.store 8 v.toNat)
  | .int32 v => typed .int32 (H.order.store 4 v.toUInt32.toNat)
  | .int64 v => typed .int64 (H.order.store 8 v.toUInt64.toNat)
  | .double v => typed .double (H.order.store 8 v.toNat)
  | .cstring none => []
  | .cstring (some v) => charPtrRecord (MengSen.cstring v.ptr)
  | .string v => charPtrRecord v

def Header.record (header : Header H) : List UInt8 :=
  H.order.store 8 header.timestamp.toNat ++ (H.order.store 4 header.threadid.toUInt32.toNat ++
    (H.order.store 8 header.file.s.toNat ++ (H.order.store 8 header.function.s.toNat ++
      (H.order.store 4 header.line.toNat ++ H.order.store 1 header.loglevel.toUInt8.toNat))))

theorem length_header (header : Header H) : (header.record H).length = 33 := by
  simp [Header.record]

end Records

/-! ## Stores -/

structure Holds (l : LogLine) (data : List UInt8) : Prop where
  bytesUsed : l.bytesUsed = data.length
  bufferSize : l.bufferSize = l.chars.length
  front : data <+: l.chars

variable {H : Host} {l : LogLine} {data d : List UInt8}

/-- The line with another content of its current buffer. -/
def withChars (l : LogLine) (m : List UInt8) : LogLine :=
  match l.heapBuffer with
  | none => { l with stackBuffer := m }
  | some _ => { l with heapBuffer := some m }

@[simp] theorem chars_withChars (l : LogLine) (m : List UInt8) : (l.withChars m).chars = m := by
  obtain ⟨used, size, _ | heap, stack⟩ := l <;> rfl

@[simp] theorem bytesUsed_withChars (l : LogLine) (m : List UInt8) :
    (l.withChars m).bytesUsed = l.bytesUsed := by
  obtain ⟨used, size, _ | heap, stack⟩ := l <;> rfl

@[simp] theorem bufferSize_withChars (l : LogLine) (m : List UInt8) :
    (l.withChars m).bufferSize = l.bufferSize := by
  obtain ⟨used, size, _ | heap, stack⟩ := l <;> rfl

theorem store_eq {offset : ℕ} (h : l.bytesUsed + offset + d.length ≤ l.chars.length) :
    l.store offset d = some (l.withChars (Mem.store l.chars (l.bytesUsed + offset) d)) := by
  obtain ⟨used, size, _ | heap, stack⟩ := l
  · exact Mem.store?_bind h _
  · exact Mem.store?_bind h _

/-- **A store behind the data** stays inside the buffer. -/
theorem store_front (offset : ℕ) (hfront : data <+: l.chars)
    (hpos : l.bytesUsed + offset = data.length) (hfit : data.length + d.length ≤ l.chars.length) :
    ∃ m, l.store offset d = some (l.withChars m) ∧ data ++ d <+: m ∧ m.length = l.chars.length := by
  refine ⟨_, store_eq (by rw [hpos]; exact hfit), ?_, ?_⟩
  · rw [hpos]
    exact Mem.append_prefix_store hfront
  · rw [hpos]
    exact Mem.length_store hfit

theorem Holds.encode (h : Holds l data) (hfit : data.length + d.length ≤ l.chars.length) :
    ∃ l', l.encode d = some l' ∧ Holds l' (data ++ d) ∧ l'.chars.length = l.chars.length := by
  obtain ⟨m, hstore, hfront, hlen⟩ := store_front 0 h.front h.bytesUsed hfit
  refine ⟨{ l.withChars m with bytesUsed := l.bytesUsed + d.length }, ?_, ⟨?_, ?_, ?_⟩, ?_⟩
  · rw [LogLine.encode, hstore]
    simp
  · rw [List.length_append, ← h.bytesUsed]
  · show (l.withChars m).bufferSize = (l.withChars m).chars.length
    rw [bufferSize_withChars, chars_withChars, hlen, h.bufferSize]
  · show _ <+: (l.withChars m).chars
    rwa [chars_withChars]
  · show (l.withChars m).chars.length = _
    rw [chars_withChars, hlen]

/-! ## Growing -/

/-- The copy in a larger buffer. -/
theorem resize_eq {n : ℕ} (h : ¬ l.bytesUsed + n ≤ l.bufferSize) :
    l.resizeBufferIfNeeded H n = do
      let d ← Mem.read? l.chars 0 l.bytesUsed
      let heap ← Mem.store? (H.newChars (max 512 (l.bytesUsed + n))) 0 d
      return { l with bufferSize := max 512 (l.bytesUsed + n), heapBuffer := some heap } := by
  rw [resizeBufferIfNeeded, if_neg h]
  obtain ⟨used, size, _ | heap, stack⟩ := l <;> rfl

theorem Holds.resize (h : Holds l data) (n : ℕ) :
    ∃ l', l.resizeBufferIfNeeded H n = some l' ∧ Holds l' data ∧
      data.length + n ≤ l'.chars.length := by
  by_cases hroom : l.bytesUsed + n ≤ l.bufferSize
  · refine ⟨l, if_pos hroom, h, ?_⟩
    rwa [← h.bytesUsed, ← h.bufferSize]
  · rw [resize_eq hroom]
    generalize hsize : max 512 (l.bytesUsed + n) = size
    have hread : Mem.read? l.chars 0 l.bytesUsed = some data := by
      rw [h.bytesUsed, Mem.read?_of_front h.front]
    have hfit : 0 + data.length ≤ (H.newChars size).length := by
      have := h.bytesUsed
      rw [H.length_newChars]
      omega
    have hlen := Mem.length_store hfit
    rw [H.length_newChars] at hlen
    refine ⟨{ l with bufferSize := size, heapBuffer := some (Mem.store (H.newChars size) 0 data) },
      ?_, ⟨h.bytesUsed, hlen.symm, Mem.prefix_store_zero _ _⟩, ?_⟩
    · rw [hread, Option.bind_eq_bind, Option.bind_some, Mem.store?_of_le hfit]
      rfl
    · have := h.bytesUsed
      show _ ≤ (Mem.store (H.newChars size) 0 data).length
      omega

/-! ## Insertions -/

theorem Holds.encodeTyped (h : Holds l data) (d : List UInt8) (T : SupportedType) :
    ∃ l', l.encodeTyped H d (tupleIndex T) = some l' ∧ Holds l' (data ++ typed T d) := by
  obtain ⟨l₁, hresize, h₁, hroom⟩ := h.resize (H := H) (d.length + 1)
  obtain ⟨l₂, hid, h₂, hlen⟩ := h₁.encode (d := [tupleIndex T]) (by
    rw [List.length_singleton]
    omega)
  obtain ⟨l₃, hd, h₃, -⟩ := h₂.encode (d := d) (by
    rw [List.length_append, List.length_singleton, hlen]
    omega)
  refine ⟨l₃, ?_, ?_⟩
  · simp only [LogLine.encodeTyped, hresize, hid, hd, Option.bind_eq_bind, Option.bind_some]
  · rwa [List.append_assoc] at h₃

/-- The characters of a C string and its NUL. -/
theorem Holds.encodeCString (h : Holds l data) {arg text : List UInt8}
    (harg : text ++ [0] <+: arg) :
    ∃ l', l.encodeCString H arg text.length = some l' ∧ Holds l' (data ++ charPtrRecord text) := by
  by_cases hnil : text = []
  · refine ⟨l, ?_, ?_⟩
    · rw [LogLine.encodeCString, hnil]
      rfl
    · rwa [charPtrRecord, if_pos hnil, List.append_nil]
  · have hne : text.length ≠ 0 := fun h0 => hnil (List.eq_nil_of_length_eq_zero h0)
    have hread : Mem.read? arg 0 (text.length + 1) = some (text ++ [0]) := by
      have hfront := Mem.read?_of_front harg
      rwa [List.length_append, List.length_singleton] at hfront
    obtain ⟨l₁, hresize, h₁, hroom⟩ := h.resize (H := H) (1 + text.length + 1)
    obtain ⟨m, hid, hfront, hlen⟩ := store_front (d := [tupleIndex .charPtr]) 0 h₁.front
      h₁.bytesUsed (by rw [List.length_singleton]; omega)
    have hfront₂ : data ++ [tupleIndex .charPtr] <+: (l₁.withChars m).chars := by
      rwa [chars_withChars]
    obtain ⟨m', htext, hfront', hlen'⟩ := store_front (d := text ++ [0]) 1 hfront₂
      (by rw [bytesUsed_withChars, h₁.bytesUsed, List.length_append, List.length_singleton])
      (by
        rw [chars_withChars, hlen, List.length_append, List.length_append, List.length_singleton,
          List.length_singleton]
        omega)
    rw [chars_withChars] at hlen'
    refine ⟨{ (l₁.withChars m).withChars m' with bytesUsed := l₁.bytesUsed + (1 + text.length + 1) },
      ?_, ⟨?_, ?_, ?_⟩⟩
    · rw [LogLine.encodeCString, if_neg hne]
      simp only [hresize, hid, hread, htext, Option.bind_eq_bind, Option.bind_some,
        bytesUsed_withChars]
      rfl
    · rw [charPtrRecord, if_neg hnil, typed, List.length_append, List.length_cons, List.length_append,
        List.length_singleton, ← h₁.bytesUsed]
      show l₁.bytesUsed + (1 + text.length + 1) = _
      omega
    · show ((l₁.withChars m).withChars m').bufferSize = ((l₁.withChars m).withChars m').chars.length
      rw [bufferSize_withChars, bufferSize_withChars, chars_withChars, hlen', hlen, h₁.bufferSize]
    · show _ <+: ((l₁.withChars m).withChars m').chars
      rw [chars_withChars, charPtrRecord, if_neg hnil]
      rwa [List.append_assoc] at hfront'

/-- **An insertion** appends the record of its argument. -/
theorem Holds.insert (h : Holds l data) (arg : Arg) :
    ∃ l', l.insert H arg = some l' ∧ Holds l' (data ++ arg.record H) := by
  cases arg with
  | char v => exact h.encodeTyped _ _
  | uint32 v => exact h.encodeTyped _ _
  | uint64 v => exact h.encodeTyped _ _
  | int32 v => exact h.encodeTyped _ _
  | int64 v => exact h.encodeTyped _ _
  | double v => exact h.encodeTyped _ _
  | cstring v =>
    rcases v with _ | v
    · exact ⟨l, rfl, (List.append_nil data).symm ▸ h⟩
    · obtain ⟨mem, hmem⟩ := exists_eq_cstring v.terminated
      exact h.encodeCString ⟨mem, by rw [List.append_assoc, List.singleton_append, ← hmem]⟩
  | string v => exact h.encodeCString List.prefix_rfl

theorem Holds.insertAll (h : Holds l data) (args : List Arg) :
    ∃ l', l.insertAll H args = some l' ∧ Holds l' (data ++ args.flatMap (Arg.record H)) := by
  induction args generalizing l data with
  | nil => exact ⟨l, rfl, by rwa [List.flatMap_nil, List.append_nil]⟩
  | cons arg args ih =>
    obtain ⟨l₁, hinsert, h₁⟩ := h.insert (H := H) arg
    obtain ⟨l₂, hall, h₂⟩ := ih h₁
    refine ⟨l₂, ?_, ?_⟩
    · rw [LogLine.insertAll, List.foldlM_cons, hinsert]
      exact hall
    · rwa [List.flatMap_cons, ← List.append_assoc]

/-! ## The constructor -/

theorem make_spec (header : Header H) :
    ∃ l, make H header = some l ∧ Holds l (header.record H) := by
  have h₀ : Holds ⟨0, stackSize, none, H.newChars stackSize⟩ [] :=
    ⟨rfl, (H.length_newChars _).symm, List.nil_prefix⟩
  have hsize : (chars ⟨0, stackSize, none, H.newChars stackSize⟩).length = 224 := H.length_newChars _
  obtain ⟨l₁, he₁, h₁, hlen₁⟩ := h₀.encode (d := H.order.store 8 header.timestamp.toNat) (by
    simp [hsize])
  obtain ⟨l₂, he₂, h₂, hlen₂⟩ := h₁.encode (d := H.order.store 4 header.threadid.toUInt32.toNat) (by
    simp [hsize, hlen₁])
  obtain ⟨l₃, he₃, h₃, hlen₃⟩ := h₂.encode (d := H.order.store 8 header.file.s.toNat) (by
    simp [hsize, hlen₁, hlen₂])
  obtain ⟨l₄, he₄, h₄, hlen₄⟩ := h₃.encode (d := H.order.store 8 header.function.s.toNat) (by
    simp [hsize, hlen₁, hlen₂, hlen₃])
  obtain ⟨l₅, he₅, h₅, hlen₅⟩ := h₄.encode (d := H.order.store 4 header.line.toNat) (by
    simp [hsize, hlen₁, hlen₂, hlen₃, hlen₄])
  obtain ⟨l₆, he₆, h₆, -⟩ := h₅.encode (d := H.order.store 1 header.loglevel.toUInt8.toNat) (by
    simp [hsize, hlen₁, hlen₂, hlen₃, hlen₄, hlen₅])
  refine ⟨l₆, ?_, ?_⟩
  · simp only [make, he₁, he₂, he₃, he₄, he₅, he₆, Option.bind_eq_bind, Option.bind_some]
  · simpa [Header.record, List.append_assoc] using h₆

end MengSen.LogLine

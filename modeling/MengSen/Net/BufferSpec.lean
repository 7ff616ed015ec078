import MengSen.Net.Buffer

/-!
# Net.BufferSpec — what each buffer method does to the readable bytes

One lemma per method, for a buffer that satisfies the index invariant: the method does not fail,
it keeps the invariant, and its effect on `content` is that of the byte-queue operation.
`Room b b' len`: `b'` holds the bytes of `b` with room for `len` more.
-/

namespace MengSen.Net.Buffer

open Machine (check_bind check_bind_eq_ok bind_eq_ok ok_bind pure_eq_ok)

variable {b : Buffer}

/-- A method took `b` to the valid buffer `b'` with readable bytes `c`, and did not move the
reader into the cheap zone. -/
structure Post (b b' : Buffer) (c : List UInt8) : Prop where
  valid : b'.Valid
  content_eq : b'.content = c
  cheap : kCheapPrepend ≤ b.readerIndex → kCheapPrepend ≤ b'.readerIndex

/-- `b'` holds the bytes of `b` and has room for `len` more. -/
structure Room (b b' : Buffer) (len : ℕ) : Prop extends Post b b' b.content where
  room : len ≤ b'.writableBytes
  size_le : b'.buffer.length ≤ b.buffer.length + len

/-! ## Making room -/

/-- The growing branch of `makeSpace`. -/
theorem resize_room (h : b.Valid) {len : ℕ} (hs : b.writerIndex + len < 2 ^ 63)
    (hw : b.buffer.length < b.writerIndex + len) :
    ∃ b', b.resize (b.writerIndex + len) = .ok b' ∧ Room b b' len := by
  obtain ⟨hrw, hwl, hc⟩ := h
  set k := b.writerIndex + len - b.buffer.length with hk
  set m := b.buffer ++ List.replicate k 0 with hm
  have hlen : m.length = b.writerIndex + len := by
    rw [hm, List.length_append, List.length_replicate]; omega
  have htake : m.take (b.writerIndex + len) = m := List.take_of_length_le hlen.le
  have hmax : ¬ maxSize < b.writerIndex + len := by unfold maxSize; omega
  have hv : Valid { b with buffer := m } := ⟨hrw, by simp only; omega, by simp only; omega⟩
  refine ⟨{ b with buffer := m }, ?_, ⟨hv, ?_, id⟩, ?_, ?_⟩
  · unfold resize
    rw [if_neg hmax, ← hk, ← hm, htake]
  · show Mem.slice (b.buffer ++ _) b.readerIndex (b.writerIndex - b.readerIndex) = b.content
    exact Mem.slice_append_left _ (by omega)
  · rw [hv.writableBytes_eq (by simp only; omega)]
    simp only
    omega
  · simp only
    omega

/-- The readable bytes moved down to the cheap zone. -/
def tidied (b : Buffer) : Buffer where
  buffer := Mem.copyForward b.buffer b.readerIndex kCheapPrepend (b.writerIndex - b.readerIndex)
  readerIndex := kCheapPrepend
  writerIndex := kCheapPrepend + (b.writerIndex - b.readerIndex)

@[simp] theorem length_tidied (b : Buffer) : b.tidied.buffer.length = b.buffer.length :=
  Mem.length_copyForward _ _ _ _

/-- The sliding branch of `makeSpace` makes room. -/
theorem slide_room (h : b.Valid) (len : ℕ) (hs : b.buffer.length < 2 ^ 63)
    (hr : kCheapPrepend < b.readerIndex)
    (hfit : len + kCheapPrepend ≤ b.buffer.length - b.writerIndex + b.readerIndex) :
    Room b b.tidied len := by
  obtain ⟨hrw, hwl, hc⟩ := h
  have hlen := b.length_tidied
  have hw : b.tidied.writerIndex = kCheapPrepend + (b.writerIndex - b.readerIndex) := rfl
  have hv : b.tidied.Valid := ⟨Nat.le_add_right _ _, by omega, by omega⟩
  refine ⟨⟨hv, ?_, fun _ => le_rfl⟩, ?_, by omega⟩
  · simp only [content, tidied]
    rw [Nat.add_sub_cancel_left, Mem.slice_copyForward hr.le (by omega)]
  · rw [hv.writableBytes_eq (by omega)]
    omega

/-- The first sum of `makeSpace`. -/
theorem Valid.room_eq (h : b.Valid) (hs : b.buffer.length < 2 ^ 63) :
    Word.add 64 b.writableBytes b.prependableBytes =
      b.buffer.length - b.writerIndex + b.readerIndex := by
  have hrw := h.reader_le
  have hwl := h.writer_le
  rw [h.writableBytes_eq hs]
  exact Word.add_of_lt (by unfold prependableBytes; omega)

/-- The sliding branch of `makeSpace`, past its assert. -/
theorem makeSpace_slide (h : b.Valid) (hs : b.buffer.length < 2 ^ 63) {len : ℕ}
    (hr : kCheapPrepend < b.readerIndex)
    (hfit : Word.add 64 len kCheapPrepend ≤ b.buffer.length - b.writerIndex + b.readerIndex) :
    b.makeSpace len = .ok b.tidied := by
  have hrw := h.reader_le
  have hwl := h.writer_le
  have hread := h.readableBytes_eq hs
  have e : Word.add 64 kCheapPrepend b.readableBytes =
      kCheapPrepend + (b.writerIndex - b.readerIndex) := by
    rw [hread]
    exact Word.add_of_lt (by omega)
  have htidy := (slide_room h 0 hs hr (by omega)).valid.readableBytes_eq
    (by rw [length_tidied]; exact hs)
  unfold makeSpace
  rw [h.room_eq hs, if_neg (not_lt.mpr hfit), check_bind _ hr, check_bind _ ⟨hrw, hwl⟩]
  simp only [e]
  rw [← tidied, check_bind _ (by rw [htidy, hread]; simp [tidied]), pure_eq_ok]

theorem makeSpace_spec (h : b.Valid) {len : ℕ} (hs : b.buffer.length < 2 ^ 63)
    (hl : b.writerIndex + len < 2 ^ 63) (hw : b.writableBytes < len) :
    ∃ b', b.makeSpace len = .ok b' ∧ Room b b' len := by
  have hrw := h.reader_le
  have hwl := h.writer_le
  rw [h.writableBytes_eq (by omega)] at hw
  have e : Word.add 64 len kCheapPrepend = len + kCheapPrepend :=
    Word.add_of_lt (by unfold kCheapPrepend; omega)
  by_cases hfit : b.buffer.length - b.writerIndex + b.readerIndex < len + kCheapPrepend
  · unfold makeSpace
    rw [h.room_eq hs, e, if_pos hfit, Word.add_of_lt (by omega)]
    exact resize_room h hl (by omega)
  · -- too little room behind, enough in all: the reader is past the cheap zone
    have hr : kCheapPrepend < b.readerIndex := by omega
    exact ⟨_, makeSpace_slide h hs hr (by omega), slide_room h len hs hr (by omega)⟩

theorem ensureWritableBytes_spec (h : b.Valid) (len : ℕ) (hs : b.buffer.length < 2 ^ 63)
    (hl : b.writerIndex + len < 2 ^ 63) :
    ∃ b', b.ensureWritableBytes len = .ok b' ∧ Room b b' len := by
  unfold ensureWritableBytes
  by_cases hw : b.writableBytes < len
  · obtain ⟨b', hb', hroom⟩ := makeSpace_spec h hs hl hw
    refine ⟨b', ?_, hroom⟩
    simp only [if_pos hw, hb', ok_bind, check_bind _ hroom.room, pure_eq_ok]
  · refine ⟨b, ?_, ⟨h, rfl, id⟩, by omega, by omega⟩
    simp only [if_neg hw, pure_eq_ok, ok_bind, check_bind _ (not_lt.mp hw)]

/-! The vector never grows past `max_size()`. -/

theorem resize_size_le {b' : Buffer} {n : ℕ} (hb : b.resize n = .ok b') :
    b'.buffer.length ≤ maxSize := by
  unfold resize at hb
  split at hb
  · cases hb
  · next hn =>
    obtain rfl := Except.ok.inj hb
    exact (List.length_take_le _ _).trans (not_lt.mp hn)

theorem makeSpace_size_le {b' : Buffer} {len : ℕ} (hs : b.buffer.length ≤ maxSize)
    (hb : b.makeSpace len = .ok b') : b'.buffer.length ≤ maxSize := by
  unfold makeSpace at hb
  split at hb
  · exact resize_size_le hb
  · obtain ⟨-, hb⟩ := check_bind_eq_ok.mp hb
    obtain ⟨-, hb⟩ := check_bind_eq_ok.mp hb
    obtain ⟨-, hb⟩ := check_bind_eq_ok.mp hb
    obtain rfl := Except.ok.inj hb
    simpa only [Mem.length_copyForward] using hs

theorem ensureWritableBytes_size_le {b' : Buffer} {len : ℕ} (hs : b.buffer.length ≤ maxSize)
    (hb : b.ensureWritableBytes len = .ok b') : b'.buffer.length ≤ maxSize := by
  by_cases hw : b.writableBytes < len
  · simp only [ensureWritableBytes, if_pos hw] at hb
    obtain ⟨c, hc, hb⟩ := bind_eq_ok.mp hb
    obtain ⟨-, hb⟩ := check_bind_eq_ok.mp hb
    obtain rfl := Except.ok.inj hb
    exact makeSpace_size_le hs hc
  · simp only [ensureWritableBytes, if_neg hw, pure_eq_ok, ok_bind] at hb
    obtain ⟨-, hb⟩ := check_bind_eq_ok.mp hb
    obtain rfl := Except.ok.inj hb
    exact hs

/-! ## Writing -/

theorem storeAt_eq {p : ℕ} {d : List UInt8} (hp : p + d.length ≤ b.buffer.length) :
    b.storeAt p d = .ok { b with buffer := Mem.store b.buffer p d } := by
  simp only [storeAt, Mem.store?, if_pos hp]

theorem loadAt_eq {p len : ℕ} (hp : p + len ≤ b.buffer.length) :
    b.loadAt p len = .ok (Mem.slice b.buffer p len) := by
  simp only [loadAt, Mem.read?, if_pos hp]

theorem hasWritten_spec (h : b.Valid) (hs : b.buffer.length < 2 ^ 63) (len : ℕ)
    (hl : len ≤ b.writableBytes) :
    ∃ b', b.hasWritten len = .ok b' ∧
      Post b b' (b.content ++ Mem.slice b.buffer b.writerIndex len) := by
  have hrw := h.reader_le
  have hwl := h.writer_le
  have hroom := hl
  rw [h.writableBytes_eq hs] at hroom
  refine ⟨{ b with writerIndex := b.writerIndex + len }, ?_, ⟨?_, ?_, h.cheap_le⟩, ?_, id⟩
  · simp only [hasWritten, check_bind _ hl, Word.add_of_lt (w := 64) (a := b.writerIndex)
      (b := len) (by omega), pure_eq_ok]
  · simp only
    omega
  · simp only
    omega
  · have e : b.writerIndex = b.readerIndex + (b.writerIndex - b.readerIndex) := by omega
    have e' : b.writerIndex + len - b.readerIndex = b.writerIndex - b.readerIndex + len := by omega
    simp only [content]
    rw [e', ← Mem.slice_append_slice, ← e]

/-- Copy to the write zone and advance: what `append` does once there is room. -/
theorem write_spec (h : b.Valid) (hs : b.buffer.length < 2 ^ 63) {d : List UInt8}
    (hl : d.length ≤ b.writableBytes) :
    ∃ b', (b.storeAt b.writerIndex d >>= fun c => c.hasWritten d.length) = .ok b' ∧
      Post b b' (b.content ++ d) ∧ b'.writableBytes = b.writableBytes - d.length := by
  have hrw := h.reader_le
  have hwl := h.writer_le
  have hroom : b.writerIndex + d.length ≤ b.buffer.length := by
    rw [h.writableBytes_eq hs] at hl; omega
  set m := Mem.store b.buffer b.writerIndex d with hm
  have hlen : m.length = b.buffer.length := Mem.length_store hroom
  have hv : Valid { b with buffer := m } := ⟨hrw, hlen ▸ hwl, hlen ▸ h.cheap_le⟩
  have hcont : content { b with buffer := m } = b.content := by
    show Mem.slice m b.readerIndex (b.writerIndex - b.readerIndex) = b.content
    exact Mem.slice_store_before hroom (by omega)
  have hwr : writableBytes { b with buffer := m } = b.writableBytes := by
    rw [hv.writableBytes_eq (by simp only; omega), h.writableBytes_eq hs]
    simp only [hlen]
  obtain ⟨b', hb', hpost⟩ := hasWritten_spec hv (by simp only; omega) d.length (by omega)
  refine ⟨b', ?_, ⟨hpost.valid, ?_, hpost.cheap⟩, ?_⟩
  · rw [storeAt_eq hroom, ok_bind]
    exact hb'
  · rw [hpost.content_eq, hcont]
    congr 1
    exact Mem.slice_store_self hroom
  · have hl' : d.length ≤ writableBytes { b with buffer := m } := by omega
    simp only [hasWritten, check_bind _ hl', pure_eq_ok, Except.ok.injEq] at hb'
    subst hb'
    rw [hpost.valid.writableBytes_eq (by simp only; omega), h.writableBytes_eq hs,
      Word.add_of_lt (w := 64) (a := b.writerIndex) (b := d.length) (by omega)]
    simp only [hlen]
    omega

theorem append_spec (h : b.Valid) {d : List UInt8} (hs : b.buffer.length < 2 ^ 63)
    (hl : b.writerIndex + d.length < 2 ^ 63) :
    ∃ b', b.append d = .ok b' ∧ Post b b' (b.content ++ d) := by
  obtain ⟨b₁, hb₁, hroom⟩ := ensureWritableBytes_spec h _ hs hl
  have hsize := ensureWritableBytes_size_le (by unfold maxSize; omega) hb₁
  obtain ⟨b₂, hb₂, hpost, -⟩ := write_spec hroom.valid (by unfold maxSize at hsize; omega) hroom.room
  refine ⟨b₂, ?_, hpost.valid, ?_, hpost.cheap ∘ hroom.cheap⟩
  · rw [append, hb₁, ok_bind]
    exact hb₂
  · rw [hpost.content_eq, hroom.content_eq]

/-- `append` into a buffer that already has the room consumes just the appended length. -/
theorem append_room (h : b.Valid) {d : List UInt8} (hs : b.buffer.length < 2 ^ 63)
    (hl : d.length ≤ b.writableBytes) :
    ∃ b', b.append d = .ok b' ∧ Post b b' (b.content ++ d) ∧
      b'.writableBytes = b.writableBytes - d.length := by
  obtain ⟨b', hb', hpost, hw⟩ := write_spec h hs hl
  refine ⟨b', ?_, hpost, hw⟩
  have hens : b.ensureWritableBytes d.length = .ok b := by
    simp only [ensureWritableBytes, if_neg (not_lt.mpr hl), pure_eq_ok, ok_bind, check_bind _ hl]
  rw [append, hens, ok_bind]
  exact hb'

theorem unwrite_spec (h : b.Valid) (hs : b.buffer.length < 2 ^ 63) {len : ℕ}
    (hl : len ≤ b.readableBytes) :
    ∃ b', b.unwrite len = .ok b' ∧ Post b b' (b.content.take (b.content.length - len)) := by
  have hrw := h.reader_le
  have hwl := h.writer_le
  have hlen := h.length_content hs
  have hr := h.readableBytes_eq hs
  refine ⟨{ b with writerIndex := b.writerIndex - len }, ?_, ⟨?_, ?_, h.cheap_le⟩, ?_, id⟩
  · simp only [unwrite, check_bind _ hl, Word.sub_of_le (w := 64) (a := b.writerIndex)
      (b := len) (by omega) (by omega), pure_eq_ok]
  · simp only
    omega
  · simp only
    omega
  · rw [hlen, hr]
    simp only [content]
    rw [Mem.take_slice (by omega)]
    congr 1
    omega

theorem prepend_spec (h : b.Valid) (hs : b.buffer.length < 2 ^ 63) {d : List UInt8}
    (hl : d.length ≤ b.prependableBytes) :
    ∃ b', b.prepend d = .ok b' ∧ b'.Valid ∧ b'.content = d ++ b.content := by
  have hrw := h.reader_le
  have hwl := h.writer_le
  have hl' : d.length ≤ b.readerIndex := hl
  set p := b.readerIndex - d.length with hp
  have hroom : p + d.length ≤ b.buffer.length := by omega
  have e : Word.sub 64 b.readerIndex d.length = p := Word.sub_of_le hl' (by omega)
  refine ⟨⟨Mem.store b.buffer p d, p, b.writerIndex⟩, ?_, ⟨?_, ?_, ?_⟩, ?_⟩
  · simp only [prepend, check_bind _ hl, e]
    exact storeAt_eq hroom
  · simp only
    omega
  · simp only [Mem.length_store hroom]
    exact hwl
  · simp only [Mem.length_store hroom]
    exact h.cheap_le
  · have e1 : b.writerIndex - p = d.length + (b.writerIndex - b.readerIndex) := by omega
    have e2 : p + d.length = b.readerIndex := by omega
    simp only [content]
    rw [e1, ← Mem.slice_append_slice, Mem.slice_store_self hroom,
      Mem.slice_store_after hroom (by omega), e2]

/-! ## Reading -/

theorem retrieveAll_spec (h : b.Valid) : Post b b.retrieveAll [] := by
  refine ⟨⟨le_rfl, h.cheap_le, h.cheap_le⟩, ?_, fun _ => le_rfl⟩
  simp only [content, retrieveAll, Nat.sub_self, Mem.slice_zero]

theorem retrieve_spec (h : b.Valid) (hs : b.buffer.length < 2 ^ 63) {len : ℕ}
    (hl : len ≤ b.readableBytes) :
    ∃ b', b.retrieve len = .ok b' ∧ Post b b' (b.content.drop len) := by
  have hrw := h.reader_le
  have hwl := h.writer_le
  have hlen := h.length_content hs
  have hr := h.readableBytes_eq hs
  by_cases hlt : len < b.readableBytes
  · refine ⟨{ b with readerIndex := b.readerIndex + len }, ?_, ⟨?_, ?_, h.cheap_le⟩, ?_, ?_⟩
    · simp only [retrieve, check_bind _ hl, if_pos hlt, Word.add_of_lt (w := 64)
        (a := b.readerIndex) (b := len) (by omega), pure_eq_ok]
    · simp only
      omega
    · exact hwl
    · simp only [content]
      rw [Mem.drop_slice]
      congr 1
      omega
    · simp only
      omega
  · have hall := retrieveAll_spec h
    refine ⟨b.retrieveAll, ?_, hall.valid, ?_, hall.cheap⟩
    · simp only [retrieve, check_bind _ hl, if_neg hlt, pure_eq_ok]
    · rw [hall.content_eq, List.drop_of_length_le (by omega)]

theorem retrieveUntil_spec (h : b.Valid) (hs : b.buffer.length < 2 ^ 63) {end_ : ℕ}
    (h1 : b.readerIndex ≤ end_) (h2 : end_ ≤ b.writerIndex) :
    ∃ b', b.retrieveUntil end_ = .ok b' ∧ Post b b' (b.content.drop (end_ - b.readerIndex)) := by
  have hwl := h.writer_le
  have e : Word.sub 64 end_ b.readerIndex = end_ - b.readerIndex := Word.sub_of_le h1 (by omega)
  have hl : end_ - b.readerIndex ≤ b.readableBytes := by rw [h.readableBytes_eq hs]; omega
  obtain ⟨b', hb', hpost⟩ := retrieve_spec h hs hl
  refine ⟨b', ?_, hpost⟩
  simp only [retrieveUntil, check_bind _ h1, check_bind _ h2, e]
  exact hb'

theorem retrieveAsString_spec (h : b.Valid) (hs : b.buffer.length < 2 ^ 63) {len : ℕ}
    (hl : len ≤ b.readableBytes) :
    ∃ b', b.retrieveAsString len = .ok (b', b.content.take len) ∧
      Post b b' (b.content.drop len) := by
  have hrw := h.reader_le
  have hwl := h.writer_le
  have hr := h.readableBytes_eq hs
  obtain ⟨b', hb', hpost⟩ := retrieve_spec h hs hl
  refine ⟨b', ?_, hpost⟩
  have hload : b.loadAt b.readerIndex len = .ok (b.content.take len) := by
    rw [loadAt_eq (by omega), content, Mem.take_slice (by omega)]
  simp only [retrieveAsString, check_bind _ hl, hload, ok_bind, hb', pure_eq_ok]

/-! ## Construction and `shrink` -/

theorem make_spec (initialSize : ℕ) (hs : initialSize + kCheapPrepend < 2 ^ 63) :
    ∃ b, make initialSize = .ok b ∧ b.Valid ∧ b.content = [] ∧ b.readerIndex = kCheapPrepend ∧
      b.buffer.length = initialSize + kCheapPrepend := by
  have e : Word.add 64 initialSize kCheapPrepend = initialSize + kCheapPrepend :=
    Word.add_of_lt (by omega)
  set b : Buffer :=
    ⟨List.replicate (initialSize + kCheapPrepend) 0, kCheapPrepend, kCheapPrepend⟩ with hb
  have hlen : b.buffer.length = initialSize + kCheapPrepend := List.length_replicate
  have hv : b.Valid := ⟨le_rfl, by rw [hlen]; simp [hb], by omega⟩
  have hread : b.readableBytes = 0 := by
    rw [hv.readableBytes_eq (by omega)]; simp [hb]
  have hwrite : b.writableBytes = initialSize := by
    rw [hv.writableBytes_eq (by omega), hlen]; simp [hb]
  refine ⟨b, ?_, hv, ?_, rfl, hlen⟩
  · simp only [make, e, check_bind _ (show initialSize + kCheapPrepend ≤ maxSize by
      unfold maxSize; omega)]
    rw [← hb, check_bind _ hread, check_bind _ hwrite,
      check_bind _ (show b.prependableBytes = kCheapPrepend from rfl)]
    rfl
  · simp [content, hb]

/-- `shrink` keeps the bytes and leaves room for `reserve` more. -/
theorem shrink_spec (h : b.Valid) (hs : b.buffer.length < 2 ^ 31) (reserve : ℕ)
    (hres : reserve < 2 ^ 62) :
    ∃ b', b.shrink reserve = .ok b' ∧ Post b b' b.content ∧ reserve ≤ b'.writableBytes ∧
      kCheapPrepend ≤ b'.readerIndex := by
  have hrw := h.reader_le
  have hwl := h.writer_le
  have hread := h.readableBytes_eq (by omega)
  have hlen := h.length_content (by omega)
  obtain ⟨o, ho, hov, hoc, hor, hol⟩ := make_spec kInitialSize (by decide)
  have hosize : o.buffer.length = 1032 := hol
  have e : Word.add 64 b.readableBytes reserve = b.readableBytes + reserve :=
    Word.add_of_lt (by omega)
  have how := hov.writer_le
  obtain ⟨o₁, ho₁, hroom⟩ := ensureWritableBytes_spec hov (b.readableBytes + reserve)
    (by omega) (by omega)
  have hsize := hroom.size_le
  have hrm := hroom.room
  -- the readable size survives the conversions to `int` and back
  have hpiece : b.pieceLength = b.readableBytes := by
    unfold pieceLength
    rw [Word.toSigned_of_lt (by omega), Word.ofSigned_natCast (by omega)]
  have hload : b.loadAt b.readerIndex b.pieceLength = .ok b.content := by
    rw [hpiece, loadAt_eq (by omega), hread]
    rfl
  obtain ⟨o₂, ho₂, hpost, hw⟩ := append_room hroom.valid (d := b.content) (by omega) (by omega)
  have hcheap : kCheapPrepend ≤ o₂.readerIndex := hpost.cheap (hroom.cheap hor.ge)
  refine ⟨o₂, ?_, ⟨hpost.valid, ?_, fun _ => hcheap⟩, by omega, hcheap⟩
  · simp only [shrink, ho, Except.mapError, ok_bind, e, ho₁, hload, ho₂, swap, pure_eq_ok]
  · rw [hpost.content_eq, hroom.content_eq, hoc, List.nil_append]

end MengSen.Net.Buffer

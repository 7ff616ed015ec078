import MengSen.Net.BufferQueue

/-!
# Net.BufferLimits — buffers of any size

The vector of a buffer has at most `max_size()` bytes, so no sum of its indices wraps; a sum with
the `size_t` argument of `ensureWritableBytes` can.  `Sound` is the invariant without a bound on
the sizes: the index invariant, and the bound of the vector.  `Use` are the calls of a family of
buffers, and the direct writes of a caller at `beginWrite()`.

`makeSpace` compares two sums and resizes by a third.  When the third one wraps, the vector shrinks
below `writerIndex_` and `writableBytes()` is the wrapped length, so that the closing assert holds;
when `len + kCheapPrepend` wraps, the buffer is tidied before that assert fails.  `SumsFit` says when
neither happens.
-/

namespace MengSen.Net.Buffer

open Machine (check check_bind check_bind_eq_ok bind_eq_ok mapError_eq_ok ok_bind pure_eq_ok)

variable {b b' : Buffer} {len : ℕ}

/-- The index invariant, with a vector of any size. -/
structure Sound (b : Buffer) : Prop extends Valid b where
  size_le : b.buffer.length ≤ maxSize

theorem Sound.lt (h : b.Sound) : b.buffer.length < 2 ^ 63 := by
  have := h.size_le
  unfold maxSize at this
  omega

/-! ## `ensureWritableBytes` -/

/-- What is promised of `ensureWritableBytes(len)`: room for `len` bytes, the readable bytes
unchanged, or a refusal that leaves the size of the vector and the indices alone. -/
def Ensures (b : Buffer) (len : ℕ) : Prop :=
  match b.ensureWritableBytes len with
  | .ok b' => b'.readerIndex ≤ b'.writerIndex ∧ b'.writerIndex ≤ b'.buffer.length ∧
      b'.content = b.content ∧ len ≤ b'.buffer.length - b'.writerIndex
  | .error f => (f.fault = .lengthError ∨ f.fault = .assertion) ∧
      f.state.buffer.length = b.buffer.length ∧ f.state.readerIndex = b.readerIndex ∧
      f.state.writerIndex = b.writerIndex

/-- The two good outcomes: room was made, or nothing was changed. -/
inductive Ensured (b : Buffer) (len : ℕ) : Prop
  | room {b' : Buffer} (hb : b.ensureWritableBytes len = .ok b') (hroom : Room b b' len)
    (size_le : b'.buffer.length ≤ maxSize)
  | refused {fault : Fault} (hb : b.ensureWritableBytes len = .error ⟨fault, b⟩)
    (hfault : fault = .lengthError ∧ maxSize < b.writerIndex + len ∨
      fault = .assertion ∧ 2 ^ 64 ≤ len + kCheapPrepend)

/-- `writerIndex_ + len` does not wrap; or `len + kCheapPrepend` wraps and is then no more than
`writableBytes() + prependableBytes()`, and the readable bytes are not past the cheap zone. -/
def SumsFit (b : Buffer) (len : ℕ) : Prop :=
  b.writerIndex + len < 2 ^ 64 ∨
    2 ^ 64 ≤ len + kCheapPrepend ∧ b.readerIndex ≤ kCheapPrepend ∧
      len + kCheapPrepend - 2 ^ 64 ≤ b.writableBytes + b.prependableBytes

instance (b : Buffer) (len : ℕ) : Decidable (SumsFit b len) :=
  inferInstanceAs (Decidable (_ ∨ _))

section Ensure

variable (h : b.Sound)
include h

theorem Sound.writable_eq : b.writableBytes = b.buffer.length - b.writerIndex :=
  h.toValid.writableBytes_eq h.lt

/-- Room enough: nothing to do. -/
theorem ensure_enough (hl : b.writerIndex + len ≤ b.buffer.length) :
    b.ensureWritableBytes len = .ok b := by
  have hw : len ≤ b.writableBytes := by rw [h.writable_eq]; omega
  simp only [ensureWritableBytes, if_neg (not_lt.mpr hw), pure_eq_ok, ok_bind, check_bind _ hw]

/-- Not enough room: `makeSpace`, then the closing assert. -/
theorem ensure_makeSpace (hl : b.buffer.length < b.writerIndex + len) :
    b.ensureWritableBytes len = (b.makeSpace len >>= fun b' => do
      check (len ≤ b'.writableBytes) ⟨.assertion, b'⟩
      return b') := by
  have hwl := h.writer_le
  have hw : b.writableBytes < len := by rw [h.writable_eq]; omega
  simp only [ensureWritableBytes, if_pos hw]

omit h in
theorem Ensured.ensures (he : Ensured b len) : Ensures b len := by
  cases he with
  | room hb hroom hsize =>
    have hw := hroom.room
    rw [hroom.valid.writableBytes_eq (Sound.lt ⟨hroom.valid, hsize⟩)] at hw
    rw [Ensures, hb]
    exact ⟨hroom.valid.reader_le, hroom.valid.writer_le, hroom.content_eq, hw⟩
  | refused hb hfault =>
    rw [Ensures, hb]
    exact ⟨hfault.imp And.left And.left, rfl, rfl, rfl⟩

/-- The readable bytes slide. -/
theorem ensured_slide (hl : b.buffer.length < b.writerIndex + len)
    (hfit : len + kCheapPrepend ≤ b.buffer.length - b.writerIndex + b.readerIndex) :
    Ensured b len := by
  have hs := h.lt
  have hrw := h.reader_le
  have hwl := h.writer_le
  have hr : kCheapPrepend < b.readerIndex := by omega
  have hroom := slide_room h.toValid len hs hr hfit
  have e : Word.add 64 len kCheapPrepend = len + kCheapPrepend := Word.add_of_lt (by omega)
  refine .room ?_ hroom (by rw [length_tidied]; exact h.size_le)
  rw [ensure_makeSpace h hl, makeSpace_slide h.toValid hs hr (by omega), ok_bind,
    check_bind _ hroom.room, pure_eq_ok]

/-- The vector grows, or refuses to. -/
theorem ensured_resize (hl : b.buffer.length < b.writerIndex + len)
    (hsum : b.buffer.length - b.writerIndex + b.readerIndex < Word.add 64 len kCheapPrepend)
    (hlt : b.writerIndex + len < 2 ^ 64) : Ensured b len := by
  have hs := h.lt
  have hwl := h.writer_le
  by_cases hmax : b.writerIndex + len ≤ maxSize
  · have hm : b.writerIndex + len < 2 ^ 63 := by unfold maxSize at hmax; omega
    obtain ⟨b', hb', hroom⟩ := ensureWritableBytes_spec h.toValid len hs hm
    exact .room hb' hroom (ensureWritableBytes_size_le h.size_le hb')
  · refine .refused ?_ (.inl ⟨rfl, not_le.mp hmax⟩)
    rw [ensure_makeSpace h hl, makeSpace, h.toValid.room_eq hs, if_pos hsum, Word.add_of_lt hlt,
      resize, if_pos (not_le.mp hmax)]
    rfl

/-- **The third sum wraps**: the vector shrinks below `writerIndex_`, and the closing assert holds,
`writableBytes()` being the wrapped length. -/
theorem ensure_shrinks (hlen : len < 2 ^ 64)
    (hsum : b.buffer.length - b.writerIndex + b.readerIndex < Word.add 64 len kCheapPrepend)
    (hwrap : 2 ^ 64 ≤ b.writerIndex + len) :
    ∃ b', b.ensureWritableBytes len = .ok b' ∧ b'.buffer.length < b'.writerIndex := by
  have hs := h.lt
  have hwl := h.writer_le
  set n := b.writerIndex + len - 2 ^ 64 with hn
  have hnw : n < b.writerIndex := by omega
  have hadd : Word.add 64 b.writerIndex len = n := by
    rw [Word.add, Word.wrap, Nat.mod_eq_sub_mod hwrap, ← hn, Nat.mod_eq_of_lt (by omega)]
  have hlength : (b.buffer.take n).length = n := by rw [List.length_take]; omega
  have hresize : b.resize n = .ok { b with buffer := b.buffer.take n } := by
    have hmax : ¬ maxSize < n := by unfold maxSize; omega
    rw [resize, if_neg hmax, show n - b.buffer.length = 0 by omega, List.replicate_zero,
      List.append_nil]
  have hroom : len ≤ writableBytes { b with buffer := b.buffer.take n } := by
    unfold writableBytes
    simp only [hlength]
    rw [Word.sub_of_lt hnw (by omega)]
    omega
  refine ⟨{ b with buffer := b.buffer.take n }, ?_, by simp only [hlength]; exact hnw⟩
  rw [ensure_makeSpace h (by omega), makeSpace, h.toValid.room_eq hs, if_pos hsum, hadd, hresize,
    ok_bind, check_bind _ hroom, pure_eq_ok]

/-- **The second sum wraps**: the closing assert fails, after the readable bytes were moved. -/
theorem ensure_tidies (hlen : len < 2 ^ 64) (hwrap : 2 ^ 64 ≤ len + kCheapPrepend)
    (hr : kCheapPrepend < b.readerIndex)
    (hsum : Word.add 64 len kCheapPrepend ≤ b.buffer.length - b.writerIndex + b.readerIndex) :
    b.ensureWritableBytes len = .error ⟨.assertion, b.tidied⟩ := by
  have hs := h.lt
  have hroom := (slide_room h.toValid 0 hs hr (by omega)).valid.writableBytes_eq
    (by rw [length_tidied]; exact hs)
  have hw : ¬ len ≤ b.tidied.writableBytes := by
    rw [hroom, length_tidied]
    unfold kCheapPrepend at hwrap
    omega
  have hl : b.buffer.length < b.writerIndex + len := by unfold kCheapPrepend at hwrap; omega
  rw [ensure_makeSpace h hl, makeSpace_slide h.toValid hs hr hsum, ok_bind, check, if_neg hw]
  rfl

/-- The second sum wraps, and the assert of `makeSpace` refuses. -/
theorem ensured_assert (hlen : len < 2 ^ 64) (hwrap : 2 ^ 64 ≤ len + kCheapPrepend)
    (hr : b.readerIndex ≤ kCheapPrepend)
    (hsum : Word.add 64 len kCheapPrepend ≤ b.buffer.length - b.writerIndex + b.readerIndex) :
    Ensured b len := by
  have hs := h.lt
  have hl : b.buffer.length < b.writerIndex + len := by unfold kCheapPrepend at hwrap; omega
  refine .refused ?_ (.inr ⟨rfl, hwrap⟩)
  rw [ensure_makeSpace h hl, makeSpace, h.toValid.room_eq hs, if_neg (not_lt.mpr hsum), check,
    if_neg (not_lt.mpr hr)]
  rfl

/-- Every call does one or the other: it ends well, or one of the last two sums wrapped. -/
theorem Sound.ensure_cases (hlen : len < 2 ^ 64) :
    SumsFit b len ∧ Ensured b len ∨ ¬ SumsFit b len ∧ ¬ Ensures b len := by
  have hs := h.lt
  have hrw := h.reader_le
  have hwl := h.writer_le
  have hc := h.cheap_le
  have hk : kCheapPrepend = 8 := rfl
  have hsums : b.writableBytes + b.prependableBytes =
      b.buffer.length - b.writerIndex + b.readerIndex := by
    rw [h.writable_eq, prependableBytes]
  unfold SumsFit
  rw [hsums]
  have hshrunk : (∃ b', b.ensureWritableBytes len = .ok b' ∧ b'.buffer.length < b'.writerIndex) →
      ¬ Ensures b len := by
    rintro ⟨b', hb', hbad⟩
    rw [Ensures, hb']
    exact fun hok => absurd hok.2.1 (by omega)
  by_cases hl : b.writerIndex + len ≤ b.buffer.length
  · have hroom : len ≤ b.writableBytes := by rw [h.writable_eq]; omega
    exact .inl ⟨.inl (by omega), .room (ensure_enough h hl)
      ⟨⟨h.toValid, rfl, id⟩, hroom, Nat.le_add_right _ _⟩ h.size_le⟩
  · by_cases h8 : len + kCheapPrepend < 2 ^ 64
    · have e : Word.add 64 len kCheapPrepend = len + kCheapPrepend := Word.add_of_lt h8
      by_cases hfit : len + kCheapPrepend ≤ b.buffer.length - b.writerIndex + b.readerIndex
      · exact .inl ⟨.inl (by omega), ensured_slide h (by omega) hfit⟩
      · by_cases hlt : b.writerIndex + len < 2 ^ 64
        · exact .inl ⟨.inl hlt, ensured_resize h (by omega) (by omega) hlt⟩
        · exact .inr ⟨by omega, hshrunk (ensure_shrinks h hlen (by omega) (by omega))⟩
    · have e : Word.add 64 len kCheapPrepend = len + kCheapPrepend - 2 ^ 64 := by
        rw [Word.add, Word.wrap, Nat.mod_eq_sub_mod (by omega), Nat.mod_eq_of_lt (by omega)]
      by_cases hfit : len + kCheapPrepend - 2 ^ 64 ≤
          b.buffer.length - b.writerIndex + b.readerIndex
      · by_cases hr : b.readerIndex ≤ kCheapPrepend
        · exact .inl ⟨.inr ⟨by omega, hr, hfit⟩, ensured_assert h hlen (by omega) hr (by omega)⟩
        · have hb := ensure_tidies h hlen (by omega) (not_le.mp hr) (by omega)
          refine .inr ⟨by omega, ?_⟩
          rw [Ensures, hb]
          exact fun hok => hr (le_of_eq hok.2.2.1.symm)
      · exact .inr ⟨by omega, hshrunk (ensure_shrinks h hlen (by omega) (by omega))⟩

theorem Sound.ensures_iff (hlen : len < 2 ^ 64) : Ensures b len ↔ SumsFit b len := by
  rcases h.ensure_cases hlen with ⟨hfit, he⟩ | ⟨hfit, he⟩
  · exact iff_of_true he.ensures hfit
  · exact iff_of_false he hfit

/-- A call whose sums fit, and that returns, has made room. -/
theorem Sound.ensure_ok (hlen : len < 2 ^ 64) (hfit : SumsFit b len)
    (hb : b.ensureWritableBytes len = .ok b') : b'.Sound ∧ Room b b' len := by
  rcases h.ensure_cases hlen with ⟨-, he⟩ | ⟨hno, -⟩
  · cases he with
    | room hb' hroom hsize =>
      obtain rfl := Except.ok.inj (hb'.symm.trans hb)
      exact ⟨⟨hroom.valid, hsize⟩, hroom⟩
    | refused hb' hfault => exact absurd (hb'.symm.trans hb) (by simp)
  · exact absurd hfit hno

end Ensure

/-! ## The methods keep `Sound` -/

section Methods

variable {d : List UInt8} {p : ℕ}

theorem storeAt_ok (hb : b.storeAt p d = .ok b') :
    p + d.length ≤ b.buffer.length ∧ b' = { b with buffer := Mem.store b.buffer p d } := by
  unfold storeAt Mem.store? at hb
  by_cases hp : p + d.length ≤ b.buffer.length
  · rw [if_pos hp] at hb
    exact ⟨hp, (Except.ok.inj hb).symm⟩
  · rw [if_neg hp] at hb
    cases hb

theorem Sound.store (h : b.Sound) (hb : b.storeAt p d = .ok b') : b'.Sound := by
  obtain ⟨hp, rfl⟩ := storeAt_ok hb
  have hlen := Mem.length_store hp
  exact ⟨⟨h.reader_le, hlen ▸ h.writer_le, hlen ▸ h.cheap_le⟩, hlen ▸ h.size_le⟩

theorem Sound.hasWritten (h : b.Sound) (hb : b.hasWritten len = .ok b') : b'.Sound := by
  obtain ⟨hl, hb⟩ := check_bind_eq_ok.mp hb
  obtain ⟨c, hc, hpost⟩ := hasWritten_spec h.toValid h.lt len hl
  rw [Buffer.hasWritten, check_bind _ hl] at hc
  obtain rfl := Except.ok.inj (hc.symm.trans hb)
  obtain rfl := Except.ok.inj hb
  exact ⟨hpost.valid, h.size_le⟩

theorem Sound.append (h : b.Sound) (hd : d.length < 2 ^ 63) (hb : b.append d = .ok b') :
    b'.Sound := by
  have hs := h.lt
  have hwl := h.writer_le
  obtain ⟨b₁, hb₁, hb⟩ := bind_eq_ok.mp hb
  obtain ⟨b₂, hb₂, hb⟩ := bind_eq_ok.mp hb
  exact (((h.ensure_ok (by omega) (.inl (by omega)) hb₁).1).store hb₂).hasWritten hb

/-- `append` returns, or the vector cannot grow. -/
theorem Sound.append_cases (h : b.Sound) (hd : d.length < 2 ^ 63) :
    (∃ b', b.append d = .ok b' ∧ b'.Sound ∧ Post b b' (b.content ++ d)) ∨
      b.append d = .error ⟨.lengthError, b⟩ ∧ maxSize < b.writerIndex + d.length := by
  have hs := h.lt
  have hwl := h.writer_le
  rcases h.ensure_cases (show d.length < 2 ^ 64 by omega) with ⟨-, he⟩ | ⟨hno, -⟩
  · cases he with
    | @room b₁ hb₁ hroom hsize =>
      obtain ⟨b₂, hb₂, hpost, -⟩ := write_spec hroom.valid (Sound.lt ⟨hroom.valid, hsize⟩) hroom.room
      have hb : b.append d = .ok b₂ := by
        rw [Buffer.append, hb₁, ok_bind]
        exact hb₂
      exact .inl ⟨b₂, hb, h.append hd hb, hpost.valid, hpost.content_eq.trans (by
        rw [hroom.content_eq]), hpost.cheap ∘ hroom.cheap⟩
    | refused hb₁ hfault =>
      rcases hfault with ⟨rfl, hmax⟩ | ⟨-, hwrap⟩
      · refine .inr ⟨?_, hmax⟩
        rw [Buffer.append, hb₁]
        rfl
      · unfold kCheapPrepend at hwrap
        omega
  · exact absurd (.inl (by omega)) hno

theorem Sound.retrieve (h : b.Sound) (hb : b.retrieve len = .ok b') : b'.Sound := by
  obtain ⟨hl, -⟩ := check_bind_eq_ok.mp hb
  obtain ⟨c, hc, hpost⟩ := retrieve_spec h.toValid h.lt hl
  obtain rfl := Except.ok.inj (hc.symm.trans hb)
  refine ⟨hpost.valid, ?_⟩
  by_cases hlt : len < b.readableBytes
  · simp only [Buffer.retrieve, check_bind _ hl, if_pos hlt, pure_eq_ok, Except.ok.injEq] at hb
    exact hb ▸ h.size_le
  · simp only [Buffer.retrieve, check_bind _ hl, if_neg hlt, pure_eq_ok, Except.ok.injEq] at hb
    exact hb ▸ h.size_le

theorem Sound.prepend (h : b.Sound) (hb : b.prepend d = .ok b') : b'.Sound := by
  obtain ⟨hl, hb'⟩ := check_bind_eq_ok.mp hb
  obtain ⟨c, hc, hv, -⟩ := prepend_spec h.toValid h.lt hl
  obtain rfl := Except.ok.inj (hc.symm.trans hb)
  obtain ⟨hp, rfl⟩ := storeAt_ok hb'
  refine ⟨hv, ?_⟩
  simp only [Mem.length_store hp]
  exact h.size_le

theorem Sound.unwrite (h : b.Sound) (hb : b.unwrite len = .ok b') : b'.Sound := by
  obtain ⟨hl, hb'⟩ := check_bind_eq_ok.mp hb
  obtain ⟨c, hc, hpost⟩ := unwrite_spec h.toValid h.lt hl
  obtain rfl := Except.ok.inj (hc.symm.trans hb)
  obtain rfl := Except.ok.inj hb'
  exact ⟨hpost.valid, h.size_le⟩

theorem make_sound {n : ℕ} (hn : n < 2 ^ 63) (hb : make n = .ok b) :
    b.Sound ∧ b.readerIndex = kCheapPrepend ∧ b.writerIndex = kCheapPrepend := by
  have e : Word.add 64 n kCheapPrepend = n + kCheapPrepend :=
    Word.add_of_lt (by unfold kCheapPrepend; omega)
  simp only [make, e] at hb
  obtain ⟨hmax, hb⟩ := check_bind_eq_ok.mp hb
  obtain ⟨-, hb⟩ := check_bind_eq_ok.mp hb
  obtain ⟨-, hb⟩ := check_bind_eq_ok.mp hb
  obtain ⟨-, hb⟩ := check_bind_eq_ok.mp hb
  obtain rfl := Except.ok.inj hb
  have hlen : (List.replicate (n + kCheapPrepend) (0 : UInt8)).length = n + kCheapPrepend :=
    List.length_replicate
  exact ⟨⟨⟨le_rfl, by simp only [hlen]; omega, by simp only [hlen]; omega⟩,
    by simp only [hlen]; exact hmax⟩, rfl, rfl⟩

theorem Sound.shrink {reserve : ℕ} (h : b.Sound) (hb : b.shrink reserve = .ok b') : b'.Sound := by
  obtain ⟨o, ho, hb⟩ := bind_eq_ok.mp hb
  obtain ⟨o₁, ho₁, hb⟩ := bind_eq_ok.mp hb
  obtain ⟨data, hdata, hb⟩ := bind_eq_ok.mp hb
  obtain ⟨o₂, ho₂, hb⟩ := bind_eq_ok.mp hb
  obtain rfl := Except.ok.inj hb
  -- any number of bytes may be asked of a fresh buffer
  obtain ⟨hso, hr, hw⟩ := make_sound (by decide) (mapError_eq_ok ho)
  have hwr := hso.writable_eq
  have hlen := hso.cheap_le
  have hadd := Word.wrap_lt (w := 64) (b.readableBytes + reserve)
  have hfit : SumsFit o (Word.add 64 b.readableBytes reserve) := by
    by_cases hlt : o.writerIndex + Word.add 64 b.readableBytes reserve < 2 ^ 64
    · exact .inl hlt
    · refine .inr ⟨by omega, hr.le, ?_⟩
      have hp : o.prependableBytes = kCheapPrepend := hr
      rw [hp]
      unfold Word.add
      omega
  have hs₁ := (hso.ensure_ok hadd hfit (mapError_eq_ok ho₁)).1
  refine hs₁.append ?_ (mapError_eq_ok ho₂)
  unfold loadAt Mem.read? at hdata
  by_cases hp : b.readerIndex + b.pieceLength ≤ b.buffer.length
  · rw [if_pos hp] at hdata
    obtain rfl := Except.ok.inj hdata
    rw [Mem.length_slice hp]
    exact lt_of_le_of_lt (le_trans (Nat.le_add_left _ _) hp) h.lt
  · rw [if_neg hp] at hdata
    cases hdata

end Methods

/-! ## Runs -/

/-- A call of a method, or a caller's own write of `data` at `beginWrite()`. -/
inductive Use (ι : Type)
  | call (c : Command ι)
  | fill (i : ι) (data : List UInt8)

variable {ι : Type} [DecidableEq ι] {w : World ι}

def World.use (w : World ι) : Use ι → Option (Except Failure (World ι))
  | .call c => w.act c
  | .fill i data => some do
    let b ← (w.buffers i).storeAt (w.buffers i).writerIndex data
    return { w with buffers := Function.update w.buffers i b }

/-- Buffers built with initial sizes below `2 ^ 63`. -/
def uses (ι : Type) [DecidableEq ι] : Machine (World ι) (Use ι) Failure where
  init w := (∀ i, ∃ initialSize < 2 ^ 63, make initialSize = .ok (w.buffers i)) ∧ w.out = [] ∧
    w.prepended = false
  act := World.use

/-- Appended data is shorter than `2 ^ 63`, and the sums of `ensureWritableBytes` fit. -/
def Op.Fits (b : Buffer) : Op → Prop
  | .append data => data.length < 2 ^ 63
  | .ensureWritableBytes len => len < 2 ^ 64 ∧ SumsFit b len
  | _ => True

/-- The calls fit, and the caller writes into the write zone only. -/
def Fits (w : World ι) : Use ι → Prop
  | .call (.op i o) => o.Fits (w.buffers i)
  | .call (.swap _ _) => True
  | .fill i data => data.length ≤ (w.buffers i).writableBytes

omit [DecidableEq ι] in
/-- **One call** that returns. -/
theorem Sound.run {o : Op} {out : List (List UInt8)} (h : b.Sound) (hf : o.Fits b)
    (hr : o.run b = .ok (b', out)) : b'.Sound := by
  cases o with
  | append data =>
    obtain ⟨c, hc, hr⟩ := bind_eq_ok.mp hr
    cases hr
    exact h.append hf hc
  | retrieve len =>
    obtain ⟨c, hc, hr⟩ := bind_eq_ok.mp hr
    cases hr
    exact h.retrieve hc
  | retrieveUntil end_ =>
    obtain ⟨c, hc, hr⟩ := bind_eq_ok.mp hr
    cases hr
    obtain ⟨-, hc⟩ := check_bind_eq_ok.mp hc
    obtain ⟨-, hc⟩ := check_bind_eq_ok.mp hc
    exact h.retrieve hc
  | retrieveAll =>
    cases hr
    exact ⟨(retrieveAll_spec h.toValid).valid, h.size_le⟩
  | retrieveAsString len =>
    obtain ⟨c, hc, hr⟩ := bind_eq_ok.mp hr
    cases hr
    obtain ⟨-, hc⟩ := check_bind_eq_ok.mp hc
    obtain ⟨d, hd, hc⟩ := bind_eq_ok.mp hc
    obtain ⟨e, he, hc⟩ := bind_eq_ok.mp hc
    cases hc
    exact h.retrieve he
  | prepend data =>
    obtain ⟨c, hc, hr⟩ := bind_eq_ok.mp hr
    cases hr
    exact h.prepend hc
  | hasWritten len =>
    obtain ⟨c, hc, hr⟩ := bind_eq_ok.mp hr
    cases hr
    exact h.hasWritten hc
  | unwrite len =>
    obtain ⟨c, hc, hr⟩ := bind_eq_ok.mp hr
    cases hr
    exact h.unwrite hc
  | ensureWritableBytes len =>
    obtain ⟨c, hc, hr⟩ := bind_eq_ok.mp hr
    cases hr
    exact (h.ensure_ok hf.1 hf.2 hc).1
  | shrink reserve =>
    obtain ⟨c, hc, hr⟩ := bind_eq_ok.mp hr
    cases hr
    exact h.shrink hc

/-- **Run lemma**: buffers stay sound as long as the calls fit. -/
theorem reach_sound (h : (uses ι).Reach Fits w) : ∀ i, (w.buffers i).Sound := by
  refine Machine.Reach.induct (I := fun w => ∀ i, (w.buffers i).Sound) ?_ ?_ h
  · rintro w ⟨hb, -, -⟩ i
    obtain ⟨n, hn, hmake⟩ := hb i
    exact (make_sound hn hmake).1
  · intro w a t _ hsound hfit hs i
    cases a with
    | call c =>
      cases c with
      | op j o =>
        obtain ⟨⟨b, out⟩, hb, ht⟩ := bind_eq_ok.mp (Option.some.inj hs)
        cases ht
        by_cases hi : i = j
        · subst hi
          simp only [Function.update_self]
          exact (hsound i).run hfit hb
        · simp only [Function.update_of_ne hi]
          exact hsound i
      | swap j k =>
        cases hs
        by_cases hk : i = k
        · subst hk
          simp only [Function.update_self]
          exact hsound j
        · simp only [Function.update_of_ne hk]
          by_cases hj : i = j
          · subst hj
            simp only [Function.update_self]
            exact hsound k
          · simp only [Function.update_of_ne hj]
            exact hsound i
    | fill j data =>
      obtain ⟨b, hb, ht⟩ := bind_eq_ok.mp (Option.some.inj hs)
      cases ht
      by_cases hi : i = j
      · subst hi
        simp only [Function.update_self]
        exact (hsound i).store hb
      · simp only [Function.update_of_ne hi]
        exact hsound i

/-- **When `ensureWritableBytes` is safe**: in every state that buffers reach by calls whose sums
fit, for every 64-bit length, it makes the room or refuses before it has changed anything if and
only if its own sums fit. -/
theorem ensureWritableBytes_safe_iff (h : (uses ι).Reach Fits w) (i : ι) {len : ℕ}
    (hlen : len < 2 ^ 64) : Ensures (w.buffers i) len ↔ SumsFit (w.buffers i) len :=
  (reach_sound h i).ensures_iff hlen

theorem uses_threeBytes : (uses Unit).Reach Fits threeBytes := by
  have h0 : (uses Unit).Reach Fits ⟨fun _ => ⟨List.replicate 8 0, 8, 8⟩, [], false⟩ :=
    .init ⟨fun _ => ⟨0, by decide, rfl⟩, rfl, rfl⟩
  refine .step (a := .call (.op () (.append [1, 2, 3]))) h0 (by decide : [1, 2, 3].length < 2 ^ 63) ?_
  simp only [Machine.Step, uses, World.use, World.act]
  rfl

theorem ensureWritableBytes_safe_fourBytes : Ensures (threeBytes.buffers ()) 4 :=
  (ensureWritableBytes_safe_iff uses_threeBytes () (by decide)).mpr (.inl (by decide))

/-- Asked for `2 ^ 64 - 10` bytes, a vector of 11 bytes shrinks to one. -/
theorem ensureWritableBytes_shrinks : ∃ w : World Unit, (uses Unit).Reach Fits w ∧
    ∃ len < 2 ^ 64, ¬ Ensures (w.buffers ()) len := by
  refine ⟨threeBytes, uses_threeBytes, 2 ^ 64 - 10, by decide, ?_⟩
  have hb : (threeBytes.buffers ()).ensureWritableBytes (2 ^ 64 - 10) =
      .ok ⟨[0], 8, 11⟩ := by decide +kernel
  rw [Ensures, hb]
  exact fun hok => absurd hok.2.1 (by decide)

end MengSen.Net.Buffer

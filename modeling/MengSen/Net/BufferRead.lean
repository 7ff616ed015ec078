import MengSen.Net.BufferLimits

/-!
# Net.BufferRead — reading from a socket

`Buffer::readFd` of `net/Buffer.cpp`: `readv` fills the write zone and then a buffer on the stack,
which `append` puts behind.  What `readv` does is a parameter: its result, `errno`, and the bytes that
it stored in the two areas, in order.
-/

namespace MengSen.Net.Buffer

open Machine (ok_bind pure_eq_ok)

variable {b : Buffer}

/-- What `readv` returns and what it stored. -/
structure Readv where
  n : ℤ
  errno : ℤ
  data : List UInt8

/-- `sizeof(extrabuf)` -/
def sizeofExtrabuf : ℕ := 65536

def iovcnt (b : Buffer) : ℕ := if b.writableBytes < sizeofExtrabuf then 2 else 1

/-- The length of all areas that `readv` is given. -/
def iovLength (b : Buffer) : ℕ :=
  if b.iovcnt = 2 then b.writableBytes + sizeofExtrabuf else b.writableBytes

/-- The buffer after `readFd`, its result, and what it stored in `*savedErrno`. -/
structure ReadFd where
  buffer : Buffer
  n : ℤ
  savedErrno : Option ℤ

def readFd (b : Buffer) (r : Readv) : Except Failure ReadFd := do
  let writable := b.writableBytes
  -- `readv` itself: the write zone first
  let b ← b.storeAt b.writerIndex (r.data.take writable)
  let extrabuf := r.data.drop writable
  if r.n < 0 then
    return ⟨b, r.n, some r.errno⟩
  else if Word.ofSigned 64 r.n ≤ writable then
    return ⟨{ b with writerIndex := Word.add 64 b.writerIndex (Word.ofSigned 64 r.n) }, r.n, none⟩
  else
    let b := { b with writerIndex := b.buffer.length }
    let b ← b.append (extrabuf.take (Word.sub 64 (Word.ofSigned 64 r.n) writable))
    return ⟨b, r.n, none⟩

/-- A negative result with nothing stored, or the number of bytes stored in the areas. -/
def Readv.Possible (b : Buffer) (r : Readv) : Prop :=
  r.n < 0 ∧ r.data = [] ∨ r.n = r.data.length ∧ r.data.length ≤ b.iovLength

/-- Bytes that fit are written behind the readable ones. -/
theorem Sound.write (h : b.Sound) {d : List UInt8} (hl : d.length ≤ b.writableBytes) :
    ∃ m : List UInt8, b.storeAt b.writerIndex d = .ok { b with buffer := m } ∧
      m.length = b.buffer.length ∧
      Sound { b with buffer := m, writerIndex := b.writerIndex + d.length } ∧
      content { b with buffer := m, writerIndex := b.writerIndex + d.length } = b.content ++ d := by
  have hwl := h.writer_le
  have hs := h.lt
  have hroom : b.writerIndex + d.length ≤ b.buffer.length := by
    rw [h.writable_eq] at hl
    omega
  obtain ⟨b', hb', hpost, -⟩ := write_spec h.toValid hs hl
  rw [storeAt_eq hroom, ok_bind] at hb'
  have hsound := (h.store (storeAt_eq hroom)).hasWritten hb'
  obtain ⟨-, hb'⟩ := Machine.check_bind_eq_ok.mp hb'
  obtain rfl := Except.ok.inj hb'
  have e : Word.add 64 b.writerIndex d.length = b.writerIndex + d.length :=
    Word.add_of_lt (by omega)
  simp only [e] at hsound hpost
  exact ⟨Mem.store b.buffer b.writerIndex d, storeAt_eq hroom, Mem.length_store hroom, hsound,
    hpost.content_eq⟩

/-- A negative result changes nothing. -/
theorem Sound.readFd_failed (h : b.Sound) {r : Readv} (hn : r.n < 0) (hdata : r.data = []) :
    b.readFd r = .ok ⟨b, r.n, some r.errno⟩ := by
  obtain ⟨n, errno, data⟩ := r
  obtain rfl : data = [] := hdata
  have hwl := h.writer_le
  have hstore : b.storeAt b.writerIndex ([] : List UInt8) = .ok b := by
    rw [storeAt_eq (by simpa using hwl), Mem.store, List.append_nil, List.length_nil, Nat.add_zero,
      List.take_append_drop]
  simp only [readFd, List.take_nil, hstore, ok_bind, if_pos hn, pure_eq_ok]

/-- **What `readv` delivered** is appended, unless the vector cannot grow for it. -/
theorem Sound.readFd_stored (h : b.Sound) {r : Readv} (hn : r.n = r.data.length)
    (hdata : r.data.length ≤ b.iovLength) :
    (∃ b', b.readFd r = .ok ⟨b', r.n, none⟩ ∧ b'.Sound ∧ b'.content = b.content ++ r.data) ∨
    ∃ f, b.readFd r = .error f ∧ f.fault = .lengthError ∧
      maxSize < b.buffer.length + (r.data.length - b.writableBytes) := by
  obtain ⟨n, errno, data⟩ := r
  obtain rfl : n = data.length := hn
  have hs := h.lt
  have hwl := h.writer_le
  have hw := h.writable_eq
  have hle : data.length ≤ b.writableBytes + sizeofExtrabuf := by
    simp only [iovLength] at hdata
    split at hdata <;> omega
  have hneg : ¬ ((data.length : ℤ) < 0) := by omega
  have hcast : Word.ofSigned 64 (data.length : ℤ) = data.length :=
    Word.ofSigned_natCast (by unfold sizeofExtrabuf at hle; omega)
  by_cases hfit : data.length ≤ b.writableBytes
  · obtain ⟨m, hm, -, hsound, hc⟩ := h.write hfit
    have e : Word.add 64 b.writerIndex data.length = b.writerIndex + data.length :=
      Word.add_of_lt (by omega)
    refine .inl ⟨_, ?_, hsound, hc⟩
    simp only [readFd, List.take_of_length_le hfit, hm, ok_bind, if_neg hneg, hcast, if_pos hfit, e,
      pure_eq_ok]
  · -- the write zone is full, the rest comes from `extrabuf`
    have hlen : (data.take b.writableBytes).length = b.writableBytes := by
      rw [List.length_take]
      omega
    obtain ⟨m, hm, hml, hsound, hc⟩ := h.write hlen.le
    have hfull : b.writerIndex + b.writableBytes = m.length := by omega
    rw [hlen, hfull] at hsound hc
    set c : Buffer := { b with buffer := m, writerIndex := m.length } with hcdef
    have hrest : (data.drop b.writableBytes).length = data.length - b.writableBytes :=
      List.length_drop
    have htake : (data.drop b.writableBytes).take (Word.sub 64 data.length b.writableBytes) =
        data.drop b.writableBytes := by
      rw [Word.sub_of_le (by omega) (by unfold sizeofExtrabuf at hle; omega)]
      exact List.take_of_length_le hrest.le
    have hcall : b.readFd ⟨data.length, errno, data⟩ = (do
        let b' ← c.append (data.drop b.writableBytes)
        return ⟨b', data.length, none⟩) := by
      simp only [readFd, hm, ok_bind, if_neg hneg, hcast, if_neg hfit, htake, ← hcdef]
    rcases hsound.append_cases (d := data.drop b.writableBytes)
      (by unfold sizeofExtrabuf at hle; omega) with ⟨b', hb', hsound', hpost⟩ | ⟨herr, hmax⟩
    · refine .inl ⟨b', by rw [hcall, hb', ok_bind, pure_eq_ok], hsound', ?_⟩
      rw [hpost.content_eq, hc, List.append_assoc, List.take_append_drop]
    · refine .inr ⟨_, by rw [hcall, herr]; rfl, rfl, ?_⟩
      rw [hrest] at hmax
      rw [← hml]
      exact hmax

/-- `readv` stores at most 131071 bytes when it is given `extrabuf`. -/
theorem length_lt_of_extrabuf {r : Readv} (hr : r.Possible b) (hcnt : b.iovcnt = 2) :
    r.n ≤ 131071 := by
  rcases hr with ⟨hn, -⟩ | ⟨hn, hdata⟩
  · omega
  · rw [iovLength, if_pos hcnt] at hdata
    unfold iovcnt at hcnt
    split at hcnt
    · next hlt =>
      unfold sizeofExtrabuf at hlt hdata
      omega
    · cases hcnt

/-- **`readFd`**: in every state that buffers reach, for everything that `readv` can do: a negative
result leaves the buffer alone and sets `*savedErrno`; otherwise the bytes delivered come behind the
readable ones, no assert fails and the index invariant holds, unless the vector would have to grow
past `max_size()`; and with `extrabuf` the result is at most 131071. -/
theorem readFd_appends {ι : Type} [DecidableEq ι] {w : World ι} (h : (uses ι).Reach Fits w) (i : ι)
    {r : Readv} (hr : r.Possible (w.buffers i)) :
    (r.n < 0 → (w.buffers i).readFd r = .ok ⟨w.buffers i, r.n, some r.errno⟩) ∧
    (0 ≤ r.n →
      (∃ b', (w.buffers i).readFd r = .ok ⟨b', r.n, none⟩ ∧ b'.Valid ∧
        b'.content = (w.buffers i).content ++ r.data) ∨
      ∃ f, (w.buffers i).readFd r = .error f ∧ f.fault = .lengthError ∧
        maxSize < (w.buffers i).buffer.length + (r.data.length - (w.buffers i).writableBytes)) ∧
    ((w.buffers i).iovcnt = 2 → r.n ≤ 131071) := by
  have hs := reach_sound h i
  refine ⟨fun hn => ?_, fun hn => ?_, length_lt_of_extrabuf hr⟩
  · rcases hr with ⟨-, hdata⟩ | ⟨heq, -⟩
    · exact hs.readFd_failed hn hdata
    · omega
  · rcases hr with ⟨hneg, -⟩ | ⟨heq, hdata⟩
    · omega
    · exact (hs.readFd_stored heq hdata).imp_left fun ⟨b', hb', hsound, hc⟩ =>
        ⟨b', hb', hsound.toValid, hc⟩

theorem readFd_appends_twoBytes : ∃ b', (threeBytes.buffers ()).readFd ⟨2, 0, [4, 5]⟩ =
    .ok ⟨b', 2, none⟩ ∧ b'.content = [1, 2, 3, 4, 5] := by
  have hr : Readv.Possible (threeBytes.buffers ()) ⟨2, 0, [4, 5]⟩ := .inr ⟨rfl, by decide⟩
  rcases (readFd_appends uses_threeBytes () hr).2.1 (by decide) with
    ⟨b', hb', -, hc⟩ | ⟨f, -, -, hmax⟩
  · exact ⟨b', hb', hc⟩
  · exact absurd hmax (by decide)

end MengSen.Net.Buffer

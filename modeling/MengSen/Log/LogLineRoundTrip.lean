import MengSen.Log.LogLineStringify

/-!
# Log.LogLineRoundTrip — decoding undoes encoding

`Undoes`: a line is encoded without a store outside its buffer, and printed with its arguments one after
the other between the header and the place in the source.  That is so unless a `std::string` with a NUL
has been inserted.
-/

namespace MengSen.LogLine

open detail (literal decimal)
open Load (result Yields yields_pure yields_modify)
open Layout (At)

variable {H : Host} {l : LogLine} {data : List UInt8}

/-! ## The header and the place in the source -/

theorem ofUInt8_toUInt8 (loglevel : LogLevel) : LogLevel.ofUInt8 loglevel.toUInt8 = some loglevel := by
  cases loglevel <;> rfl

theorem yields_literalAt (s : StringLiteral H) (t : Output) :
    Yields (literalAt H s.s.toNat) t s.text t := by
  rw [literalAt, UInt64.ofNat_toNat, s.stringAt_s]
  exact yields_pure.mpr ⟨rfl, rfl⟩

theorem yields_formatTimestamp (C : Clock) (time : ℕ) (t : Output) :
    Yields (formatTimestamp C time) t PUnit.unit { t with
      os := t.os ++ Timestamp.text (C.gmtime.gmtime (Timestamp.to_time_t time)) time .microsecond } := by
  obtain ⟨buffer', -, hconvert⟩ := Timestamp.convert_eq C.gmtime time C.length_buffer .microsecond
  rw [formatTimestamp, hconvert]
  exact yields_write _

/-- **The header** is read back, and the message is printed between it and the place in the source. -/
theorem stringify_eq (C : Clock) (header : Header H) (h : Holds l (header.record H ++ data)) :
    result (stringify H C l) ⟨[], []⟩ =
      match result (stringifyFrom H l.chars l.bytesUsed l.chars.length 33) ⟨header.text C, []⟩ with
      | (.ok returned, t) => (.ok returned, { t with os := t.os ++ header.suffix })
      | (.error e, t) => (.error e, t) := by
  obtain ⟨back, hback⟩ := h.front
  have hall : At l.chars 0 (header.record H) := by
    rw [← hback, List.append_assoc]
    exact Layout.at_zero _ _
  have htimestamp := hall.left
  have hall := hall.skip (k := 8) (by simp)
  have hthreadid := hall.left
  have hall := hall.skip (k := 4) (by simp)
  have hfile := hall.left
  have hall := hall.skip (k := 8) (by simp)
  have hfunction := hall.left
  have hall := hall.skip (k := 8) (by simp)
  have hline := hall.left
  have hloglevel := hall.skip (k := 4) (by simp)
  rw [stringify, (yields_read htimestamp header.timestamp.toNat_lt).result_bind,
    (yields_read hthreadid header.threadid.toUInt32.toNat_lt).result_bind,
    (yields_read hfile header.file.s.toNat_lt).result_bind,
    (yields_read hfunction header.function.s.toNat_lt).result_bind,
    (yields_read hline header.line.toNat_lt).result_bind,
    (yields_read hloglevel header.loglevel.toUInt8.toNat_lt).result_bind,
    (yields_formatTimestamp C _ _).result_bind, (yields_write _).result_bind, Load.result_bind]
  have hthread : (UInt32.ofNat header.threadid.toUInt32.toNat).toInt32 = header.threadid := by simp
  have hlevel : LogLevel.ofUInt8 (.ofNat header.loglevel.toUInt8.toNat) = some header.loglevel := by
    rw [UInt8.ofNat_toNat, ofUInt8_toUInt8]
  rw [hthread, hlevel, Header.text]
  dsimp only
  rw [List.nil_append]
  rcases result (stringifyFrom H l.chars l.bytesUsed l.chars.length 33) _ with ⟨e | returned, t⟩
  · rfl
  · show result _ t = _
    rw [(yields_literalAt header.file t).result_bind, (yields_literalAt header.function t).result_bind,
      (yields_write _).result_bind]
    rfl

/-! ## Undoing -/

/-- No store leaves the buffer; the arguments are printed one after the other, `stringify` comes to the
end of the bytes in use, and every type is read where a record begins. -/
def Undoes (H : Host) (C : Clock) (header : Header H) (args : List Arg) : Prop :=
  ∃ l out, (make H header >>= fun l => l.insertAll H args) = some l ∧
    result (stringify H C l) ⟨[], []⟩ = (.ok .atEnd, out) ∧
    out.os = header.text C ++ args.flatMap (Arg.text H) ++ header.suffix ∧
    ∀ p ∈ out.tags, p ∈ recordStarts H 33 args

/-- **Encoding** puts the records behind the header. -/
theorem encoded (header : Header H) (args : List Arg) :
    ∃ l, (make H header >>= fun l => l.insertAll H args) = some l ∧
      Holds l (header.record H ++ args.flatMap (Arg.record H)) := by
  obtain ⟨l₀, hmake, h₀⟩ := make_spec header
  obtain ⟨l, hall, h⟩ := h₀.insertAll args
  exact ⟨l, by rw [hmake]; exact hall, h⟩

/-- Where the records are, and how far they reach. -/
theorem Holds.layout {header : Header H} (h : Holds l (header.record H ++ data)) :
    At l.chars 33 data ∧ 33 + data.length = l.bytesUsed ∧ l.bytesUsed ≤ l.chars.length := by
  obtain ⟨back, hback⟩ := h.front
  have hlen := h.front.length_le
  have hused := h.bytesUsed
  rw [List.length_append, length_header] at hlen hused
  refine ⟨⟨header.record H, back, ?_, length_header H header⟩, hused.symm, by omega⟩
  rw [← hback, List.append_assoc]

theorem undoes_of_clean (C : Clock) (header : Header H) {args : List Arg}
    (hclean : ∀ arg ∈ args, arg.Clean) : Undoes H C header args := by
  obtain ⟨l, hl, h⟩ := encoded header args
  obtain ⟨hat, hused, hle⟩ := h.layout
  obtain ⟨fuel, hrun⟩ := stringifyFrom_records (s := ⟨header.text C, []⟩) hclean hat hused.le
    (show l.bytesUsed ≤ 33 + l.chars.length by omega)
  rw [hused, stringifyFrom_stop, List.nil_append] at hrun
  refine ⟨l, ⟨header.text C ++ args.flatMap (Arg.text H) ++ header.suffix, recordStarts H 33 args⟩,
    hl, ?_, rfl, fun p hp => hp⟩
  rw [stringify_eq C header h, hrun]

theorem not_undoes_of_dirty (C : Clock) (header : Header H) {args : List Arg}
    (hdirty : ¬ ∀ arg ∈ args, arg.Clean) : ¬ Undoes H C header args := by
  rintro ⟨l, out, hl, hout, -, htags⟩
  obtain ⟨l', hl', h⟩ := encoded header args
  obtain rfl := Option.some.inj (hl.symm.trans hl')
  obtain ⟨hat, hused, hle⟩ := h.layout
  obtain ⟨p, hp, -, hnot⟩ := exists_tag_inside (s := ⟨header.text C, []⟩) hdirty hat hused.le hle
    (show l.bytesUsed ≤ 33 + l.chars.length by omega)
  rw [stringify_eq C header h] at hout
  rcases hrun : result (stringifyFrom H l.chars l.bytesUsed l.chars.length 33) ⟨header.text C, []⟩ with
    ⟨e | returned, t⟩
  · rw [hrun] at hout
    cases hout
  · rw [hrun] at hout hp
    cases hout
    exact hnot (htags p hp)

/-- **Decoding undoes encoding exactly when no `std::string` has a NUL**: such a string is stored with
its size and read back as a C string. -/
theorem stringify_undoes_iff (H : Host) (C : Clock) (header : Header H) (args : List Arg) :
    Undoes H C header args ↔ ∀ v, Arg.string v ∈ args → 0 ∉ v := by
  have hclean : (∀ arg ∈ args, arg.Clean) ↔ ∀ v, Arg.string v ∈ args → 0 ∉ v := by
    refine ⟨fun h v hv => h _ hv, fun h arg harg => ?_⟩
    cases arg with
    | string v => exact h v harg
    | _ => trivial
  rw [← hclean]
  exact ⟨fun h => not_not.mp fun hdirty => not_undoes_of_dirty C header hdirty h,
    undoes_of_clean C header⟩

section Lost

/-- A little-endian machine on which every literal is empty. -/
def emptyLiterals : Host where
  order := .little
  newChars n := List.replicate n 0xCC
  length_newChars _ := List.length_replicate
  double _ := []
  stringAt _ := some []

def emptyHeader : Header emptyLiterals where
  timestamp := 0
  threadid := 1
  file := ⟨0, [], rfl⟩
  function := ⟨0, [], rfl⟩
  line := 7
  loglevel := .INFO

theorem nonempty_clock : Nonempty Clock :=
  nonempty_gmtime.map fun gmtime => ⟨gmtime, List.replicate 32 0, rfl⟩

/-- A NUL inside a string: its last character is read as a type, and the number behind it is lost. -/
theorem stringify_loses_number :
    ((make emptyLiterals emptyHeader >>= fun l =>
        l.insertAll emptyLiterals [.string [0x61, 0, 0x62], .int32 5]).map fun l =>
      result (stringifyFrom emptyLiterals l.chars l.bytesUsed l.chars.length 33) ⟨[], []⟩) =
        some (.ok .unknownType, ⟨literal "a", [33, 36]⟩) ∧
    ∃ C, ¬ Undoes emptyLiterals C emptyHeader [.string [0x61, 0, 0x62], .int32 5] := by
  obtain ⟨C⟩ := nonempty_clock
  refine ⟨by decide +kernel, C, not_undoes_of_dirty _ _ fun h => ?_⟩
  have hclean : 0 ∉ [(0x61 : UInt8), 0, 0x62] := h (.string [0x61, 0, 0x62]) List.mem_cons_self
  exact absurd hclean (by decide)

end Lost

end MengSen.LogLine

import MengSen.Base.TimeZoneFile
import MengSen.Lib.Bytes
import MengSen.Lib.Layout
import MengSen.Lib.SInt

/-!
# Base.TimeZoneEncode — what is read from a well-formed file

A `Block` is what a version-1 block of a zone file says, and `Block.encode` are its bytes: the magic, the
version, 15 reserved bytes, the six counts, the times, the type indexes, the types and the characters.
`readTimeZoneFile` reads it back from every file that begins with these bytes.
-/

namespace MengSen.TimeZone

open Layout (At)

/-- The bytes of an unsigned number, most significant first. -/
def bigEndian (k n : ℕ) : List UInt8 := (Bytes.encode k n).reverse

/-- The bytes of an `int32_t`. -/
def int32Bytes (v : ℤ) : List UInt8 := bigEndian 4 (Word.ofSigned 32 v)

/-- A local time type. -/
structure TypeRecord where
  gmtoff : ℤ
  isdst : UInt8
  abbrind : UInt8
  fits : Fits 32 gmtoff

/-- A version-1 block: transitions with a time and the index of a type. -/
structure Block where
  version : UInt8
  reserved : List UInt8
  isgmtcnt : ℕ
  isstdcnt : ℕ
  leapcnt : ℕ
  types : List TypeRecord
  transitions : List (ℤ × Fin types.length)
  abbreviation : List UInt8
  length_reserved : reserved.length = 15
  unread_lt : isgmtcnt < 2 ^ 32 ∧ isstdcnt < 2 ^ 32 ∧ leapcnt < 2 ^ 32
  length_types : types.length ≤ 255
  length_transitions : transitions.length < 2 ^ 31
  fits : ∀ p ∈ transitions, Fits 32 p.1
  abbreviation_ne : abbreviation ≠ []
  length_abbreviation : abbreviation.length < 2 ^ 31

def TypeRecord.encode (r : TypeRecord) : List UInt8 := int32Bytes r.gmtoff ++ ([r.isdst] ++ [r.abbrind])

namespace Block

/-- The bytes of a block. -/
def encode (b : Block) : List UInt8 :=
  magic ++ ([b.version] ++ (b.reserved ++ (bigEndian 4 b.isgmtcnt ++ (bigEndian 4 b.isstdcnt ++
    (bigEndian 4 b.leapcnt ++ (bigEndian 4 b.transitions.length ++ (bigEndian 4 b.types.length ++
      (bigEndian 4 b.abbreviation.length ++ (b.transitions.flatMap (fun p => int32Bytes p.1) ++
        (b.transitions.flatMap (fun p => [UInt8.ofNat p.2]) ++ (b.types.flatMap TypeRecord.encode ++
          b.abbreviation)))))))))))

/-- What the block says. -/
def data (b : Block) : Data where
  transitions := b.transitions.map fun p => ⟨p.1, p.1 + (b.types.get p.2).gmtoff, p.2⟩
  localtimes := b.types.map fun r => ⟨r.gmtoff, r.isdst != 0, r.abbrind.toNat⟩
  abbreviation := b.abbreviation

end Block

/-! ## Fields -/

section Fields

variable {file : List UInt8} {pos : ℕ}

theorem length_magic : magic.length = 4 := by
  have hsize : "TZif".toUTF8.size = 4 := by decide
  rw [magic, ByteArray.toList, ByteArray.toList.loop, ByteArray.toList.loop, ByteArray.toList.loop,
    ByteArray.toList.loop, ByteArray.toList.loop, hsize]
  rfl

@[simp] theorem length_bigEndian (k n : ℕ) : (bigEndian k n).length = k := by
  rw [bigEndian, List.length_reverse, Bytes.length_encode]

theorem foldl_bigEndian (k n : ℕ) :
    (bigEndian k n).foldl (fun x b => 256 * x + b.toNat) 0 = n % 256 ^ k := by
  rw [bigEndian, List.foldl_reverse, ← Bytes.decode_encode]
  generalize Bytes.encode k n = l
  induction l with
  | nil => rfl
  | cons b l ih => rw [List.foldr_cons, ih, Bytes.decode_cons, Nat.add_comm]

theorem be32toh_bigEndian {n : ℕ} (h : n < 2 ^ 31) : be32toh (bigEndian 4 n) = n := by
  rw [be32toh, foldl_bigEndian, Nat.mod_eq_of_lt (by omega), Word.toSigned_of_lt (by omega)]

theorem be32toh_int32Bytes {v : ℤ} (h : Fits 32 v) : be32toh (int32Bytes v) = v := by
  have hlt : Word.ofSigned 32 v < 256 ^ 4 := Word.ofSigned_lt v
  rw [be32toh, int32Bytes, foldl_bigEndian, Nat.mod_eq_of_lt hlt, Word.toSigned_ofSigned h.1 h.2]

theorem int32At_of_at {d : List UInt8} (h : At file pos d) (hd : d.length = 4) :
    int32At file pos = be32toh d := by
  rw [int32At, slice, ← hd, h.take_drop]

theorem byteAt_of_at {c : UInt8} (h : At file pos [c]) : byteAt file pos = c.toNat := by
  rw [byteAt, slice, show 1 = [c].length from rfl, h.take_drop]
  rfl

theorem length_typeRecord (r : TypeRecord) : r.encode.length = 6 := by
  rw [TypeRecord.encode, List.length_append, int32Bytes, length_bigEndian]
  rfl

theorem typeAt_of_at {r : TypeRecord} (h : At file pos r.encode) :
    typeAt file pos = ⟨r.gmtoff, r.isdst != 0, r.abbrind.toNat⟩ := by
  have hrest := h.skip (length_bigEndian 4 _)
  have hdst : (r.isdst.toNat != 0) = (r.isdst != 0) := by
    rw [Bool.eq_iff_iff, bne_iff_ne, bne_iff_ne, ne_eq, ne_eq, ← UInt8.toNat_inj]
    rfl
  rw [typeAt, int32At_of_at h.left (length_bigEndian 4 _), be32toh_int32Bytes r.fits,
    byteAt_of_at hrest.left, byteAt_of_at (hrest.skip (k := 1) rfl), hdst]

end Fields

/-! ## The block -/

namespace Block

variable (b : Block) (rest : List UInt8)

/-- Where the fields of a block stand in a file that begins with it. -/
structure Stands (b : Block) (file : List UInt8) : Prop where
  magic : At file 0 magic
  timecnt : At file 32 (bigEndian 4 b.transitions.length)
  typecnt : At file 36 (bigEndian 4 b.types.length)
  charcnt : At file 40 (bigEndian 4 b.abbreviation.length)
  times : At file 44 (b.transitions.flatMap fun p => int32Bytes p.1)
  indexes : At file (44 + 4 * b.transitions.length)
    (b.transitions.flatMap fun p => [UInt8.ofNat p.2])
  types : At file (44 + 4 * b.transitions.length + b.transitions.length)
    (b.types.flatMap TypeRecord.encode)
  abbreviation : At file
    (44 + 4 * b.transitions.length + b.transitions.length + 6 * b.types.length) b.abbreviation

theorem stands : Stands b (b.encode ++ rest) := by
  have h : At (b.encode ++ rest) 0 b.encode := Layout.at_zero _ _
  have hmagic := h.left
  have h := h.skip length_magic
  have h := h.skip (k := 1) rfl
  have h := h.skip b.length_reserved
  have h := h.skip (length_bigEndian 4 _)
  have h := h.skip (length_bigEndian 4 _)
  have h := h.skip (length_bigEndian 4 _)
  have htimecnt := h.left
  have h := h.skip (length_bigEndian 4 _)
  have htypecnt := h.left
  have h := h.skip (length_bigEndian 4 _)
  have hcharcnt := h.left
  have h := h.skip (length_bigEndian 4 _)
  have htimes := h.left
  have h := h.skip (Layout.length_flatMap fun p => length_bigEndian 4 _)
  have hindexes := h.left
  have h := h.skip ((Layout.length_flatMap (k := 1) fun p => rfl).trans (Nat.one_mul _))
  have htypes := h.left
  have h := h.skip (Layout.length_flatMap length_typeRecord)
  exact ⟨hmagic, htimecnt, htypecnt, hcharcnt, htimes, hindexes, htypes, h⟩

variable {b} {file : List UInt8}

namespace Stands

variable (h : b.Stands file)

include h

theorem timecnt_eq : TimeZone.timecnt file = b.transitions.length := by
  rw [TimeZone.timecnt, int32At_of_at h.timecnt (length_bigEndian 4 _),
    be32toh_bigEndian b.length_transitions]

theorem typecnt_eq : TimeZone.typecnt file = b.types.length := by
  have hlen := b.length_types
  rw [TimeZone.typecnt, int32At_of_at h.typecnt (length_bigEndian 4 _),
    be32toh_bigEndian (by omega)]

theorem charcnt_eq : TimeZone.charcnt file = b.abbreviation.length := by
  rw [TimeZone.charcnt, int32At_of_at h.charcnt (length_bigEndian 4 _),
    be32toh_bigEndian b.length_abbreviation]

theorem indexPos_eq : indexPos file = 44 + 4 * b.transitions.length := by
  rw [indexPos, h.timecnt_eq, Int.toNat_natCast]

theorem typePos_eq : typePos file = 44 + 4 * b.transitions.length + b.transitions.length := by
  rw [typePos, h.indexPos_eq, h.timecnt_eq, Int.toNat_natCast]

theorem charPos_eq : charPos file =
    44 + 4 * b.transitions.length + b.transitions.length + 6 * b.types.length := by
  rw [charPos, h.typePos_eq, h.typecnt_eq, Int.toNat_natCast]

/-- The times and the indexes are joined again. -/
theorem timesAt_eq : timesAt file 44 b.transitions.length =
    b.transitions.map fun p => (p.1, p.2.val) := by
  have htimes : (List.range b.transitions.length).map (fun i => int32At file (44 + 4 * i)) =
      b.transitions.map Prod.fst := by
    refine h.times.map_range (fun p => length_bigEndian 4 _) fun p hp pos hpos => ?_
    rw [int32At_of_at hpos (length_bigEndian 4 _), be32toh_int32Bytes (b.fits p hp)]
  have hindexes : (List.range b.transitions.length).map
      (fun i => byteAt file (44 + 4 * b.transitions.length + 1 * i)) =
      b.transitions.map fun p => p.2.val := by
    refine h.indexes.map_range (fun p => rfl) fun p _ pos hpos => ?_
    have hlt := p.2.isLt
    have hlen := b.length_types
    rw [byteAt_of_at hpos, UInt8.toNat_ofNat', Nat.mod_eq_of_lt (by omega)]
  simp only [Nat.one_mul] at hindexes
  rw [timesAt, htimes, hindexes, List.zip_map']

theorem typesAt_eq :
    TimeZone.types file = b.types.map fun r => ⟨r.gmtoff, r.isdst != 0, r.abbrind.toNat⟩ := by
  rw [TimeZone.types, typesAt, h.typePos_eq, h.typecnt_eq, Int.toNat_natCast]
  exact h.types.map_range length_typeRecord fun r _ pos hpos => typeAt_of_at hpos

theorem readable : Readable file where
  head := by
    rw [slice, ← length_magic]
    exact h.magic.take_drop
  times := by
    rw [h.timecnt_eq]
    exact Int.natCast_nonneg _
  chars := by
    rw [h.charcnt_eq]
    exact Int.natCast_nonneg _
  length := by
    rw [h.charPos_eq, h.charcnt_eq, Int.toNat_natCast]
    exact h.abbreviation.length_le
  inRange := by
    rw [h.indexPos_eq, h.timecnt_eq, h.typecnt_eq, Int.toNat_natCast, Int.toNat_natCast,
      ← forall_timesAt (P := (· < b.types.length)), h.timesAt_eq]
    intro p hp
    obtain ⟨q, -, rfl⟩ := List.mem_map.mp hp
    exact q.2.isLt

/-- What is read is what the block says. -/
theorem loaded_eq : loaded file = b.data := by
  have htransitions : (timesAt file 44 b.transitions.length).map (transitionOf (TimeZone.types file)) =
      b.data.transitions := by
    rw [h.timesAt_eq, h.typesAt_eq, List.map_map]
    refine List.map_congr_left fun p _ => ?_
    have hget : b.types[p.2.val]? = some (b.types.get p.2) := List.getElem?_eq_getElem p.2.isLt
    rw [Function.comp_apply, transitionOf, List.getElem?_map, hget]
    rfl
  have hchars : slice file (charPos file) b.abbreviation.length = b.abbreviation := by
    rw [h.charPos_eq]
    exact h.abbreviation.take_drop
  rw [loaded, h.timecnt_eq, h.charcnt_eq, Int.toNat_natCast, Int.toNat_natCast, htransitions, hchars,
    h.typesAt_eq]
  rfl

end Stands

end Block

/-- **What was encoded is read back**: from every file that begins with a block the parse reads what the
block says, and does not stop early. -/
theorem readTimeZoneFile_encode (b : Block) (rest : List UInt8) :
    readTimeZoneFile (some (b.encode ++ rest)) = .ok (true, b.data, false) := by
  have hstands := b.stands rest
  have hparse := (yields_parse (a := ⟨⟩)).mpr ⟨hstands.readable, rfl⟩
  rw [Load.Yields, hstands.loaded_eq] at hparse
  rw [readTimeZoneFile, hparse]

/-- One transition, a second before 1970, to summer time. -/
def summerBlock : Block where
  version := 0
  reserved := List.replicate 15 7
  isgmtcnt := 2
  isstdcnt := 2
  leapcnt := 4294967295
  types := [⟨-3600, 0, 0, by decide⟩, ⟨3600, 255, 4, by decide⟩]
  transitions := [(-1, 1)]
  abbreviation := [67, 69, 84, 0, 67, 69, 83, 84]
  length_reserved := rfl
  unread_lt := by decide
  length_types := by decide
  length_transitions := by decide
  fits := by decide
  abbreviation_ne := by decide
  length_abbreviation := by decide

theorem readTimeZoneFile_encode_summer :
    readTimeZoneFile (some (summerBlock.encode ++ [1, 2])) = .ok (true,
      ⟨[⟨-1, 3599, 1⟩], [⟨-3600, false, 0⟩, ⟨3600, true, 4⟩], [67, 69, 84, 0, 67, 69, 83, 84]⟩,
      false) :=
  readTimeZoneFile_encode summerBlock [1, 2]

end MengSen.TimeZone

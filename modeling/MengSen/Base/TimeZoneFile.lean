import MengSen.Base.TimeZone
import MengSen.Lib.Load
import MengSen.Lib.Word

/-!
# Base.TimeZoneFile — zones that are read from a file

`readTimeZoneFile` of `base/TimeZone.cpp` over the bytes of the file, with the position of the
`FILE *` and the `Data` that is filled on the way.  A `logic_error` stops the parse and leaves the
data as they are; `reserve` of a negative size throws one too.  A buffer of a negative size and an
index past the end of `data->localtimes` are undefined.
-/

namespace MengSen.TimeZone

open Load (Yields yields_bind times require)

/-! ## The file -/

/-- The position in the file, and `*data`. -/
structure Reader where
  pos : ℕ
  data : Data

inductive Stop
  /-- the exception that `readTimeZoneFile` catches -/
  | logicError
  /-- `char buf[n]` of a negative size -/
  | negativeSize
  /-- `data->localtimes[localIdx]` past the end -/
  | outOfRange
  deriving DecidableEq

abbrev Parse := Load Stop Reader

/-- At most `n` bytes from the position `pos` on. -/
def slice (file : List UInt8) (pos n : ℕ) : List UInt8 := (file.drop pos).take n

variable (file : List UInt8)

def fread (n : ℕ) : Parse (List UInt8) := do
  let r ← get
  modify fun r => { r with pos := r.pos + (slice file r.pos n).length }
  return slice file r.pos n

def readBytes (n : ℤ) : Parse (List UInt8) := do
  require (0 ≤ n) .negativeSize
  let buf ← fread file n.toNat
  require (buf.length = n.toNat) .logicError
  return buf

def be32toh (bytes : List UInt8) : ℤ :=
  Word.toSigned 32 (bytes.foldl (fun x b => 256 * x + b.toNat) 0)

def readInt32 : Parse ℤ := do
  let x ← fread file 4
  require (x.length = 4) .logicError
  return be32toh x

def readUInt8 : Parse ℕ := do
  let x ← fread file 1
  require (x.length = 1) .logicError
  return (x.headD 0).toNat

/-- A round of the loop over the types. -/
def readType : Parse PUnit := do
  let gmtoff ← readInt32 file
  let isdst ← readUInt8 file
  let abbrind ← readUInt8 file
  modify fun r => { r with
    data := { r.data with
      localtimes := r.data.localtimes ++ [⟨gmtoff, isdst != 0, abbrind⟩] } }

/-- The loop that fills `data->transitions`. -/
def pushTransitions : List (ℤ × ℕ) → Parse PUnit
  | [] => pure ()
  | (time, localIdx) :: rest => do
    let r ← get
    match r.data.localtimes[localIdx]? with
    | none => throw .outOfRange
    | some l => do
      modify fun r => { r with
        data := { r.data with
          transitions := r.data.transitions ++ [⟨time, time + l.gmtOffset, localIdx⟩] } }
      pushTransitions rest

def magic : List UInt8 := "TZif".toUTF8.toList

/-- The `try` block of `readTimeZoneFile`. -/
def parse : Parse PUnit := do
  let head ← readBytes file 4
  require (head = magic) .logicError
  let _version ← readBytes file 1
  let _ ← readBytes file 15
  let _isgmtcnt ← readInt32 file
  let _isstdcnt ← readInt32 file
  let _leapcnt ← readInt32 file
  let timecnt ← readInt32 file
  let typecnt ← readInt32 file
  let charcnt ← readInt32 file
  -- `trans.reserve(timecnt)`
  require (0 ≤ timecnt) .logicError
  let trans ← times (readInt32 file) timecnt.toNat
  let localtimes ← times (readUInt8 file) timecnt.toNat
  let _ ← times (readType file) typecnt.toNat
  pushTransitions (trans.zip localtimes)
  let abbreviation ← readBytes file charcnt
  modify fun r => { r with data := { r.data with abbreviation := abbreviation } }

/-- What `readTimeZoneFile` returns, the data, and whether the parse has stopped early; `none` is a
file that cannot be opened. -/
def readTimeZoneFile : Option (List UInt8) → Except Stop (Bool × Data × Bool)
  | none => .ok (true, ⟨[], [], []⟩, true)
  | some file =>
    match Load.result (parse file) ⟨0, ⟨[], [], []⟩⟩ with
    | (.ok _, r) => .ok (true, r.data, false)
    | (.error .logicError, r) => .ok (true, r.data, true)
    | (.error e, _) => .error e

/-- `TimeZone(zonefile)`, and whether the parse has stopped early. -/
def ofFile (file : Option (List UInt8)) : Except Stop (Zone × Bool) := do
  let (ok, data, stopped) ← readTimeZoneFile file
  return (if ok then some data else none, stopped)

/-! ## What is read -/

section Reads

variable {file} {r t : Reader} {n : ℕ}

theorem length_slice (pos n : ℕ) : (slice file pos n).length = min n (file.length - pos) := by
  rw [slice, List.length_take, List.length_drop]

theorem yields_fread {b : List UInt8} : Yields (fread file n) r b t ↔
    b = slice file r.pos n ∧ t = { r with pos := r.pos + (slice file r.pos n).length } := by
  simp only [fread, yields_bind, Load.yields_get, Load.yields_modify, Load.yields_pure]
  refine ⟨?_, ?_⟩
  · rintro ⟨_, _, ⟨rfl, rfl⟩, -, _, rfl, rfl, rfl⟩
    exact ⟨rfl, rfl⟩
  · rintro ⟨rfl, rfl⟩
    exact ⟨_, _, ⟨rfl, rfl⟩, ⟨⟩, _, rfl, rfl, rfl⟩

theorem yields_readBytes {n : ℤ} {b : List UInt8} (hr : r.pos ≤ file.length) :
    Yields (readBytes file n) r b t ↔
      0 ≤ n ∧ r.pos + n.toNat ≤ file.length ∧ b = slice file r.pos n.toNat ∧
        t = { r with pos := r.pos + n.toNat } := by
  have hlen : (slice file r.pos n.toNat).length = n.toNat ↔ r.pos + n.toNat ≤ file.length := by
    rw [length_slice]
    omega
  simp only [readBytes, yields_bind, yields_fread, Load.yields_require, Load.yields_pure]
  refine ⟨?_, ?_⟩
  · rintro ⟨-, _, ⟨hn, rfl⟩, b, _, ⟨rfl, rfl⟩, -, _, ⟨hb, rfl⟩, rfl, rfl⟩
    exact ⟨hn, hlen.mp hb, rfl, by rw [hb]⟩
  · rintro ⟨hn, hb, rfl, rfl⟩
    refine ⟨⟨⟩, r, ⟨hn, rfl⟩, _, _, ⟨rfl, rfl⟩, ⟨⟩, _, ⟨hlen.mpr hb, rfl⟩, rfl, ?_⟩
    rw [hlen.mpr hb]

/-- The big-endian value at `pos`. -/
def int32At (file : List UInt8) (pos : ℕ) : ℤ := be32toh (slice file pos 4)

def byteAt (file : List UInt8) (pos : ℕ) : ℕ := ((slice file pos 1).headD 0).toNat

theorem yields_readInt32 {x : ℤ} : Yields (readInt32 file) r x t ↔
    r.pos + 4 ≤ file.length ∧ x = int32At file r.pos ∧ t = { r with pos := r.pos + 4 } := by
  have hlen : (slice file r.pos 4).length = 4 ↔ r.pos + 4 ≤ file.length := by
    rw [length_slice]
    omega
  simp only [readInt32, yields_bind, yields_fread, Load.yields_require, Load.yields_pure]
  refine ⟨?_, ?_⟩
  · rintro ⟨b, _, ⟨rfl, rfl⟩, -, _, ⟨hb, rfl⟩, rfl, rfl⟩
    exact ⟨hlen.mp hb, rfl, by rw [hb]⟩
  · rintro ⟨hb, rfl, rfl⟩
    refine ⟨_, _, ⟨rfl, rfl⟩, ⟨⟩, _, ⟨hlen.mpr hb, rfl⟩, rfl, ?_⟩
    rw [hlen.mpr hb]

theorem yields_readUInt8 {x : ℕ} : Yields (readUInt8 file) r x t ↔
    r.pos + 1 ≤ file.length ∧ x = byteAt file r.pos ∧ t = { r with pos := r.pos + 1 } := by
  have hlen : (slice file r.pos 1).length = 1 ↔ r.pos + 1 ≤ file.length := by
    rw [length_slice]
    omega
  simp only [readUInt8, yields_bind, yields_fread, Load.yields_require, Load.yields_pure]
  refine ⟨?_, ?_⟩
  · rintro ⟨b, _, ⟨rfl, rfl⟩, -, _, ⟨hb, rfl⟩, rfl, rfl⟩
    exact ⟨hlen.mp hb, rfl, by rw [hb]⟩
  · rintro ⟨hb, rfl, rfl⟩
    refine ⟨_, _, ⟨rfl, rfl⟩, ⟨⟩, _, ⟨hlen.mpr hb, rfl⟩, rfl, ?_⟩
    rw [hlen.mpr hb]

/-- The type whose six bytes start at `pos`. -/
def typeAt (file : List UInt8) (pos : ℕ) : Localtime :=
  ⟨int32At file pos, byteAt file (pos + 4) != 0, byteAt file (pos + 5)⟩

theorem yields_readType {x : PUnit} : Yields (readType file) r x t ↔
    r.pos + 6 ≤ file.length ∧
      t = ⟨r.pos + 6, { r.data with localtimes := r.data.localtimes ++ [typeAt file r.pos] }⟩ := by
  simp only [readType, yields_bind, yields_readInt32, yields_readUInt8, Load.yields_modify]
  refine ⟨?_, ?_⟩
  · rintro ⟨_, _, ⟨-, rfl, rfl⟩, _, _, ⟨-, rfl, rfl⟩, _, _, ⟨hlen, rfl, rfl⟩, rfl⟩
    exact ⟨hlen, rfl⟩
  · rintro ⟨hlen, rfl⟩
    exact ⟨_, _, ⟨by omega, rfl, rfl⟩, _, _, ⟨by simp only; omega, rfl, rfl⟩, _, _,
      ⟨by simp only; omega, rfl, rfl⟩, rfl⟩

/-- The loop over rounds that read `k` bytes each. -/
theorem yields_times {α : Type} {x : Parse α} {k : ℕ} {f : ℕ → α} {g : ℕ → Data → Data}
    (hx : ∀ r a t, Yields x r a t ↔
      r.pos + k ≤ file.length ∧ a = f r.pos ∧ t = ⟨r.pos + k, g r.pos r.data⟩)
    {l : List α} (hr : r.pos ≤ file.length) : Yields (times x n) r l t ↔
      r.pos + k * n ≤ file.length ∧ l = (List.range n).map (fun i => f (r.pos + k * i)) ∧
        t = ⟨r.pos + k * n, (List.range n).foldl (fun d i => g (r.pos + k * i) d) r.data⟩ := by
  induction n generalizing r l with
  | zero => simp [times, hr]
  | succ n ih =>
    have hpos : ∀ i, r.pos + k * (i + 1) = r.pos + k + k * i := fun i => by
      rw [Nat.mul_succ]
      omega
    have hlen : r.pos + k * (n + 1) = r.pos + k + k * n := hpos n
    rw [Load.yields_times_succ, List.range_succ_eq_map, List.map_cons, List.map_map,
      List.foldl_cons, List.foldl_map, hlen]
    simp only [hx, Function.comp_def, Nat.succ_eq_add_one, hpos, Nat.mul_zero, Nat.add_zero]
    refine ⟨?_, ?_⟩
    · rintro ⟨a, t', l', ⟨hk, rfl, rfl⟩, hl', rfl⟩
      obtain ⟨hle, rfl, rfl⟩ := (ih hk).mp hl'
      exact ⟨hle, rfl, rfl⟩
    · rintro ⟨hle, rfl, rfl⟩
      have hk : r.pos + k ≤ file.length := by omega
      exact ⟨_, _, _, ⟨hk, rfl, rfl⟩, (ih (r := ⟨r.pos + k, g r.pos r.data⟩) hk).mpr
        ⟨hle, rfl, rfl⟩, rfl⟩

theorem yields_times_readInt32 {l : List ℤ} (hr : r.pos ≤ file.length) :
    Yields (times (readInt32 file) n) r l t ↔
      r.pos + 4 * n ≤ file.length ∧ l = (List.range n).map (fun i => int32At file (r.pos + 4 * i)) ∧
        t = ⟨r.pos + 4 * n, r.data⟩ := by
  have h := yields_times (n := n) (t := t) (l := l) (g := fun _ d => d)
    (fun r a t => yields_readInt32 (r := r) (x := a) (t := t)) hr
  rwa [List.foldl_fixed] at h

theorem yields_times_readUInt8 {l : List ℕ} (hr : r.pos ≤ file.length) :
    Yields (times (readUInt8 file) n) r l t ↔
      r.pos + n ≤ file.length ∧ l = (List.range n).map (fun i => byteAt file (r.pos + i)) ∧
        t = ⟨r.pos + n, r.data⟩ := by
  have h := yields_times (n := n) (t := t) (l := l) (g := fun _ d => d)
    (fun r a t => yields_readUInt8 (r := r) (x := a) (t := t)) hr
  simpa only [List.foldl_fixed, Nat.one_mul] using h

/-- The types whose bytes start at `pos`. -/
def typesAt (file : List UInt8) (pos n : ℕ) : List Localtime :=
  (List.range n).map fun i => typeAt file (pos + 6 * i)

theorem foldl_push (f : ℕ → Localtime) (l : List ℕ) (d : Data) :
    l.foldl (fun d i => { d with localtimes := d.localtimes ++ [f i] }) d =
      { d with localtimes := d.localtimes ++ l.map f } := by
  induction l generalizing d with
  | nil => simp
  | cons i l ih => simp [ih]

theorem yields_times_readType {l : List PUnit} (hr : r.pos ≤ file.length) :
    Yields (times (readType file) n) r l t ↔
      r.pos + 6 * n ≤ file.length ∧ l = (List.range n).map (fun _ => ⟨⟩) ∧
        t = ⟨r.pos + 6 * n, { r.data with
          localtimes := r.data.localtimes ++ typesAt file r.pos n }⟩ := by
  have h := yields_times (n := n) (t := t) (l := l) (f := fun _ => ⟨⟩)
    (g := fun p d => { d with localtimes := d.localtimes ++ [typeAt file p] })
    (fun r a t => by rw [yields_readType]; exact ⟨fun h => ⟨h.1, rfl, h.2⟩, fun h => ⟨h.1, h.2.2⟩⟩) hr
  rwa [foldl_push] at h

/-- The times and their type indexes, of which the bytes start at `pos`. -/
def timesAt (file : List UInt8) (pos n : ℕ) : List (ℤ × ℕ) :=
  ((List.range n).map fun i => int32At file (pos + 4 * i)).zip
    ((List.range n).map fun i => byteAt file (pos + 4 * n + i))

/-- A transition at `p.1` to the type `p.2`. -/
def transitionOf (types : List Localtime) (p : ℤ × ℕ) : Transition :=
  ⟨p.1, p.1 + ((types[p.2]?).elim 0 Localtime.gmtOffset), p.2⟩

/-- The loop over the transitions stays inside `localtimes`, or it is undefined. -/
theorem yields_pushTransitions {l : List (ℤ × ℕ)} {a : PUnit} :
    Yields (pushTransitions l) r a t ↔
      (∀ p ∈ l, p.2 < r.data.localtimes.length) ∧
        t = { r with data := { r.data with
          transitions := r.data.transitions ++ l.map (transitionOf r.data.localtimes) } } := by
  induction l generalizing r with
  | nil => simp [pushTransitions]
  | cons p l ih =>
    obtain ⟨time, localIdx⟩ := p
    rw [pushTransitions, yields_bind]
    simp only [Load.yields_get, List.forall_mem_cons]
    rcases hl : r.data.localtimes[localIdx]? with _ | type
    · have hout : ¬ localIdx < r.data.localtimes.length := by
        have := List.getElem?_eq_none_iff.mp hl
        omega
      refine ⟨?_, fun h => absurd h.1.1 hout⟩
      rintro ⟨_, _, ⟨rfl, rfl⟩, h⟩
      rw [hl] at h
      exact absurd h Load.not_yields_throw
    · have hin : localIdx < r.data.localtimes.length := (List.getElem?_eq_some_iff.mp hl).1
      have htype : transitionOf r.data.localtimes (time, localIdx) =
          ⟨time, time + type.gmtOffset, localIdx⟩ := by rw [transitionOf, hl]; rfl
      refine ⟨?_, ?_⟩
      · rintro ⟨_, _, ⟨rfl, rfl⟩, h⟩
        rw [hl] at h
        obtain ⟨_, _, hpush, hrest⟩ := yields_bind.mp h
        rw [Load.yields_modify] at hpush
        subst hpush
        obtain ⟨hall, rfl⟩ := ih.mp hrest
        refine ⟨⟨hin, hall⟩, ?_⟩
        rw [List.map_cons, htype, List.append_assoc]
        rfl
      · rintro ⟨⟨-, hall⟩, rfl⟩
        refine ⟨r, r, ⟨rfl, rfl⟩, ?_⟩
        rw [hl]
        refine yields_bind.mpr ⟨⟨⟩, _, Load.yields_modify.mpr rfl, ih.mpr ⟨hall, ?_⟩⟩
        rw [List.map_cons, htype, List.append_assoc]
        rfl

/-! ### Reading first -/

variable {β : Type} {b : β} {u : Reader}

theorem bind_require {p : Prop} [Decidable p] {e : Stop} {f : PUnit → Parse β} :
    Yields (require p e >>= f) r b u ↔ p ∧ Yields (f ⟨⟩) r b u := by
  rw [yields_bind]
  refine ⟨?_, fun h => ⟨⟨⟩, r, Load.yields_require.mpr ⟨h.1, rfl⟩, h.2⟩⟩
  rintro ⟨_, _, hx, h⟩
  obtain ⟨hp, rfl⟩ := Load.yields_require.mp hx
  exact ⟨hp, h⟩

theorem bind_readBytes {n : ℤ} {f : List UInt8 → Parse β} (hr : r.pos ≤ file.length) :
    Yields (readBytes file n >>= f) r b u ↔
      0 ≤ n ∧ r.pos + n.toNat ≤ file.length ∧
        Yields (f (slice file r.pos n.toNat)) ⟨r.pos + n.toNat, r.data⟩ b u := by
  rw [yields_bind]
  refine ⟨?_, fun h => ⟨_, _, (yields_readBytes hr).mpr ⟨h.1, h.2.1, rfl, rfl⟩, h.2.2⟩⟩
  rintro ⟨_, _, hx, h⟩
  obtain ⟨hn, hle, rfl, rfl⟩ := (yields_readBytes hr).mp hx
  exact ⟨hn, hle, h⟩

theorem bind_readInt32 {f : ℤ → Parse β} : Yields (readInt32 file >>= f) r b u ↔
    r.pos + 4 ≤ file.length ∧ Yields (f (int32At file r.pos)) ⟨r.pos + 4, r.data⟩ b u := by
  rw [yields_bind]
  refine ⟨?_, fun h => ⟨_, _, yields_readInt32.mpr ⟨h.1, rfl, rfl⟩, h.2⟩⟩
  rintro ⟨_, _, hx, h⟩
  obtain ⟨hle, rfl, rfl⟩ := yields_readInt32.mp hx
  exact ⟨hle, h⟩

/-- The three loops over the times, the indexes and the types, and that over the transitions. -/
theorem bind_loops {m : ℕ} {f : PUnit → Parse β} (hr : r.pos ≤ file.length) :
    Yields (times (readInt32 file) n >>= fun trans => times (readUInt8 file) n >>= fun localtimes =>
        times (readType file) m >>= fun _ => pushTransitions (trans.zip localtimes) >>= f) r b u ↔
      r.pos + 4 * n + n + 6 * m ≤ file.length ∧
        (∀ p ∈ timesAt file r.pos n,
          p.2 < (r.data.localtimes ++ typesAt file (r.pos + 4 * n + n) m).length) ∧
        Yields (f ⟨⟩) ⟨r.pos + 4 * n + n + 6 * m, { r.data with
          localtimes := r.data.localtimes ++ typesAt file (r.pos + 4 * n + n) m
          transitions := r.data.transitions ++ (timesAt file r.pos n).map
            (transitionOf (r.data.localtimes ++ typesAt file (r.pos + 4 * n + n) m)) }⟩ b u := by
  refine ⟨fun h => ?_, ?_⟩
  · obtain ⟨_, _, hx, h⟩ := yields_bind.mp h
    obtain ⟨h4, rfl, rfl⟩ := (yields_times_readInt32 hr).mp hx
    obtain ⟨_, _, hx, h⟩ := yields_bind.mp h
    obtain ⟨h1, rfl, rfl⟩ := (yields_times_readUInt8 h4).mp hx
    obtain ⟨_, _, hx, h⟩ := yields_bind.mp h
    obtain ⟨h6, -, rfl⟩ := (yields_times_readType h1).mp hx
    obtain ⟨_, _, hx, h⟩ := yields_bind.mp h
    obtain ⟨hin, rfl⟩ := yields_pushTransitions.mp hx
    exact ⟨h6, hin, h⟩
  · rintro ⟨h6, hin, h⟩
    have h4 : r.pos + 4 * n ≤ file.length := by omega
    have h1 : r.pos + 4 * n + n ≤ file.length := by omega
    refine yields_bind.mpr ⟨_, _, (yields_times_readInt32 hr).mpr ⟨h4, rfl, rfl⟩, ?_⟩
    refine yields_bind.mpr ⟨_, _, (yields_times_readUInt8 h4).mpr ⟨h1, rfl, rfl⟩, ?_⟩
    refine yields_bind.mpr ⟨_, _, (yields_times_readType h1).mpr ⟨h6, rfl, rfl⟩, ?_⟩
    exact yields_bind.mpr ⟨_, _, yields_pushTransitions.mpr ⟨hin, rfl⟩, h⟩

end Reads

/-! ## The whole file -/

def timecnt (file : List UInt8) : ℤ := int32At file 32

def typecnt (file : List UInt8) : ℤ := int32At file 36

def charcnt (file : List UInt8) : ℤ := int32At file 40

/-- Where the indexes, the types and the characters start; the times start at 44. -/
def indexPos (file : List UInt8) : ℕ := 44 + 4 * (timecnt file).toNat

def typePos (file : List UInt8) : ℕ := indexPos file + (timecnt file).toNat

def charPos (file : List UInt8) : ℕ := typePos file + 6 * (typecnt file).toNat

/-- The parse gets to the end of the block. -/
structure Readable (file : List UInt8) : Prop where
  head : slice file 0 4 = magic
  times : 0 ≤ timecnt file
  chars : 0 ≤ charcnt file
  length : charPos file + (charcnt file).toNat ≤ file.length
  inRange : ∀ i < (timecnt file).toNat, byteAt file (indexPos file + i) < (typecnt file).toNat

def types (file : List UInt8) : List Localtime :=
  typesAt file (typePos file) (typecnt file).toNat

/-- The data that are read. -/
def loaded (file : List UInt8) : Data where
  transitions := (timesAt file 44 (timecnt file).toNat).map (transitionOf (types file))
  localtimes := types file
  abbreviation := slice file (charPos file) (charcnt file).toNat

theorem length_types (file : List UInt8) : (types file).length = (typecnt file).toNat := by
  rw [types, typesAt, List.length_map, List.length_range]

variable {file}

/-- The type indexes of the transitions are the bytes from `indexPos` on. -/
theorem forall_timesAt {pos n : ℕ} {P : ℕ → Prop} :
    (∀ p ∈ timesAt file pos n, P p.2) ↔ ∀ i < n, P (byteAt file (pos + 4 * n + i)) := by
  have hlen : (timesAt file pos n).map Prod.snd =
      (List.range n).map fun i => byteAt file (pos + 4 * n + i) := by
    rw [timesAt, List.map_snd_zip (by simp)]
  rw [← List.forall_mem_map (f := Prod.snd) (P := P), hlen]
  simp

/-- **What is parsed**: the parse gets to the end of a readable file only, and has read its data. -/
theorem yields_parse {a : PUnit} {t : Reader} :
    Yields (parse file) ⟨0, ⟨[], [], []⟩⟩ a t ↔
      Readable file ∧ t = ⟨charPos file + (charcnt file).toNat, loaded file⟩ := by
  refine ⟨fun h => ?_, ?_⟩
  · obtain ⟨-, h4, h⟩ := (bind_readBytes (Nat.zero_le _)).mp h
    obtain ⟨hhead, h⟩ := bind_require.mp h
    obtain ⟨-, h5, h⟩ := (bind_readBytes h4).mp h
    obtain ⟨-, -, h⟩ := (bind_readBytes h5).mp h
    obtain ⟨-, h⟩ := bind_readInt32.mp h
    obtain ⟨-, h⟩ := bind_readInt32.mp h
    obtain ⟨-, h⟩ := bind_readInt32.mp h
    obtain ⟨-, h⟩ := bind_readInt32.mp h
    obtain ⟨-, h⟩ := bind_readInt32.mp h
    obtain ⟨h44, h⟩ := bind_readInt32.mp h
    obtain ⟨htimes, h⟩ := bind_require.mp h
    obtain ⟨h6, hin, h⟩ := (bind_loops h44).mp h
    obtain ⟨hchars, hlen, h⟩ := (bind_readBytes h6).mp h
    rw [Load.yields_modify] at h
    have hidx : ∀ p ∈ timesAt file 44 (timecnt file).toNat, p.2 < (types file).length := hin
    rw [length_types] at hidx
    have hindex := (forall_timesAt (P := (· < (typecnt file).toNat))).mp hidx
    exact ⟨⟨hhead, htimes, hchars, hlen, hindex⟩, h⟩
  · rintro ⟨⟨hhead, htimes, hchars, hlen, hindex⟩, rfl⟩
    have hin : ∀ p ∈ timesAt file 44 (timecnt file).toNat, p.2 < (types file).length := by
      rw [length_types]
      exact (forall_timesAt (P := (· < (typecnt file).toNat))).mpr hindex
    have h6 : charPos file ≤ file.length := Nat.le_of_add_right_le hlen
    have h44 : 44 ≤ file.length := by
      simp only [charPos, typePos, indexPos] at h6
      omega
    have hle : ∀ n, n ≤ 44 → n ≤ file.length := fun n hn => Nat.le_trans hn h44
    refine (bind_readBytes (Nat.zero_le _)).mpr ⟨by decide, hle _ (by decide), ?_⟩
    refine bind_require.mpr ⟨hhead, ?_⟩
    refine (bind_readBytes (hle _ (by decide))).mpr ⟨by decide, hle _ (by decide), ?_⟩
    refine (bind_readBytes (hle _ (by decide))).mpr ⟨by decide, hle _ (by decide), ?_⟩
    refine bind_readInt32.mpr ⟨hle _ (by decide), ?_⟩
    refine bind_readInt32.mpr ⟨hle _ (by decide), ?_⟩
    refine bind_readInt32.mpr ⟨hle _ (by decide), ?_⟩
    refine bind_readInt32.mpr ⟨hle _ (by decide), ?_⟩
    refine bind_readInt32.mpr ⟨hle _ (by decide), ?_⟩
    refine bind_readInt32.mpr ⟨hle _ (by decide), ?_⟩
    refine bind_require.mpr ⟨htimes, ?_⟩
    refine (bind_loops h44).mpr ⟨h6, hin, ?_⟩
    exact (bind_readBytes h6).mpr ⟨hchars, hlen, Load.yields_modify.mpr rfl⟩

/-! ## Data that are safe to use -/

/-- The indexes in the data are in range. -/
structure InRange (data : Data) : Prop where
  nonempty : data.localtimes ≠ []
  types : ∀ x ∈ data.transitions, x.localtimeIdx < data.localtimes.length
  names : ∀ l ∈ data.localtimes, l.arrbIdx ≤ data.abbreviation.length

/-- The indexes are in range, and no lookup is ever out of range or fails the assertion. -/
structure Usable (data : Data) : Prop extends InRange data where
  toLocalTime : ∀ C t, ∃ tm, toLocalTime C (some data) t = .ok tm ∧
    tm.zone ≤ data.abbreviation.length
  fromLocalTime : ∀ C tm, ∃ t, fromLocalTime C (some data) tm = .ok t

theorem exists_localtime {data : Data} {i : ℕ} (hi : i < data.localtimes.length) :
    ∃ l ∈ data.localtimes, data.localtime i = .ok l :=
  ⟨_, List.getElem_mem hi, by rw [Data.localtime, List.getElem?_eq_getElem hi]⟩

namespace InRange

variable {data : Data} (h : InRange data)

include h

theorem localtime_of_mem {x : Transition} (hx : x ∈ data.transitions) :
    ∃ l ∈ data.localtimes, data.localtime x.localtimeIdx = .ok l := exists_localtime (h.types x hx)

/-- A lookup in data in range succeeds, sorted or not. -/
theorem findLocaltime (sentry : Transition) (comp : Comp) :
    ∃ l ∈ data.localtimes, data.findLocaltime sentry comp = .ok l := by
  rw [Data.findLocaltime]
  rcases htr : data.transitions with _ | ⟨front, rest⟩
  · exact exists_localtime (List.length_pos_iff.mpr h.nonempty)
  · rw [← htr]
    by_cases hfront : comp.less sentry front = true
    · rw [if_pos (by rw [htr]; simpa using hfront)]
      exact exists_localtime (List.length_pos_iff.mpr h.nonempty)
    · rw [if_neg (by rw [htr]; simpa using hfront)]
      have hpos : 0 < data.transitions.length := by rw [htr]; exact Nat.succ_pos _
      obtain ⟨hle, -, hhigh⟩ := lowerBound_spec (p := fun x => comp.less x sentry)
        (l := data.transitions)
      obtain ⟨i, hi⟩ : ∃ i, lowerBound (fun x => comp.less x sentry) data.transitions = i := ⟨_, rfl⟩
      rw [hi] at hle hhigh
      simp only [hi]
      rcases hx : data.transitions[i]? with _ | x
      · have hlast : data.transitions.length - 1 < data.transitions.length := by omega
        have hback := Data.transition_of_get (List.getElem?_eq_getElem hlast)
        obtain ⟨l, hl, hok⟩ := h.localtime_of_mem (List.getElem_mem hlast)
        refine ⟨l, hl, ?_⟩
        simp only [hback]
        exact hok
      · obtain ⟨hilen, hxi⟩ := List.getElem?_eq_some_iff.mp hx
        by_cases heq : comp.equal sentry x = true
        · simp only [heq, if_true]
          exact h.localtime_of_mem (List.mem_of_getElem? hx)
        · have hi0 : i ≠ 0 := by
            rintro rfl
            have hfx : front = x := by
              rw [htr] at hx
              exact Option.some.inj hx
            have hnot := hhigh hilen
            rw [hx, Option.any_some] at hnot
            simp only [Comp.less, Comp.equal, decide_eq_true_eq, decide_eq_false_iff_not,
              beq_iff_eq, hfx] at hfront hnot heq
            omega
          have hprev : i - 1 < data.transitions.length := by omega
          have hget := Data.transition_of_get (List.getElem?_eq_getElem hprev)
          obtain ⟨l, hl, hok⟩ := h.localtime_of_mem (List.getElem_mem hprev)
          refine ⟨l, hl, ?_⟩
          rw [Bool.not_eq_true] at heq
          simp only [heq, Bool.false_eq_true, if_false]
          rw [Machine.check_bind _ hi0, hget]
          exact hok

/-- Data in range are safe to use. -/
theorem usable : Usable data := by
  have hto : ∀ C t, ∃ tm, TimeZone.toLocalTime C (some data) t = .ok tm ∧
      tm.zone ≤ data.abbreviation.length := by
    intro C t
    obtain ⟨l, hl, hfind⟩ := h.findLocaltime ⟨t, 0, 0⟩ ⟨true⟩
    exact ⟨_, toLocalTime_of_find C hfind, h.names l hl⟩
  refine ⟨h, hto, fun C tm => ?_⟩
  obtain ⟨l, -, hfind⟩ := h.findLocaltime ⟨0, C.timegm tm.toBrokenTime, 0⟩ ⟨false⟩
  obtain ⟨tryTm, htry, -⟩ := hto C (C.timegm tm.toBrokenTime - l.gmtOffset)
  rw [fromLocalTime_of_find C rfl hfind, htry]
  by_cases hdst : tm.isDst = true
  · rw [if_pos hdst]
    by_cases hhack : (!tryTm.isDst && tryTm.hour == tm.hour && tryTm.min == tm.min) = true
    · exact ⟨_, if_pos hhack⟩
    · exact ⟨_, if_neg hhack⟩
  · rw [if_neg hdst]
    exact ⟨_, rfl⟩

end InRange

/-! ## Zones that are safe to use -/

/-- A zone read from a file is invalid, or safe to use; it is invalid when the parse has stopped
early; and the parse itself stays in range. -/
def SafeToUse (file : Option (List UInt8)) : Prop :=
  ∃ zone stopped, ofFile file = .ok (zone, stopped) ∧ (stopped = true → Zone.valid zone = false) ∧
    ∀ data, zone = some data → Usable data

/-- The bytes of a file that is safe to load: all that is announced is there, there is a type, and
the indexes of types and characters are in range. -/
structure WellFormed (file : List UInt8) : Prop extends Readable file where
  nonempty : 1 ≤ typecnt file
  names : ∀ i < (typecnt file).toNat,
    byteAt file (typePos file + 6 * i + 5) ≤ (charcnt file).toNat

theorem inRange_loaded_iff (h : Readable file) :
    InRange (loaded file) ↔ WellFormed file := by
  have hchars : (loaded file).abbreviation.length = (charcnt file).toNat := by
    have := h.length
    show (slice file (charPos file) (charcnt file).toNat).length = _
    rw [length_slice]
    omega
  have hnames : (∀ l ∈ (loaded file).localtimes, l.arrbIdx ≤ (loaded file).abbreviation.length) ↔
      ∀ i < (typecnt file).toNat,
        byteAt file (typePos file + 6 * i + 5) ≤ (charcnt file).toNat := by
    rw [hchars]
    simp [loaded, types, typesAt, typeAt]
  have hnonempty : (loaded file).localtimes ≠ [] ↔ 1 ≤ typecnt file := by
    show types file ≠ [] ↔ _
    rw [← List.length_pos_iff, length_types]
    omega
  refine ⟨fun hr => ⟨h, hnonempty.mp hr.nonempty, hnames.mp hr.names⟩, fun hw => ?_⟩
  refine ⟨hnonempty.mpr hw.nonempty, fun x hx => ?_, hnames.mpr hw.names⟩
  obtain ⟨p, hp, rfl⟩ := List.mem_map.mp hx
  show p.2 < (types file).length
  rw [length_types]
  exact (forall_timesAt (P := (· < (typecnt file).toNat))).mpr h.inRange p hp

theorem ofFile_of_yields {bytes : List UInt8} {a : PUnit} {r : Reader}
    (h : Yields (parse bytes) ⟨0, ⟨[], [], []⟩⟩ a r) :
    ofFile (some bytes) = .ok (some r.data, false) := by
  rw [Yields] at h
  rw [ofFile, readTimeZoneFile, h]
  rfl

/-- A parse that stops early leaves a zone that is valid, or is undefined. -/
theorem ofFile_of_error {bytes : List UInt8} {e : Stop} {r : Reader}
    (h : Load.result (parse bytes) ⟨0, ⟨[], [], []⟩⟩ = (.error e, r)) {zone : Zone} {stopped : Bool}
    (hload : ofFile (some bytes) = .ok (zone, stopped)) : zone = some r.data ∧ stopped = true := by
  rw [ofFile, readTimeZoneFile, h] at hload
  rcases e with _ | _ | _
  · obtain ⟨rfl, rfl⟩ := Prod.mk.inj (Except.ok.inj hload)
    exact ⟨rfl, rfl⟩
  · cases hload
  · cases hload

/-- **A zone is safe to use exactly for a well-formed file**: `readTimeZoneFile` returns true
whatever it has read. -/
theorem safeToUse_iff (file : Option (List UInt8)) :
    SafeToUse file ↔ ∃ bytes, file = some bytes ∧ WellFormed bytes := by
  rcases file with _ | bytes
  · refine ⟨?_, ?_⟩
    · rintro ⟨zone, stopped, hload, hstop, -⟩
      cases hload
      cases hstop rfl
    · rintro ⟨bytes, hnone, -⟩
      cases hnone
  · refine ⟨?_, ?_⟩
    · rintro ⟨zone, stopped, hload, hstop, husable⟩
      refine ⟨bytes, rfl, ?_⟩
      rcases hresult : Load.result (parse bytes) ⟨0, ⟨[], [], []⟩⟩ with ⟨e | a, r⟩
      · obtain ⟨rfl, rfl⟩ := ofFile_of_error hresult hload
        cases hstop rfl
      · obtain ⟨hreadable, rfl⟩ := yields_parse.mp hresult
        rw [ofFile_of_yields hresult] at hload
        obtain ⟨rfl, -⟩ := Prod.mk.inj (Except.ok.inj hload)
        exact (inRange_loaded_iff hreadable).mp (husable _ rfl).toInRange
    · rintro ⟨_, heq, hw⟩
      obtain rfl := Option.some.inj heq
      have hread := (yields_parse (a := ⟨⟩)).mpr ⟨hw.toReadable, rfl⟩
      refine ⟨_, _, ofFile_of_yields hread, ?_, ?_⟩
      · rintro ⟨⟩
      · rintro _ ⟨⟩
        exact ((inRange_loaded_iff hw.toReadable).mpr hw).usable

/-- A zone whose file cannot be opened is valid, and a lookup in it is out of range. -/
theorem unopened_not_safeToUse : ¬ SafeToUse none ∧
    ∃ data, ofFile none = .ok (some data, true) ∧
      ∀ C t, toLocalTime C (some data) t = .error .outOfRange := by
  refine ⟨?_, _, rfl, fun C t => rfl⟩
  rintro ⟨zone, stopped, hload, hstop, -⟩
  cases hload
  cases hstop rfl

end MengSen.TimeZone

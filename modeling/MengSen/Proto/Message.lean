import Mathlib.Algebra.Group.Nat.Defs
import Mathlib.Data.List.Basic

/-!
# Proto.Message — the parts of generated messages

What the generated code of `addressbook.pb.cc` has in common: the loop of `_InternalParse` over the
fields of a message, the short cut for repeated fields, and the readers of the fields.  `Runtime` is
the protobuf library, of which the code relies on the laws; `ParseContext` says where the parser finds
the next bytes without looking for a new buffer.

A message is a list of bytes; `after` is the number of bytes of the input behind it.
-/

namespace MengSen.Proto

abbrev Bytes := List UInt8

/-- The library: varints, sizes, UTF-8 and the fields that a message does not know. -/
structure Runtime where
  Unknown : Type
  noUnknown : Unknown
  mergeUnknown : Unknown → Unknown → Unknown
  serializeUnknown : Unknown → Bytes
  unknownSize : Unknown → ℕ
  unknownFieldParse : ℕ → Unknown → Bytes → Option (Unknown × Bytes)
  /-- of a `uint64_t` -/
  writeVarint : ℕ → Bytes
  varintSize : ℕ → ℕ
  readVarint64 : Bytes → Option (ℕ × Bytes)
  readTag : Bytes → Option (ℕ × Bytes)
  readSize : Bytes → Option (ℕ × Bytes)
  verifyUTF8 : Bytes → Bool
  mergeUnknown_no : ∀ u, mergeUnknown u noUnknown = u
  no_mergeUnknown : ∀ u, mergeUnknown noUnknown u = u
  serializeUnknown_no : serializeUnknown noUnknown = []
  length_serializeUnknown : ∀ u, (serializeUnknown u).length = unknownSize u
  writeVarint_small : ∀ n < 128, writeVarint n = [UInt8.ofNat n]
  length_writeVarint : ∀ n, (writeVarint n).length = varintSize n
  readVarint64_write : ∀ n < 2 ^ 64, ∀ rest, readVarint64 (writeVarint n ++ rest) = some (n, rest)
  /-- `INT_MAX` less the 16 bytes by which a buffer may be overrun -/
  readSize_write : ∀ n ≤ 2 ^ 31 - 17, ∀ rest, readSize (writeVarint n ++ rest) = some (n, rest)
  readTag_small : ∀ b : UInt8, b < 128 → ∀ rest, readTag (b :: rest) = some (b.toNat, rest)
  readTag_lt : ∀ {l t rest}, readTag l = some (t, rest) → rest.length < l.length
  readVarint64_le : ∀ {l n rest}, readVarint64 l = some (n, rest) → rest.length ≤ l.length
  readSize_le : ∀ {l n rest}, readSize l = some (n, rest) → rest.length ≤ l.length
  unknownFieldParse_le : ∀ {t u l v rest}, unknownFieldParse t u l = some (v, rest) →
    rest.length ≤ l.length

/-- `DataAvailable` with `left` bytes to the end of the message and `after` bytes behind it. -/
structure ParseContext where
  DataAvailable : ℕ → ℕ → Bool
  dataAvailable_zero : ∀ after, DataAvailable 0 after = false

/-- Takes part of a message from the front of the bytes. -/
abbrev Reader (M : Type) := M → Bytes → Option (M × Bytes)

/-- What `_InternalParse` does with a tag. -/
inductive Case (M : Type)
  | field (read : Reader M)
  /-- a repeated field, whose reader is given the number of bytes behind the message -/
  | repeated (add : ℕ → Reader M)
  | unusual

/-- `read` does not read backwards. -/
def Consumes {M : Type} (read : Reader M) : Prop :=
  ∀ {m l m' rest}, read m l = some (m', rest) → rest.length ≤ l.length

/-- A message class, as far as the loop of `_InternalParse` depends on it. -/
structure Descriptor (R : Runtime) (M : Type) where
  case : ℕ → Case M
  unknown : M → R.Unknown
  setUnknown : R.Unknown → M → M
  field_consumes : ∀ {tag read}, case tag = .field read → Consumes read
  repeated_consumes : ∀ {tag add}, case tag = .repeated add → ∀ after, Consumes (add after)
  repeated_small : ∀ {tag add}, case tag = .repeated add → tag < 128

section Parse

variable {R : Runtime} {M : Type} (C : ParseContext)

/-- `do { ... } while (ExpectTag<tag>(ptr))`. -/
def repeatedField (add : ℕ → Reader M) (tag : ℕ) (after : ℕ) : ℕ → M → Bytes → Option (M × Bytes)
  | 0, _, _ => none
  | n + 1, m, l => do
    let (m, l) ← add after m l
    if C.DataAvailable l.length after then
      match l with
      | b :: rest => if b.toNat = tag then repeatedField add tag after n m rest else return (m, l)
      | [] => return (m, l)
    else return (m, l)

/-- The loop of `_InternalParse`, with the bytes up to the limit.  A message that ends with a tag of an
end group or with a zero is refused by the caller. -/
def InternalParse (D : Descriptor R M) (after : ℕ) : ℕ → M → Bytes → Option M
  | _, m, [] => some m
  | 0, _, _ :: _ => none
  | n + 1, m, b :: l => do
    let (tag, rest) ← R.readTag (b :: l)
    match D.case tag with
    | .field read =>
      let (m, rest) ← read m rest
      InternalParse D after n m rest
    | .repeated add =>
      let (m, rest) ← repeatedField C add tag after (n + 1) m rest
      InternalParse D after n m rest
    | .unusual =>
      if tag % 8 = 4 ∨ tag = 0 then none
      else
        let (u, rest) ← R.unknownFieldParse tag (D.unknown m) rest
        InternalParse D after n (D.setUnknown u m) rest

/-- The bytes of a length-delimited field. -/
def delimited (R : Runtime) (l : Bytes) : Option (Bytes × Bytes) := do
  let (size, l) ← R.readSize l
  if size ≤ l.length then return (l.take size, l.drop size) else none

/-- `InlineGreedyStringParser` and `VerifyUTF8`. -/
def readString (R : Runtime) (set : Bytes → M → M) : Reader M := fun m l => do
  let (s, l) ← delimited R l
  if R.verifyUTF8 s then return (set s m, l) else none

/-- `ReadVarint64`. -/
def readVarint (R : Runtime) (set : ℕ → M → M) : Reader M := fun m l => do
  let (n, l) ← R.readVarint64 l
  return (set n m, l)

/-- `ParseMessage` into a new element of a repeated field. -/
def readMessage (R : Runtime) {S : Type} (parse : ℕ → Bytes → Option S) (add : S → M → M) (after : ℕ) :
    Reader M := fun m l => do
  let (body, l) ← delimited R l
  let s ← parse (l.length + after) body
  return (add s m, l)

end Parse

/-! ## The readers consume -/

section Consumes

variable {R : Runtime} {M S : Type}

theorem delimited_le {l body rest : Bytes} (h : delimited R l = some (body, rest)) :
    rest.length ≤ l.length := by
  obtain ⟨⟨size, l'⟩, hsize, h⟩ := Option.bind_eq_some_iff.mp h
  have hle := R.readSize_le hsize
  dsimp only at h
  split at h
  · obtain ⟨-, rfl⟩ := Prod.mk.inj (Option.some.inj h)
    rw [List.length_drop]
    omega
  · cases h

theorem readString_consumes (set : Bytes → M → M) : Consumes (readString R set) := by
  intro m l m' rest h
  obtain ⟨⟨s, l'⟩, hs, h⟩ := Option.bind_eq_some_iff.mp h
  dsimp only at h
  split at h
  · obtain ⟨-, rfl⟩ := Prod.mk.inj (Option.some.inj h)
    exact delimited_le hs
  · cases h

theorem readVarint_consumes (set : ℕ → M → M) : Consumes (readVarint R set) := by
  intro m l m' rest h
  obtain ⟨⟨n, l'⟩, hn, h⟩ := Option.bind_eq_some_iff.mp h
  obtain ⟨-, rfl⟩ := Prod.mk.inj (Option.some.inj h)
  exact R.readVarint64_le hn

theorem readMessage_consumes (parse : ℕ → Bytes → Option S) (add : S → M → M) (after : ℕ) :
    Consumes (readMessage R parse add after) := by
  intro m l m' rest h
  obtain ⟨⟨body, l'⟩, hbody, h⟩ := Option.bind_eq_some_iff.mp h
  obtain ⟨s, -, h⟩ := Option.bind_eq_some_iff.mp h
  obtain ⟨-, rfl⟩ := Prod.mk.inj (Option.some.inj h)
  exact delimited_le hbody

end Consumes

/-! ## The loop -/

section Loop

variable {R : Runtime} {M : Type} (D : Descriptor R M)

/-- A context in which the short cut is never taken. -/
def never : ParseContext := ⟨fun _ _ => false, fun _ => rfl⟩

/-- `_InternalParse`: each round of its loop takes a byte at least. -/
def Descriptor.parse (C : ParseContext) (after : ℕ) (m : M) (l : Bytes) : Option M :=
  InternalParse C D after l.length m l

variable {D} {after n k : ℕ} {m : M} {l : Bytes}

theorem repeatedField_never (add : ℕ → Reader M) (tag : ℕ) :
    repeatedField never add tag after (n + 1) m l = add after m l := by
  rw [repeatedField, Option.bind_eq_bind]
  cases add after m l with
  | none => rfl
  | some p => rfl

/-- **Enough rounds**: the length of the bytes bounds the number of rounds. -/
theorem InternalParse_never_congr (hn : l.length ≤ n) (hk : l.length ≤ k) :
    InternalParse never D after n m l = InternalParse never D after k m l := by
  induction n generalizing m l k with
  | zero =>
    obtain rfl := List.eq_nil_of_length_eq_zero (Nat.le_zero.mp hn)
    cases k <;> rfl
  | succ n ih =>
    obtain _ | ⟨b, l⟩ := l
    · cases k <;> rfl
    · obtain _ | k := k
      · cases hk
      · rw [InternalParse, InternalParse, Option.bind_eq_bind, Option.bind_eq_bind]
        refine Option.bind_congr fun p hp => ?_
        obtain ⟨tag, rest⟩ := p
        have hrest := R.readTag_lt hp
        rw [List.length_cons] at hrest hn hk
        dsimp only
        cases hcase : D.case tag with
        | field read =>
          refine Option.bind_congr fun q hq => ih ?_ ?_
          · have hle := D.field_consumes hcase hq
            omega
          · have hle := D.field_consumes hcase hq
            omega
        | repeated add =>
          dsimp only
          rw [repeatedField_never, repeatedField_never]
          refine Option.bind_congr fun q hq => ih ?_ ?_
          · have hle := D.repeated_consumes hcase _ hq
            omega
          · have hle := D.repeated_consumes hcase _ hq
            omega
        | unusual =>
          dsimp only
          split
          · rfl
          · refine Option.bind_congr fun q hq => ih ?_ ?_
            · have hle := R.unknownFieldParse_le hq
              omega
            · have hle := R.unknownFieldParse_le hq
              omega

/-- What is left of the message after a tag of a repeated field. -/
theorem parse_repeated {b : UInt8} {add : ℕ → Reader M} (hcase : D.case b.toNat = .repeated add) :
    D.parse never after m (b :: l) =
      (add after m l).bind fun p => D.parse never after p.1 p.2 := by
  have hb : b < 128 := D.repeated_small hcase
  rw [Descriptor.parse, List.length_cons, InternalParse, R.readTag_small b hb, Option.bind_eq_bind,
    Option.bind_some]
  dsimp only
  rw [hcase]
  dsimp only
  rw [repeatedField_never, Option.bind_eq_bind]
  exact Option.bind_congr fun q hq =>
    InternalParse_never_congr (D.repeated_consumes hcase after hq) (Nat.le_refl _)

/-- And of any other field. -/
theorem parse_field {b : UInt8} {read : Reader M} (hb : b < 128)
    (hcase : D.case b.toNat = .field read) :
    D.parse never after m (b :: l) = (read m l).bind fun p => D.parse never after p.1 p.2 := by
  rw [Descriptor.parse, List.length_cons, InternalParse, R.readTag_small b hb, Option.bind_eq_bind,
    Option.bind_some]
  dsimp only
  rw [hcase]
  dsimp only
  rw [Option.bind_eq_bind]
  exact Option.bind_congr fun q hq =>
    InternalParse_never_congr (D.field_consumes hcase hq) (Nat.le_refl _)

variable (C : ParseContext)

theorem repeatedField_consumes {tag : ℕ} {add : ℕ → Reader M} (hadd : Consumes (add after)) :
    Consumes (repeatedField C add tag after k) := by
  induction k with
  | zero =>
    intro m l m' rest h
    cases h
  | succ k ih =>
    intro m l m' rest h
    obtain ⟨⟨m₁, l₁⟩, hread, h⟩ := Option.bind_eq_some_iff.mp h
    have hle := hadd hread
    dsimp only at h
    split at h
    · split at h
      · split at h
        · have hrest := ih h
          rw [List.length_cons] at hle
          omega
        · obtain ⟨-, rfl⟩ := Prod.mk.inj (Option.some.inj h)
          exact hle
      · obtain ⟨-, rfl⟩ := Prod.mk.inj (Option.some.inj h)
        exact hle
    · obtain ⟨-, rfl⟩ := Prod.mk.inj (Option.some.inj h)
      exact hle

/-- **The short cut** reads what the loop would read. -/
theorem repeatedField_bind {tag : ℕ} {add : ℕ → Reader M} (hcase : D.case tag = .repeated add)
    (hk : l.length < k) :
    ((repeatedField C add tag after k m l).bind fun p => D.parse never after p.1 p.2) =
      (add after m l).bind fun p => D.parse never after p.1 p.2 := by
  induction k generalizing m l with
  | zero => cases hk
  | succ k ih =>
    rw [repeatedField, Option.bind_eq_bind, Option.bind_assoc]
    refine Option.bind_congr fun p hp => ?_
    obtain ⟨m', rest⟩ := p
    have hle : rest.length ≤ l.length := D.repeated_consumes hcase after hp
    dsimp only
    split
    · obtain _ | ⟨b, rest⟩ := rest
      · rfl
      · dsimp only
        rw [List.length_cons] at hle
        split
        · next htag =>
          subst htag
          rw [ih (by omega), parse_repeated hcase]
        · rfl
    · rfl

/-- **The parser does not depend on where its buffers end**. -/
theorem Descriptor.parse_eq_never : D.parse C after m l = D.parse never after m l := by
  suffices hn : ∀ n, l.length ≤ n →
      InternalParse C D after n m l = InternalParse never D after n m l from hn _ (Nat.le_refl _)
  intro n hn
  induction n generalizing m l with
  | zero =>
    obtain rfl := List.eq_nil_of_length_eq_zero (Nat.le_zero.mp hn)
    rfl
  | succ n ih =>
    obtain _ | ⟨b, l⟩ := l
    · rfl
    · rw [InternalParse, InternalParse, Option.bind_eq_bind, Option.bind_eq_bind]
      refine Option.bind_congr fun p hp => ?_
      obtain ⟨tag, rest⟩ := p
      have hrest := R.readTag_lt hp
      rw [List.length_cons] at hrest hn
      dsimp only
      cases hcase : D.case tag with
      | field read =>
        refine Option.bind_congr fun q hq => ih ?_
        have hle := D.field_consumes hcase hq
        omega
      | repeated add =>
        dsimp only
        rw [repeatedField_never]
        calc (repeatedField C add tag after (n + 1) m rest).bind _
            = (repeatedField C add tag after (n + 1) m rest).bind fun p =>
                D.parse never after p.1 p.2 := Option.bind_congr fun q hq => by
              have hle := repeatedField_consumes C (D.repeated_consumes hcase after) hq
              rw [ih (by omega)]
              exact InternalParse_never_congr (by omega) (Nat.le_refl _)
          _ = (add after m rest).bind fun p => D.parse never after p.1 p.2 :=
              repeatedField_bind C hcase (by omega)
          _ = _ := Option.bind_congr fun q hq => by
              have hle := D.repeated_consumes hcase after hq
              exact InternalParse_never_congr (Nat.le_refl _) (by omega)
      | unusual =>
        dsimp only
        split
        · rfl
        · refine Option.bind_congr fun q hq => ih ?_
          have hle := R.unknownFieldParse_le hq
          omega

/-- Two cases that read alike with `after` and `after'` bytes behind the message. -/
inductive Case.Alike (after after' : ℕ) : Case M → Case M → Prop
  | field (read : Reader M) : Case.Alike after after' (.field read) (.field read)
  | repeated {add add' : ℕ → Reader M} (h : add after = add' after') :
    Case.Alike after after' (.repeated add) (.repeated add')
  | unusual : Case.Alike after after' .unusual .unusual

/-- Messages whose cases read alike are parsed alike. -/
theorem Descriptor.parse_congr {D' : Descriptor R M} {after' : ℕ}
    (hcase : ∀ tag, Case.Alike after after' (D.case tag) (D'.case tag))
    (hunknown : D.unknown = D'.unknown) (hset : D.setUnknown = D'.setUnknown) :
    D.parse never after m l = D'.parse never after' m l := by
  unfold Descriptor.parse
  generalize l.length = n
  induction n generalizing m l with
  | zero => cases l <;> rfl
  | succ n ih =>
    obtain _ | ⟨b, l⟩ := l
    · rfl
    · rw [InternalParse, InternalParse, Option.bind_eq_bind, Option.bind_eq_bind]
      refine Option.bind_congr fun p _ => ?_
      obtain ⟨tag, rest⟩ := p
      have hc := hcase tag
      dsimp only
      generalize D.case tag = c at hc ⊢
      generalize D'.case tag = c' at hc ⊢
      cases hc with
      | field read => exact Option.bind_congr fun q _ => ih
      | repeated h =>
        dsimp only
        rw [repeatedField_never, repeatedField_never, h]
        exact Option.bind_congr fun q _ => ih
      | unusual =>
        dsimp only
        rw [hunknown, hset]
        split
        · rfl
        · exact Option.bind_congr fun q _ => ih

/-- `read` keeps `I`. -/
def Keeps (I : M → Prop) (read : Reader M) : Prop :=
  ∀ m l m' rest, I m → read m l = some (m', rest) → I m'

/-- **What every reader keeps, the parser keeps**. -/
theorem Descriptor.parse_keeps {I : M → Prop}
    (hfield : ∀ tag read, D.case tag = .field read → Keeps I read)
    (hrepeated : ∀ tag add, D.case tag = .repeated add → ∀ after, Keeps I (add after))
    (hunknown : ∀ u m, I m → I (D.setUnknown u m)) {m' : M} (hm : I m)
    (h : D.parse C after m l = some m') : I m' := by
  rw [D.parse_eq_never] at h
  unfold Descriptor.parse at h
  generalize l.length = n at h
  induction n generalizing m l with
  | zero =>
    obtain _ | ⟨b, l⟩ := l
    · obtain rfl := Option.some.inj h
      exact hm
    · cases h
  | succ n ih =>
    obtain _ | ⟨b, l⟩ := l
    · obtain rfl := Option.some.inj h
      exact hm
    · rw [InternalParse, Option.bind_eq_bind, Option.bind_eq_some_iff] at h
      obtain ⟨⟨tag, rest⟩, -, h⟩ := h
      dsimp only at h
      cases hcase : D.case tag with
      | field read =>
        rw [hcase] at h
        obtain ⟨q, hq, h⟩ := Option.bind_eq_some_iff.mp h
        exact ih (hfield _ _ hcase _ _ _ _ hm hq) h
      | repeated add =>
        rw [hcase] at h
        dsimp only at h
        rw [repeatedField_never] at h
        obtain ⟨q, hq, h⟩ := Option.bind_eq_some_iff.mp h
        exact ih (hrepeated _ _ hcase after _ _ _ _ hm hq) h
      | unusual =>
        rw [hcase] at h
        dsimp only at h
        split at h
        · cases h
        · obtain ⟨q, -, h⟩ := Option.bind_eq_some_iff.mp h
          exact ih (hunknown _ _ hm) h

theorem readString_keeps {I : M → Prop} {set : Bytes → M → M}
    (h : ∀ s m, R.verifyUTF8 s = true → I m → I (set s m)) : Keeps I (readString R set) := by
  intro m l m' rest hm hr
  obtain ⟨⟨s, l'⟩, -, hr⟩ := Option.bind_eq_some_iff.mp hr
  dsimp only at hr
  split at hr
  · next hs =>
    obtain ⟨rfl, -⟩ := Prod.mk.inj (Option.some.inj hr)
    exact h s m hs hm
  · cases hr

theorem readVarint_keeps {I : M → Prop} {set : ℕ → M → M} (h : ∀ n m, I m → I (set n m)) :
    Keeps I (readVarint R set) := by
  intro m l m' rest hm hr
  obtain ⟨⟨n, l'⟩, -, hr⟩ := Option.bind_eq_some_iff.mp hr
  obtain ⟨rfl, -⟩ := Prod.mk.inj (Option.some.inj hr)
  exact h n m hm

theorem readMessage_keeps {S : Type} {I : M → Prop} {parse : ℕ → Bytes → Option S} {add : S → M → M}
    (h : ∀ after l s m, parse after l = some s → I m → I (add s m)) (after : ℕ) :
    Keeps I (readMessage R parse add after) := by
  intro m l m' rest hm hr
  obtain ⟨⟨body, l'⟩, -, hr⟩ := Option.bind_eq_some_iff.mp hr
  obtain ⟨s, hs, hr⟩ := Option.bind_eq_some_iff.mp hr
  obtain ⟨rfl, -⟩ := Prod.mk.inj (Option.some.inj hr)
  exact h _ _ s m hs hm

end Loop

/-! ## Writing -/

/-- A tag and a length-delimited field of `size` bytes. -/
def writeDelimited (R : Runtime) (tag : ℕ) (size : ℕ) (l : Bytes) : Bytes :=
  R.writeVarint tag ++ (R.writeVarint (size % 2 ^ 32) ++ l)

/-- `WriteStringMaybeAliased`. -/
def writeString (R : Runtime) (tag : ℕ) (s : Bytes) : Bytes := writeDelimited R tag s.length s

/-- `InternalWriteMessage`, with the size that `ByteSizeLong` has cached. -/
def writeMessage (R : Runtime) (tag : ℕ) (cachedSize : ℕ) (l : Bytes) : Bytes :=
  writeDelimited R tag cachedSize l

/-- `LengthDelimitedSize`. -/
def delimitedSize (R : Runtime) (n : ℕ) : ℕ := n + R.varintSize (n % 2 ^ 32)

/-- The `uint64_t` that is written for an `int32_t` or an enumeration. -/
def int32Bits (v : BitVec 32) : ℕ := (v.signExtend 64).toNat

/-! ## What is written -/

section Written

variable {R : Runtime} {M : Type} {D : Descriptor R M}

theorem length_writeDelimited {tag n : ℕ} {l : Bytes} (htag : tag < 128) (hl : l.length = n) :
    (writeDelimited R tag n l).length = 1 + delimitedSize R n := by
  rw [writeDelimited, R.writeVarint_small tag htag, List.length_append, List.length_append,
    R.length_writeVarint, hl, delimitedSize, List.length_singleton]
  omega

theorem delimited_write {n : ℕ} {l : Bytes} (hl : l.length = n) (hn : n ≤ 2 ^ 31 - 17) (rest : Bytes) :
    delimited R (R.writeVarint (n % 2 ^ 32) ++ l ++ rest) = some (l, rest) := by
  subst hl
  rw [Nat.mod_eq_of_lt (by omega), delimited, List.append_assoc, R.readSize_write _ hn,
    Option.bind_eq_bind, Option.bind_some]
  dsimp only
  rw [if_pos (by rw [List.length_append]; omega), List.take_left, List.drop_left]
  rfl

/-- In the bytes `l` the parser finds what `f` does to a message, or refuses. -/
def Taken (D : Descriptor R M) (l : Bytes) (f : M → Option M) : Prop :=
  ∀ after m rest, D.parse never after m (l ++ rest) =
    (f m).bind fun m' => D.parse never after m' rest

theorem taken_nil : Taken D [] some := fun _ _ _ => rfl

theorem Taken.append {l l' : Bytes} {f f' : M → Option M} (h : Taken D l f) (h' : Taken D l' f') :
    Taken D (l ++ l') fun m => (f m).bind f' := by
  intro after m rest
  rw [List.append_assoc, h, Option.bind_assoc]
  exact Option.bind_congr fun m' _ => h' after m' rest

/-- The parser ends where the bytes end. -/
theorem Taken.parse {l : Bytes} {f : M → Option M} (h : Taken D l f) (C : ParseContext) (after : ℕ)
    (m : M) : D.parse C after m l = f m := by
  have hl := h after m []
  rw [List.append_nil] at hl
  rw [D.parse_eq_never, hl]
  cases f m with
  | none => rfl
  | some m' => rfl

/-- A field that is only written when it is not the default. -/
theorem Taken.ite {p : Prop} [Decidable p] {l : Bytes} {f : M → Option M} (h : Taken D l f) :
    Taken D (if p then l else []) fun m => if p then f m else some m := by
  by_cases hp : p
  · simpa only [if_pos hp] using h
  · simpa only [if_neg hp] using taken_nil

variable {tag : ℕ}

theorem taken_field {read : Reader M} {l : Bytes} {f : M → Option M} (htag : tag < 128)
    (hcase : D.case tag = .field read)
    (hread : ∀ m rest, read m (l ++ rest) = (f m).map fun m' => (m', rest)) :
    Taken D (R.writeVarint tag ++ l) f := by
  intro after m rest
  have hb : (UInt8.ofNat tag).toNat = tag := by
    rw [UInt8.toNat_ofNat']
    omega
  have hsmall : UInt8.ofNat tag < 128 := UInt8.lt_iff_toNat_lt.mpr (by rw [hb]; exact htag)
  have hcase' : D.case (UInt8.ofNat tag).toNat = .field read := by rw [hb, hcase]
  rw [R.writeVarint_small tag htag, List.append_assoc, List.singleton_append,
    parse_field hsmall hcase', hread]
  cases f m with
  | none => rfl
  | some m' => rfl

theorem taken_repeated {add : ℕ → Reader M} {l : Bytes} {f : M → Option M}
    (hcase : D.case tag = .repeated add)
    (hread : ∀ after m rest, add after m (l ++ rest) = (f m).map fun m' => (m', rest)) :
    Taken D (R.writeVarint tag ++ l) f := by
  intro after m rest
  have htag := D.repeated_small hcase
  have hb : (UInt8.ofNat tag).toNat = tag := by
    rw [UInt8.toNat_ofNat']
    omega
  have hcase' : D.case (UInt8.ofNat tag).toNat = .repeated add := by rw [hb, hcase]
  rw [R.writeVarint_small tag htag, List.append_assoc, List.singleton_append, parse_repeated hcase',
    hread]
  cases f m with
  | none => rfl
  | some m' => rfl

/-- **A string**, if it is UTF-8. -/
theorem taken_string {set : Bytes → M → M} {s : Bytes} (htag : tag < 128)
    (hcase : D.case tag = .field (readString R set)) (hs : s.length ≤ 2 ^ 31 - 17) :
    Taken D (writeString R tag s) fun m => if R.verifyUTF8 s then some (set s m) else none := by
  refine taken_field htag hcase fun m rest => ?_
  rw [readString, delimited_write rfl hs, Option.bind_eq_bind, Option.bind_some]
  dsimp only
  split
  · rfl
  · rfl

theorem int32Bits_lt (v : BitVec 32) : int32Bits v < 2 ^ 64 := (v.signExtend 64).isLt

/-- The low bits of what is written for a number are the number. -/
theorem ofNat_int32Bits (v : BitVec 32) : BitVec.ofNat 32 (int32Bits v) = v := by
  rw [int32Bits, BitVec.ofNat_toNat]
  ext i hi
  rw [BitVec.getElem_setWidth, BitVec.getLsbD_signExtend]
  have hlt : i < 64 := by omega
  simp only [hlt, hi, decide_true, Bool.true_and, if_true]
  exact BitVec.getLsbD_eq_getElem hi

/-- **A number** is read back with its bits. -/
theorem taken_int32 {set : ℕ → M → M} {v : BitVec 32} (htag : tag < 128)
    (hcase : D.case tag = .field (readVarint R set)) :
    Taken D (R.writeVarint tag ++ R.writeVarint (int32Bits v)) fun m => some (set (int32Bits v) m) := by
  refine taken_field htag hcase fun m rest => ?_
  rw [readVarint, R.readVarint64_write _ (int32Bits_lt v), Option.bind_eq_bind, Option.bind_some]
  rfl

/-- **An element of a repeated field** is read back as its own parser reads it. -/
theorem taken_message {S : Type} {parse : ℕ → Bytes → Option S} {add : S → M → M} {n : ℕ} {l : Bytes}
    {r : Option S} (hcase : D.case tag = .repeated (readMessage R parse add)) (hl : l.length = n)
    (hn : n ≤ 2 ^ 31 - 17) (hparse : ∀ after, parse after l = r) :
    Taken D (writeMessage R tag n l) fun m => r.map fun s => add s m := by
  refine taken_repeated hcase fun after m rest => ?_
  rw [readMessage, delimited_write hl hn, Option.bind_eq_bind, Option.bind_some]
  dsimp only
  rw [hparse]
  cases r with
  | none => rfl
  | some s => rfl

end Written

end MengSen.Proto

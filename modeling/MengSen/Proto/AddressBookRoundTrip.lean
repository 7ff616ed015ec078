import MengSen.Proto.AddressBook
import MengSen.Lib.Varint
import Mathlib.Algebra.Order.BigOperators.Group.List

/-!
# Proto.AddressBookRoundTrip — what is written is read back

A message without unknown fields is parsed from what `_InternalSerialize` writes exactly when its strings
are UTF-8, and parsing it into a message is `MergeFrom`.  The length in front of a nested message is the
one that `ByteSizeLong` computes, so that the two agree is part of it (`length_serialize`).
-/

namespace MengSen.Proto

variable {R : Runtime} (C : ParseContext)

/-! ## Sizes -/

theorem PhoneNumber.length_serialize (m : PhoneNumber R) : m.serialize.length = m.ByteSizeLong := by
  unfold serialize ByteSizeLong
  rw [List.length_append, List.length_append, R.length_serializeUnknown]
  congr 2
  · split
    · exact length_writeDelimited (by decide) rfl
    · rfl
  · split
    · rw [R.writeVarint_small 16 (by decide), List.length_append, R.length_writeVarint]
      rfl
    · rfl

/-- The elements of a repeated field, each behind its tag and its size. -/
theorem length_flatMap_message {S : Type} (size : S → ℕ) (serialize : S → Bytes)
    (hlen : ∀ s, (serialize s).length = size s) {tag : ℕ} (htag : tag < 128) (l : List S) :
    (l.flatMap fun s => writeMessage R tag (size s) (serialize s)).length =
      1 * l.length + (l.map fun s => delimitedSize R (size s)).sum := by
  induction l with
  | nil => rfl
  | cons s l ih =>
    rw [List.flatMap_cons, List.length_append, ih, writeMessage,
      length_writeDelimited htag (hlen s), List.length_cons, List.map_cons, List.sum_cons]
    omega

theorem Person.length_serialize (m : Person R) : m.serialize.length = m.ByteSizeLong := by
  have hname : (if m.name.length > 0 then writeString R 10 m.name else []).length =
      if m.name.length > 0 then 1 + delimitedSize R m.name.length else 0 := by
    split
    · exact length_writeDelimited (by decide) rfl
    · rfl
  have hemail : (if m.email.length > 0 then writeString R 26 m.email else []).length =
      if m.email.length > 0 then 1 + delimitedSize R m.email.length else 0 := by
    split
    · exact length_writeDelimited (by decide) rfl
    · rfl
  have hid : (if m.id ≠ 0 then R.writeVarint 16 ++ R.writeVarint (int32Bits m.id) else []).length =
      if m.id ≠ 0 then 1 + R.varintSize (int32Bits m.id) else 0 := by
    split
    · rw [R.writeVarint_small 16 (by decide), List.length_append, R.length_writeVarint]
      rfl
    · rfl
  unfold serialize ByteSizeLong
  rw [List.length_append, List.length_append, List.length_append, List.length_append,
    R.length_serializeUnknown, hname, hemail, hid,
    length_flatMap_message _ _ PhoneNumber.length_serialize (by decide)]
  omega

theorem AddressBook.length_serialize (m : AddressBook R) : m.serialize.length = m.ByteSizeLong := by
  unfold serialize ByteSizeLong
  rw [List.length_append, R.length_serializeUnknown,
    length_flatMap_message _ _ Person.length_serialize (by decide)]

/-! ## Messages that are read back -/

/-- No unknown fields. -/
def PhoneNumber.Known (m : PhoneNumber R) : Prop := m.unknown = R.noUnknown

def Person.Known (m : Person R) : Prop := m.unknown = R.noUnknown ∧ ∀ p ∈ m.phone, p.Known

def AddressBook.Known (m : AddressBook R) : Prop := m.unknown = R.noUnknown ∧ ∀ p ∈ m.person, p.Known

/-- The strings that are written are UTF-8. -/
def PhoneNumber.Utf8 (m : PhoneNumber R) : Prop := m.number.length > 0 → R.verifyUTF8 m.number = true

instance (m : PhoneNumber R) : Decidable m.Utf8 := inferInstanceAs (Decidable (_ → _))

def Person.Utf8 (m : Person R) : Prop :=
  (m.name.length > 0 → R.verifyUTF8 m.name = true) ∧
    (m.email.length > 0 → R.verifyUTF8 m.email = true) ∧ ∀ p ∈ m.phone, p.Utf8

instance (m : Person R) : Decidable m.Utf8 := inferInstanceAs (Decidable (_ ∧ _ ∧ _))

def AddressBook.Utf8 (m : AddressBook R) : Prop := ∀ p ∈ m.person, p.Utf8

instance (m : AddressBook R) : Decidable m.Utf8 := inferInstanceAs (Decidable (∀ p ∈ _, _))

/-! ## Fields that are written when they are not the default -/

section Fields

variable {M S : Type} {D : Descriptor R M} {l : Bytes} {f f' : M → Option M} {tag : ℕ}

theorem Taken.congr (h : Taken D l f) (hf : ∀ m, f m = f' m) : Taken D l f' := by
  rwa [← funext hf]

theorem bind_ite {p : Prop} [Decidable p] {x : M} :
    (if p then some x else none).bind f = if p then f x else none := by
  split
  · rfl
  · rfl

theorem taken_optString {set : Bytes → M → M} {s : Bytes} (htag : tag < 128)
    (hcase : D.case tag = .field (readString R set)) (hs : s.length ≤ 2 ^ 31 - 17) :
    Taken D (if s.length > 0 then writeString R tag s else []) fun m =>
      if s.length > 0 → R.verifyUTF8 s = true then some (if s.length > 0 then set s m else m)
      else none := by
  refine (taken_string htag hcase hs).ite.congr fun m => ?_
  by_cases hpos : s.length > 0
  · simp [hpos]
  · simp [hpos]

theorem taken_optInt32 {set : ℕ → M → M} {v : BitVec 32} (htag : tag < 128)
    (hcase : D.case tag = .field (readVarint R set)) :
    Taken D (if v ≠ 0 then R.writeVarint tag ++ R.writeVarint (int32Bits v) else []) fun m =>
      some (if v ≠ 0 then set (int32Bits v) m else m) := by
  refine (taken_int32 htag hcase).ite.congr fun m => ?_
  split
  · rfl
  · rfl

/-- The elements of a repeated field, each of which is read back when it is `good`. -/
theorem taken_messages {parse : ℕ → Bytes → Option S} {add : S → M → M} {size : S → ℕ}
    {serialize : S → Bytes} {good : S → Prop} [DecidablePred good] (push : M → List S → M)
    (hcase : D.case tag = .repeated (readMessage R parse add))
    (hlen : ∀ s, (serialize s).length = size s)
    (hnil : ∀ m, push m [] = m) (hcons : ∀ m s l, push (add s m) l = push m (s :: l)) (ss : List S)
    (hsize : ∀ s ∈ ss, size s ≤ 2 ^ 31 - 17)
    (hparse : ∀ s ∈ ss, ∀ after, parse after (serialize s) = if good s then some s else none) :
    Taken D (ss.flatMap fun s => writeMessage R tag (size s) (serialize s)) fun m =>
      if ∀ s ∈ ss, good s then some (push m ss) else none := by
  induction ss with
  | nil =>
    refine taken_nil.congr fun m => ?_
    rw [if_pos fun s hs => absurd hs List.not_mem_nil, hnil]
  | cons s ss ih =>
    have hfirst := taken_message hcase (hlen s) (hsize s (List.mem_cons_self ..))
      (hparse s (List.mem_cons_self ..))
    have hrest := ih (fun s' hs' => hsize s' (List.mem_cons_of_mem _ hs'))
      fun s' hs' => hparse s' (List.mem_cons_of_mem _ hs')
    rw [List.flatMap_cons]
    refine (hfirst.append hrest).congr fun m => ?_
    by_cases hs : good s
    · simp [hs, hcons]
    · simp [hs]

end Fields

/-! ## The messages -/

/-- **A phone number** is read back if its number is UTF-8. -/
theorem PhoneNumber.taken (b : PhoneNumber R) (hknown : b.Known) (hsize : b.ByteSizeLong ≤ 2 ^ 31 - 17) :
    Taken descriptor b.serialize fun a => if b.Utf8 then some (a.MergeFrom b) else none := by
  have hlen : b.number.length ≤ 2 ^ 31 - 17 := by
    unfold ByteSizeLong delimitedSize at hsize
    split at hsize <;> omega
  have hnumber : Taken (descriptor (R := R))
      (if b.number.length > 0 then writeString R 10 b.number else []) _ :=
    taken_optString (by decide) rfl hlen
  have htype : Taken (descriptor (R := R))
      (if b.type ≠ 0 then R.writeVarint 16 ++ R.writeVarint (int32Bits b.type) else []) _ :=
    taken_optInt32 (by decide) rfl
  have hunknown : b.unknown = R.noUnknown := hknown
  unfold serialize
  rw [hunknown, R.serializeUnknown_no, List.append_nil]
  refine (hnumber.append htype).congr fun a => ?_
  rw [bind_ite]
  refine if_congr Iff.rfl (congrArg some ?_) rfl
  rw [MergeFrom, hunknown, R.mergeUnknown_no]
  split <;> split <;> simp [set_number, set_type, ofNat_int32Bits]

/-- What is not written is the default. -/
theorem ite_length_pos (s : Bytes) : (if s.length > 0 then s else []) = s := by
  split
  · rfl
  · next h => exact (List.eq_nil_of_length_eq_zero (by omega)).symm

theorem ite_ne_zero (v : BitVec 32) : (if v ≠ 0 then v else 0) = v := by
  split
  · rfl
  · next h => exact (not_not.mp h).symm

theorem PhoneNumber.empty_merge (b : PhoneNumber R) : empty.MergeFrom b = b := by
  obtain ⟨number, type, unknown⟩ := b
  simp only [MergeFrom, empty, ite_length_pos, ite_ne_zero, R.no_mergeUnknown]

theorem PhoneNumber.parse_serialize (b : PhoneNumber R) (hknown : b.Known)
    (hsize : b.ByteSizeLong ≤ 2 ^ 31 - 17) (after : ℕ) :
    parse C after .empty b.serialize = if b.Utf8 then some b else none := by
  rw [parse, (b.taken hknown hsize).parse, empty_merge]

variable (R) in
/-- A message is as long as each of its elements at least. -/
theorem size_le_of_mem {S : Type} (size : S → ℕ) {l : List S} {s : S} (hs : s ∈ l) :
    size s ≤ (l.map fun s => delimitedSize R (size s)).sum := by
  refine le_trans ?_ (List.single_le_sum (fun _ _ => Nat.zero_le _) _ (List.mem_map_of_mem hs))
  unfold delimitedSize
  omega

def Person.add_phones (m : Person R) (phones : List (PhoneNumber R)) : Person R :=
  { m with phone := m.phone ++ phones }

/-- **A person** is read back if its strings, and those of its phone numbers, are UTF-8. -/
theorem Person.taken (b : Person R) (hknown : b.Known) (hsize : b.ByteSizeLong ≤ 2 ^ 31 - 17) :
    Taken (descriptor C) b.serialize fun a => if b.Utf8 then some (a.MergeFrom b) else none := by
  obtain ⟨hunknown, hphones⟩ := hknown
  have hname : b.name.length ≤ 2 ^ 31 - 17 := by
    unfold ByteSizeLong delimitedSize at hsize
    split at hsize <;> omega
  have hemail : b.email.length ≤ 2 ^ 31 - 17 := by
    unfold ByteSizeLong delimitedSize at hsize
    split at hsize <;> split at hsize <;> omega
  have hphone : ∀ p ∈ b.phone, p.ByteSizeLong ≤ 2 ^ 31 - 17 := by
    intro p hp
    have hle := size_le_of_mem R PhoneNumber.ByteSizeLong hp
    unfold ByteSizeLong at hsize
    omega
  have h1 : Taken (descriptor (R := R) C)
      (if b.name.length > 0 then writeString R 10 b.name else []) _ :=
    taken_optString (by decide) rfl hname
  have h2 : Taken (descriptor (R := R) C)
      (if b.id ≠ 0 then R.writeVarint 16 ++ R.writeVarint (int32Bits b.id) else []) _ :=
    taken_optInt32 (by decide) rfl
  have h3 : Taken (descriptor (R := R) C)
      (if b.email.length > 0 then writeString R 26 b.email else []) _ :=
    taken_optString (by decide) rfl hemail
  have h4 : Taken (descriptor (R := R) C)
      (b.phone.flatMap fun p => writeMessage R 34 p.ByteSizeLong p.serialize) fun m =>
        if ∀ p ∈ b.phone, p.Utf8 then some (m.add_phones b.phone) else none :=
    taken_messages add_phones rfl PhoneNumber.length_serialize (fun m => by simp [add_phones])
      (fun m s l => by simp [add_phones, add_phone]) b.phone hphone
      fun p hp after => p.parse_serialize C (hphones p hp) (hphone p hp) after
  unfold serialize
  rw [hunknown, R.serializeUnknown_no, List.append_nil]
  refine (((h1.append h2).append h3).append h4).congr fun a => ?_
  by_cases hu1 : b.name.length > 0 → R.verifyUTF8 b.name = true
  · by_cases hu2 : b.email.length > 0 → R.verifyUTF8 b.email = true
    · rw [if_pos hu1, Option.bind_some, Option.bind_some, if_pos hu2, Option.bind_some]
      have hutf8 : (∀ p ∈ b.phone, p.Utf8) ↔ b.Utf8 := ⟨fun h => ⟨hu1, hu2, h⟩, fun h => h.2.2⟩
      refine if_congr hutf8 (congrArg some ?_) rfl
      rw [MergeFrom, hunknown, R.mergeUnknown_no]
      split <;> split <;> split <;>
        simp [set_name, set_email, set_id, add_phones, ofNat_int32Bits]
    · rw [if_pos hu1, Option.bind_some, Option.bind_some, if_neg hu2, Option.bind_none,
        if_neg fun h => hu2 h.2.1]
  · rw [if_neg hu1, Option.bind_none, Option.bind_none, Option.bind_none, if_neg fun h => hu1 h.1]

theorem Person.empty_merge (b : Person R) : empty.MergeFrom b = b := by
  obtain ⟨phone, name, email, id, unknown⟩ := b
  simp only [MergeFrom, empty, ite_length_pos, ite_ne_zero, R.no_mergeUnknown, List.nil_append]

theorem Person.parse_serialize (b : Person R) (hknown : b.Known)
    (hsize : b.ByteSizeLong ≤ 2 ^ 31 - 17) (after : ℕ) :
    parse C after .empty b.serialize = if b.Utf8 then some b else none := by
  rw [parse, (b.taken C hknown hsize).parse, empty_merge]

def AddressBook.add_persons (m : AddressBook R) (persons : List (Person R)) : AddressBook R :=
  { m with person := m.person ++ persons }

/-- **An address book** is read back if all strings of its persons are UTF-8. -/
theorem AddressBook.taken (b : AddressBook R) (hknown : b.Known) (hsize : b.ByteSizeLong ≤ 2 ^ 31 - 17) :
    Taken (descriptor C) b.serialize fun a => if b.Utf8 then some (a.MergeFrom b) else none := by
  obtain ⟨hunknown, hpersons⟩ := hknown
  have hperson : ∀ p ∈ b.person, p.ByteSizeLong ≤ 2 ^ 31 - 17 := by
    intro p hp
    have hle := size_le_of_mem R Person.ByteSizeLong hp
    unfold ByteSizeLong at hsize
    omega
  have h : Taken (descriptor (R := R) C)
      (b.person.flatMap fun p => writeMessage R 10 p.ByteSizeLong p.serialize) fun m =>
        if ∀ p ∈ b.person, p.Utf8 then some (m.add_persons b.person) else none :=
    taken_messages add_persons rfl Person.length_serialize (fun m => by simp [add_persons])
      (fun m s l => by simp [add_persons, add_person]) b.person hperson
      fun p hp after => p.parse_serialize C (hpersons p hp) (hperson p hp) after
  unfold serialize
  rw [hunknown, R.serializeUnknown_no, List.append_nil]
  refine h.congr fun a => if_congr Iff.rfl (congrArg some ?_) rfl
  rw [MergeFrom, hunknown, R.mergeUnknown_no]
  rfl

/-! ## Round trips -/

/-- **What is written is read back**: parsing what `_InternalSerialize` writes for `b` into `a` gives what
`a.MergeFrom(b)` gives, wherever the buffers of the parser end, and fails exactly when a string of `b` is
not UTF-8; what is written for two address books is read as the first merged with the second; and
`ByteSizeLong` is the number of bytes written. -/
theorem AddressBook.read_back (a b : AddressBook R) (hknown : b.Known)
    (hsize : b.ByteSizeLong ≤ 2 ^ 31 - 17) :
    b.serialize.length = b.ByteSizeLong ∧
      (∀ after, parse C after a b.serialize = if b.Utf8 then some (a.MergeFrom b) else none) ∧
      (∀ after, parse C after .empty b.serialize = if b.Utf8 then some b else none) ∧
      (a.Known → a.Utf8 → a.ByteSizeLong ≤ 2 ^ 31 - 17 → ∀ after,
        parse C after .empty (a.serialize ++ b.serialize) =
          if b.Utf8 then some (a.MergeFrom b) else none) := by
  have hempty : ∀ m : AddressBook R, empty.MergeFrom m = m := fun m => by
    simp only [MergeFrom, empty, R.no_mergeUnknown, List.nil_append]
  refine ⟨b.length_serialize, fun after => ?_, fun after => ?_, fun ha hutf8 hasize after => ?_⟩
  · exact (b.taken C hknown hsize).parse C after a
  · rw [parse, (b.taken C hknown hsize).parse, hempty]
  · rw [parse, ((a.taken C ha hasize).append (b.taken C hknown hsize)).parse, if_pos hutf8,
      Option.bind_some, hempty]

/-! ## A library -/

theorem decode_map_write {n : ℕ} (hn : n < 2 ^ 64) (rest : Bytes) :
    ((Varint.decode 10 (Varint.encode 9 n ++ rest)).map fun p => (p.1 % 2 ^ 64, p.2)) =
      some (n, rest) := by
  rw [Varint.decode_encode (by omega) (by omega), Option.map_some, Nat.mod_eq_of_lt hn]

theorem decode_filter_write {n : ℕ} (hn : n ≤ 2 ^ 31 - 17) (rest : Bytes) :
    ((Varint.decode 5 (Varint.encode 9 n ++ rest)).filter fun p => p.1 ≤ 2 ^ 31 - 17) =
      some (n, rest) := by
  rw [Varint.decode_encode (by omega) (by omega)]
  exact if_pos (decide_eq_true hn)

theorem decode_map_small {b : UInt8} (hb : b < 128) (rest : Bytes) :
    ((Varint.decode 5 (b :: rest)).map fun p => (p.1 % 2 ^ 32, p.2)) = some (b.toNat, rest) := by
  have hlt : b.toNat < 128 := hb
  have hmod : b.toNat % 2 ^ 32 = b.toNat := Nat.mod_eq_of_lt (by omega)
  rw [Varint.decode, if_pos hlt, Option.map_some, hmod]

/-- Unknown fields are kept as they were read; groups, and strings that are not ASCII, are refused. -/
def library : Runtime where
  Unknown := Bytes
  noUnknown := []
  mergeUnknown := (· ++ ·)
  serializeUnknown := id
  unknownSize := List.length
  unknownFieldParse tag u l :=
    match tag % 8 with
    | 0 => (Varint.decode 10 l).map fun p => (u ++ Varint.encode 9 tag ++ Varint.encode 9 p.1, p.2)
    | 1 => if 8 ≤ l.length then some (u ++ Varint.encode 9 tag ++ l.take 8, l.drop 8) else none
    | 5 => if 4 ≤ l.length then some (u ++ Varint.encode 9 tag ++ l.take 4, l.drop 4) else none
    | _ => none
  writeVarint := Varint.encode 9
  varintSize n := (Varint.encode 9 n).length
  readVarint64 l := (Varint.decode 10 l).map fun p => (p.1 % 2 ^ 64, p.2)
  readTag l := (Varint.decode 5 l).map fun p => (p.1 % 2 ^ 32, p.2)
  readSize l := (Varint.decode 5 l).filter fun p => p.1 ≤ 2 ^ 31 - 17
  verifyUTF8 s := s.all fun c => c.toNat < 128
  mergeUnknown_no := List.append_nil
  no_mergeUnknown := List.nil_append
  serializeUnknown_no := rfl
  length_serializeUnknown _ := rfl
  writeVarint_small _ h := Varint.encode_of_lt h
  length_writeVarint _ := rfl
  readVarint64_write _ hn rest := decode_map_write hn rest
  readSize_write _ hn rest := decode_filter_write hn rest
  readTag_small _ hb rest := decode_map_small hb rest
  readTag_lt h := by
    obtain ⟨p, hp, hq⟩ := Option.map_eq_some_iff.mp h
    obtain ⟨-, rfl⟩ := Prod.mk.inj hq
    exact Varint.length_of_decode hp
  readVarint64_le h := by
    obtain ⟨p, hp, hq⟩ := Option.map_eq_some_iff.mp h
    obtain ⟨-, rfl⟩ := Prod.mk.inj hq
    exact (Varint.length_of_decode hp).le
  readSize_le h := (Varint.length_of_decode (Option.filter_eq_some_iff.mp h).1).le
  unknownFieldParse_le {t u l v rest} h := by
    split at h
    · obtain ⟨p, hp, hq⟩ := Option.map_eq_some_iff.mp h
      obtain ⟨-, rfl⟩ := Prod.mk.inj hq
      exact (Varint.length_of_decode hp).le
    · split at h
      · obtain ⟨-, rfl⟩ := Prod.mk.inj (Option.some.inj h)
        exact (List.drop_sublist ..).length_le
      · cases h
    · split at h
      · obtain ⟨-, rfl⟩ := Prod.mk.inj (Option.some.inj h)
        exact (List.drop_sublist ..).length_le
      · cases h
    · cases h

/-- John, and the number at which he works. -/
def john : AddressBook library where
  person := [{
    phone := [⟨[49, 53, 49, 49, 50, 51, 52, 53, 54, 55, 56], 2, library.noUnknown⟩]
    name := [106, 111, 104, 110]
    email := [49, 50, 51, 64, 49, 54, 51, 46, 99, 111, 109]
    id := 123
    unknown := library.noUnknown }]
  unknown := library.noUnknown

theorem john_known : john.Known := ⟨rfl, fun p hp => by
  obtain rfl := List.mem_singleton.mp hp
  exact ⟨rfl, fun q hq => by
    obtain rfl := List.mem_singleton.mp hq
    rfl⟩⟩

theorem AddressBook.read_back_john : john.serialize.length = 40 ∧
    AddressBook.parse never 0 .empty john.serialize = some john := by
  obtain ⟨hlen, -, hparse, -⟩ := read_back never .empty john john_known (by decide)
  have hjohn := hparse 0
  rw [if_pos (by decide)] at hjohn
  exact ⟨hlen.trans (by decide), hjohn⟩

/-! ## What is accepted -/

/-- Messages that are parsed alike wherever they are. -/
theorem readMessage_congr {M S : Type} {parse parse' : ℕ → Bytes → Option S} {add : S → M → M}
    {after after' : ℕ} (h : ∀ n n' l, parse n l = parse' n' l) :
    readMessage R parse add after = readMessage R parse' add after' := by
  funext m l
  unfold readMessage
  refine Option.bind_congr fun p _ => ?_
  show (parse (p.2.length + after) p.1).bind _ = (parse' (p.2.length + after') p.1).bind _
  rw [h _ (p.2.length + after')]

theorem PhoneNumber.parse_eq (after : ℕ) (m : PhoneNumber R) (l : Bytes) :
    parse C after m l = parse never 0 m l := by
  rw [parse, parse, descriptor.parse_eq_never]
  refine Descriptor.parse_congr (fun tag => ?_) rfl rfl
  show Case.Alike after 0 (case tag) (case tag)
  unfold case
  split
  · exact .field _
  · exact .field _
  · exact .unusual

theorem Person.parse_eq (after : ℕ) (m : Person R) (l : Bytes) :
    parse C after m l = parse never 0 m l := by
  rw [parse, parse, (descriptor C).parse_eq_never]
  refine Descriptor.parse_congr (fun tag => ?_) rfl rfl
  show Case.Alike after 0 (case C tag) (case never tag)
  unfold case
  split
  · exact .field _
  · exact .field _
  · exact .field _
  · refine .repeated (readMessage_congr fun n n' l => ?_)
    rw [PhoneNumber.parse_eq C n, PhoneNumber.parse_eq never n']
  · exact .unusual

theorem AddressBook.parse_eq (after : ℕ) (m : AddressBook R) (l : Bytes) :
    parse C after m l = parse never 0 m l := by
  rw [parse, parse, (descriptor C).parse_eq_never]
  refine Descriptor.parse_congr (fun tag => ?_) rfl rfl
  show Case.Alike after 0 (case C tag) (case never tag)
  unfold case
  split
  · refine .repeated (readMessage_congr fun n n' l => ?_)
    rw [Person.parse_eq C n, Person.parse_eq never n']
  · exact .unusual

variable {C} {after : ℕ} {l : Bytes}

theorem PhoneNumber.parse_utf8 {m m' : PhoneNumber R} (hm : m.Utf8) (h : parse C after m l = some m') :
    m'.Utf8 := by
  refine descriptor.parse_keeps C (fun tag read hcase => ?_)
    (fun tag add hcase => absurd hcase (case_ne_repeated tag add)) (fun u m h => h) hm h
  replace hcase : case tag = .field read := hcase
  unfold case at hcase
  split at hcase
  · obtain rfl := Case.field.inj hcase
    exact readString_keeps fun s m hs _ _ => hs
  · obtain rfl := Case.field.inj hcase
    exact readVarint_keeps fun n m h => h
  · cases hcase

theorem Person.parse_utf8 {m m' : Person R} (hm : m.Utf8) (h : parse C after m l = some m') :
    m'.Utf8 := by
  refine (descriptor C).parse_keeps C (fun tag read hcase => ?_) (fun tag add hcase => ?_)
    (fun u m h => h) hm h
  · replace hcase : case C tag = .field read := hcase
    unfold case at hcase
    split at hcase
    · obtain rfl := Case.field.inj hcase
      exact readString_keeps fun s m hs hm => ⟨fun _ => hs, hm.2⟩
    · obtain rfl := Case.field.inj hcase
      exact readVarint_keeps fun n m hm => hm
    · obtain rfl := Case.field.inj hcase
      exact readString_keeps fun s m hs hm => ⟨hm.1, fun _ => hs, hm.2.2⟩
    · cases hcase
    · cases hcase
  · replace hcase : case C tag = .repeated add := hcase
    unfold case at hcase
    split at hcase
    · cases hcase
    · cases hcase
    · cases hcase
    · obtain rfl := Case.repeated.inj hcase
      refine readMessage_keeps fun n body p m hp hm => ⟨hm.1, hm.2.1, fun q hq => ?_⟩
      rcases List.mem_append.mp hq with hq | hq
      · exact hm.2.2 q hq
      · obtain rfl := List.mem_singleton.mp hq
        exact PhoneNumber.parse_utf8 (fun h => absurd h (lt_irrefl 0)) hp
    · cases hcase

theorem AddressBook.parse_utf8 {m m' : AddressBook R} (hm : m.Utf8) (h : parse C after m l = some m') :
    m'.Utf8 := by
  refine (descriptor C).parse_keeps C (fun tag read hcase => absurd hcase (case_ne_field C tag read))
    (fun tag add hcase => ?_) (fun u m h => h) hm h
  replace hcase : case C tag = .repeated add := hcase
  unfold case at hcase
  split at hcase
  · obtain rfl := Case.repeated.inj hcase
    refine readMessage_keeps fun n body p m hp hm q hq => ?_
    rcases List.mem_append.mp hq with hq | hq
    · exact hm q hq
    · obtain rfl := List.mem_singleton.mp hq
      exact Person.parse_utf8 ⟨fun h => absurd h (lt_irrefl 0), fun h => absurd h (lt_irrefl 0),
        fun r hr => absurd hr List.not_mem_nil⟩ hp
  · cases hcase

/-- **What is accepted is well formed**: of any bytes, the outcome of the parser does not depend on where
its buffers end, its strings are UTF-8, and, unless it has unknown fields, the message that it accepts is
the one that is read back from what `_InternalSerialize` writes for it. -/
theorem AddressBook.parse_canonical (C : ParseContext) (after : ℕ) (l : Bytes) :
    (∀ C' after' a, parse C after a l = parse C' after' (a : AddressBook R) l) ∧
      ∀ b : AddressBook R, parse C after .empty l = some b →
        b.Utf8 ∧ (b.Known → b.ByteSizeLong ≤ 2 ^ 31 - 17 →
          parse C after .empty b.serialize = some b) := by
  refine ⟨fun C' after' a => ?_, fun b hb => ?_⟩
  · rw [parse_eq C, parse_eq C']
  · have hutf8 : b.Utf8 := parse_utf8 (fun p hp => absurd hp List.not_mem_nil) hb
    refine ⟨hutf8, fun hknown hsize => ?_⟩
    have hempty : (empty : AddressBook R).MergeFrom b = b := by
      simp only [MergeFrom, empty, R.no_mergeUnknown, List.nil_append]
    rw [parse, (b.taken C hknown hsize).parse, if_pos hutf8, hempty]

theorem AddressBook.parse_canonical_john : john.Utf8 ∧
    AddressBook.parse never 0 .empty john.serialize = some john := by
  have hread : AddressBook.parse never 0 .empty john.serialize = some john := by
    rw [parse, (john.taken never john_known (by decide)).parse, if_pos (by decide)]
    rfl
  obtain ⟨hutf8, hagain⟩ := (parse_canonical never 0 john.serialize).2 john hread
  exact ⟨hutf8, hagain john_known (by decide)⟩

end MengSen.Proto

import MengSen.Proto.Message
import Mathlib.Algebra.GroupWithZero.Nat

/-!
# Proto.AddressBook — the messages of the address book

`Person::PhoneNumber`, `Person` and `AddressBook` of `addressbook.pb.h` and `addressbook.pb.cc`:
`_InternalParse`, `_InternalSerialize`, `ByteSizeLong` and `MergeFrom`.  Strings are bytes; a setter does
not look at them, and `VerifyUtf8String` of a message that is written only logs.
-/

namespace MengSen.Proto

variable (R : Runtime) (C : ParseContext)

/-! ## Person::PhoneNumber -/

structure PhoneNumber where
  number : Bytes
  type : BitVec 32
  unknown : R.Unknown

variable {R}

namespace PhoneNumber

def empty : PhoneNumber R := ⟨[], 0, R.noUnknown⟩

def set_number (number : Bytes) (m : PhoneNumber R) : PhoneNumber R := { m with number := number }

def set_type (type : ℕ) (m : PhoneNumber R) : PhoneNumber R := { m with type := BitVec.ofNat 32 type }

/-- The `switch` of `_InternalParse`. -/
def case (tag : ℕ) : Case (PhoneNumber R) :=
  match tag / 8, tag % 256 with
  | 1, 10 => .field (readString R set_number)
  | 2, 16 => .field (readVarint R set_type)
  | _, _ => .unusual

theorem case_eq_field {tag : ℕ} {read : Reader (PhoneNumber R)} (h : case tag = .field read) :
    Consumes read := by
  unfold case at h
  split at h
  · obtain rfl := Case.field.inj h
    exact readString_consumes _
  · obtain rfl := Case.field.inj h
    exact readVarint_consumes _
  · cases h

theorem case_ne_repeated (tag : ℕ) (add : ℕ → Reader (PhoneNumber R)) : case tag ≠ .repeated add := by
  unfold case
  split <;> simp

def descriptor : Descriptor R (PhoneNumber R) where
  case := case
  unknown := PhoneNumber.unknown
  setUnknown u m := { m with unknown := u }
  field_consumes := case_eq_field
  repeated_consumes h := absurd h (case_ne_repeated _ _)
  repeated_small h := absurd h (case_ne_repeated _ _)

/-- `_InternalParse`. -/
def parse (after : ℕ) (m : PhoneNumber R) (l : Bytes) : Option (PhoneNumber R) :=
  descriptor.parse C after m l

/-- `_InternalSerialize`. -/
def serialize (m : PhoneNumber R) : Bytes :=
  (if m.number.length > 0 then writeString R 10 m.number else []) ++
  (if m.type ≠ 0 then R.writeVarint 16 ++ R.writeVarint (int32Bits m.type) else []) ++
  R.serializeUnknown m.unknown

def ByteSizeLong (m : PhoneNumber R) : ℕ :=
  (if m.number.length > 0 then 1 + delimitedSize R m.number.length else 0) +
  (if m.type ≠ 0 then 1 + R.varintSize (int32Bits m.type) else 0) +
  R.unknownSize m.unknown

def MergeFrom (m source : PhoneNumber R) : PhoneNumber R where
  unknown := R.mergeUnknown m.unknown source.unknown
  number := if source.number.length > 0 then source.number else m.number
  type := if source.type ≠ 0 then source.type else m.type

end PhoneNumber

/-! ## Person -/

variable (R) in
structure Person where
  phone : List (PhoneNumber R)
  name : Bytes
  email : Bytes
  id : BitVec 32
  unknown : R.Unknown

namespace Person

def empty : Person R := ⟨[], [], [], 0, R.noUnknown⟩

def set_name (name : Bytes) (m : Person R) : Person R := { m with name := name }

def set_email (email : Bytes) (m : Person R) : Person R := { m with email := email }

def set_id (id : ℕ) (m : Person R) : Person R := { m with id := BitVec.ofNat 32 id }

def add_phone (phone : PhoneNumber R) (m : Person R) : Person R := { m with phone := m.phone ++ [phone] }

/-- The `switch` of `_InternalParse`. -/
def case (tag : ℕ) : Case (Person R) :=
  match tag / 8, tag % 256 with
  | 1, 10 => .field (readString R set_name)
  | 2, 16 => .field (readVarint R set_id)
  | 3, 26 => .field (readString R set_email)
  | 4, 34 => .repeated (readMessage R (fun after => PhoneNumber.parse C after .empty) add_phone)
  | _, _ => .unusual

theorem case_eq_field {tag : ℕ} {read : Reader (Person R)} (h : case C tag = .field read) :
    Consumes read := by
  unfold case at h
  split at h
  · obtain rfl := Case.field.inj h
    exact readString_consumes _
  · obtain rfl := Case.field.inj h
    exact readVarint_consumes _
  · obtain rfl := Case.field.inj h
    exact readString_consumes _
  · cases h
  · cases h

theorem case_eq_repeated {tag : ℕ} {add : ℕ → Reader (Person R)} (h : case C tag = .repeated add) :
    tag < 128 ∧ ∀ after, Consumes (add after) := by
  unfold case at h
  split at h
  · cases h
  · cases h
  · cases h
  · next hdiv _ =>
    obtain rfl := Case.repeated.inj h
    exact ⟨by omega, fun after => readMessage_consumes _ _ after⟩
  · cases h

def descriptor : Descriptor R (Person R) where
  case := case C
  unknown := Person.unknown
  setUnknown u m := { m with unknown := u }
  field_consumes := case_eq_field C
  repeated_consumes h := (case_eq_repeated C h).2
  repeated_small h := (case_eq_repeated C h).1

/-- `_InternalParse`. -/
def parse (after : ℕ) (m : Person R) (l : Bytes) : Option (Person R) := (descriptor C).parse C after m l

/-- `_InternalSerialize`. -/
def serialize (m : Person R) : Bytes :=
  (if m.name.length > 0 then writeString R 10 m.name else []) ++
  (if m.id ≠ 0 then R.writeVarint 16 ++ R.writeVarint (int32Bits m.id) else []) ++
  (if m.email.length > 0 then writeString R 26 m.email else []) ++
  (m.phone.flatMap fun p => writeMessage R 34 p.ByteSizeLong p.serialize) ++
  R.serializeUnknown m.unknown

def ByteSizeLong (m : Person R) : ℕ :=
  1 * m.phone.length + (m.phone.map fun p => delimitedSize R p.ByteSizeLong).sum +
  (if m.name.length > 0 then 1 + delimitedSize R m.name.length else 0) +
  (if m.email.length > 0 then 1 + delimitedSize R m.email.length else 0) +
  (if m.id ≠ 0 then 1 + R.varintSize (int32Bits m.id) else 0) +
  R.unknownSize m.unknown

def MergeFrom (m source : Person R) : Person R where
  unknown := R.mergeUnknown m.unknown source.unknown
  phone := m.phone ++ source.phone
  name := if source.name.length > 0 then source.name else m.name
  email := if source.email.length > 0 then source.email else m.email
  id := if source.id ≠ 0 then source.id else m.id

end Person

/-! ## AddressBook -/

variable (R) in
structure AddressBook where
  person : List (Person R)
  unknown : R.Unknown

namespace AddressBook

def empty : AddressBook R := ⟨[], R.noUnknown⟩

def add_person (person : Person R) (m : AddressBook R) : AddressBook R :=
  { m with person := m.person ++ [person] }

/-- The `switch` of `_InternalParse`. -/
def case (tag : ℕ) : Case (AddressBook R) :=
  match tag / 8, tag % 256 with
  | 1, 10 => .repeated (readMessage R (fun after => Person.parse C after .empty) add_person)
  | _, _ => .unusual

theorem case_ne_field (tag : ℕ) (read : Reader (AddressBook R)) : case C tag ≠ .field read := by
  unfold case
  split <;> simp

theorem case_eq_repeated {tag : ℕ} {add : ℕ → Reader (AddressBook R)} (h : case C tag = .repeated add) :
    tag < 128 ∧ ∀ after, Consumes (add after) := by
  unfold case at h
  split at h
  · next hdiv _ =>
    obtain rfl := Case.repeated.inj h
    exact ⟨by omega, fun after => readMessage_consumes _ _ after⟩
  · cases h

def descriptor : Descriptor R (AddressBook R) where
  case := case C
  unknown := AddressBook.unknown
  setUnknown u m := { m with unknown := u }
  field_consumes h := absurd h (case_ne_field C _ _)
  repeated_consumes h := (case_eq_repeated C h).2
  repeated_small h := (case_eq_repeated C h).1

/-- `_InternalParse`. -/
def parse (after : ℕ) (m : AddressBook R) (l : Bytes) : Option (AddressBook R) :=
  (descriptor C).parse C after m l

/-- `_InternalSerialize`. -/
def serialize (m : AddressBook R) : Bytes :=
  (m.person.flatMap fun p => writeMessage R 10 p.ByteSizeLong p.serialize) ++
  R.serializeUnknown m.unknown

def ByteSizeLong (m : AddressBook R) : ℕ :=
  1 * m.person.length + (m.person.map fun p => delimitedSize R p.ByteSizeLong).sum +
  R.unknownSize m.unknown

def MergeFrom (m source : AddressBook R) : AddressBook R where
  unknown := R.mergeUnknown m.unknown source.unknown
  person := m.person ++ source.person

end AddressBook

end MengSen.Proto

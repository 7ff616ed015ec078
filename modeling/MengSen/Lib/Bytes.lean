import Mathlib.Data.Nat.Digits.Defs

/-!
# Lib.Bytes — numbers as bytes of a fixed width

`encode k n` are the `k` low bytes of `n`, least significant first; `decode` reads such a list.  A
host stores an unsigned object in one of two byte orders, and `htobe`, `betoh` convert between its
value and the value whose bytes in memory are those of a big-endian host.
-/

namespace Bytes

/-- The `k` low bytes of `n`, least significant first. -/
def encode : ℕ → ℕ → List UInt8
  | 0, _ => []
  | k + 1, n => UInt8.ofNat n :: encode k (n / 256)

/-- The number with the given bytes, least significant first. -/
def decode (l : List UInt8) : ℕ := Nat.ofDigits 256 (l.map UInt8.toNat)

@[simp] theorem length_encode (k n : ℕ) : (encode k n).length = k := by
  induction k generalizing n with
  | zero => rfl
  | succ k ih => rw [encode, List.length_cons, ih]

theorem decode_cons (b : UInt8) (l : List UInt8) : decode (b :: l) = b.toNat + 256 * decode l := by
  rw [decode, List.map_cons, Nat.ofDigits_cons]
  rfl

theorem decode_encode (k n : ℕ) : decode (encode k n) = n % 256 ^ k := by
  induction k generalizing n with
  | zero => rw [pow_zero, Nat.mod_one]; rfl
  | succ k ih =>
    rw [encode, decode_cons, ih, pow_succ', Nat.mod_mul, UInt8.toNat_ofNat']

theorem decode_lt (l : List UInt8) : decode l < 256 ^ l.length := by
  induction l with
  | nil => exact Nat.one_pos
  | cons b l ih =>
    have hb := b.toNat_lt
    rw [decode_cons, List.length_cons, pow_succ']
    omega

theorem encode_decode {k : ℕ} {l : List UInt8} (h : l.length = k) : encode k (decode l) = l := by
  induction l generalizing k with
  | nil =>
    subst h
    rfl
  | cons b l ih =>
    subst h
    have hb := b.toNat_lt
    have hdiv : (b.toNat + 256 * decode l) / 256 = decode l := by omega
    have hmod : UInt8.ofNat (b.toNat + 256 * decode l) = b := by
      rw [← UInt8.toNat_inj, UInt8.toNat_ofNat']
      omega
    rw [List.length_cons, decode_cons, encode, hdiv, hmod, ih rfl]

/-- How a host stores an object. -/
inductive Order
  | little
  | big
  deriving DecidableEq

namespace Order

/-- The bytes in memory of an unsigned object of `k` bytes. -/
def store : Order → ℕ → ℕ → List UInt8
  | little, k, n => encode k n
  | big, k, n => (encode k n).reverse

/-- The unsigned object with the given bytes in memory. -/
def load : Order → List UInt8 → ℕ
  | little, l => decode l
  | big, l => decode l.reverse

/-- Host to big-endian, for an unsigned object of `k` bytes: a little-endian host swaps the bytes. -/
def htobe : Order → ℕ → ℕ → ℕ
  | little, k, n => decode (encode k n).reverse
  | big, _, n => n

/-- Big-endian to host. -/
def betoh : Order → ℕ → ℕ → ℕ := htobe

variable (o : Order) {k n : ℕ} {l : List UInt8}

@[simp] theorem length_store : (o.store k n).length = k := by
  cases o <;> simp [store]

/-- An object that fits is read back from its bytes. -/
theorem load_store (h : n < 256 ^ k) : o.load (o.store k n) = n := by
  cases o with
  | little => rw [load, store, decode_encode, Nat.mod_eq_of_lt h]
  | big => rw [load, store, List.reverse_reverse, decode_encode, Nat.mod_eq_of_lt h]

theorem htobe_lt (h : n < 256 ^ k) : o.htobe k n < 256 ^ k := by
  cases o with
  | little =>
    have hlt := decode_lt (encode k n).reverse
    rwa [List.length_reverse, length_encode] at hlt
  | big => exact h

theorem load_lt (h : l.length = k) : o.load l < 256 ^ k := by
  subst h
  cases o with
  | little => exact decode_lt l
  | big =>
    have hlt := decode_lt l.reverse
    rwa [List.length_reverse] at hlt

/-- The object converted to big-endian has the most significant byte first in memory, whatever the
order of the host. -/
theorem store_htobe : o.store k (o.htobe k n) = (encode k n).reverse := by
  cases o with
  | little => exact encode_decode (by rw [List.length_reverse, length_encode])
  | big => rfl

/-- Bytes read from memory and converted from big-endian are read the same way. -/
theorem betoh_load (h : l.length = k) : o.betoh k (o.load l) = decode l.reverse := by
  cases o with
  | little =>
    show decode (encode k (decode l)).reverse = _
    rw [encode_decode h]
  | big => rfl

end Order

end Bytes

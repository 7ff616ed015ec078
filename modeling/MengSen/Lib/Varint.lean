import Mathlib.Algebra.Order.Group.Nat
import Mathlib.Algebra.Order.Monoid.NatCast
import Mathlib.Tactic.Ring

/-!
# Lib.Varint — numbers in groups of seven bits

Base 128, the lowest group first, a byte for each group; all bytes but the last have the high bit set.
`encode k` writes numbers of at most `k + 1` groups, and `decode k` reads at most `k` bytes.
-/

namespace Varint

def encode : ℕ → ℕ → List UInt8
  | 0, n => [UInt8.ofNat n]
  | k + 1, n => if n < 128 then [UInt8.ofNat n] else UInt8.ofNat (n % 128 + 128) :: encode k (n / 128)

/-- The number at the front, and what follows it. -/
def decode : ℕ → List UInt8 → Option (ℕ × List UInt8)
  | 0, _ => none
  | _ + 1, [] => none
  | k + 1, b :: l =>
    if b.toNat < 128 then some (b.toNat, l)
    else (decode k l).map fun p => (b.toNat - 128 + 128 * p.1, p.2)

variable {k j n : ℕ} {l : List UInt8}

theorem encode_of_lt (h : n < 128) : encode k n = [UInt8.ofNat n] := by
  cases k with
  | zero => rfl
  | succ k => exact if_pos h

theorem encode_of_le (h : 128 ≤ n) :
    encode (k + 1) n = UInt8.ofNat (n % 128 + 128) :: encode k (n / 128) := if_neg (not_lt.mpr h)

theorem toNat_ofNat (h : n < 256) : (UInt8.ofNat n).toNat = n := by
  rw [UInt8.toNat_ofNat']
  omega

theorem decode_of_lt (h : n < 128) : decode (k + 1) (UInt8.ofNat n :: l) = some (n, l) := by
  rw [decode, toNat_ofNat (by omega), if_pos h]

/-- **What is written is read back**, and what follows it is left. -/
theorem decode_encode (hj : n < 128 ^ (j + 1)) (hk : n < 128 ^ (k + 1)) :
    decode (k + 1) (encode j n ++ l) = some (n, l) := by
  induction j generalizing k n with
  | zero => exact decode_of_lt hj
  | succ j ih =>
    by_cases hn : n < 128
    · rw [encode_of_lt hn]
      exact decode_of_lt hn
    · have hle : 128 ≤ n := not_lt.mp hn
      have hj' : n / 128 < 128 ^ (j + 1) := Nat.div_lt_of_lt_mul (by rwa [pow_succ'] at hj)
      obtain _ | k := k
      · exact absurd hk hn
      · have hk' : n / 128 < 128 ^ (k + 1) := Nat.div_lt_of_lt_mul (by rwa [pow_succ'] at hk)
        have hgroup : (UInt8.ofNat (n % 128 + 128)).toNat = n % 128 + 128 :=
          toNat_ofNat (by omega)
        rw [encode_of_le hle, List.cons_append, decode, hgroup, if_neg (by omega), ih hj' hk',
          Option.map_some, Option.some.injEq, Prod.mk.injEq]
        exact ⟨by omega, rfl⟩

theorem length_of_decode {m : ℕ} {r : List UInt8} (h : decode k l = some (m, r)) :
    r.length < l.length := by
  induction k generalizing l m with
  | zero => cases h
  | succ k ih =>
    obtain _ | ⟨b, l⟩ := l
    · cases h
    · simp only [decode] at h
      split at h
      · obtain ⟨-, rfl⟩ := Prod.mk.inj (Option.some.inj h)
        exact Nat.lt_succ_self _
      · obtain ⟨⟨m', r'⟩, hd, hp⟩ := Option.map_eq_some_iff.mp h
        obtain ⟨-, rfl⟩ := Prod.mk.inj hp
        exact (ih hd).trans (Nat.lt_succ_self _)

end Varint

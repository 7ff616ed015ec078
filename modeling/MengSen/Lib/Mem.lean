import Mathlib.Data.List.Basic

/-!
# Lib.Mem — a block of memory as a list of cells

`slice m p n` are the `n` cells from position `p`, `store m p d` overwrites the cells from `p` by
`d`, `copyForward m src dst n` copies `n` cells one by one from the left, also onto itself.
`read?` and `store?` fail outside the block.  The lemmas say what a slice is after each of them.
-/

namespace Mem

variable {α : Type*}

/-- The `n` cells from position `p`. -/
def slice (m : List α) (p n : ℕ) : List α := (m.drop p).take n

/-- The block with the cells from `p` on overwritten by `d`. -/
def store (m : List α) (p : ℕ) (d : List α) : List α := m.take p ++ d ++ m.drop (p + d.length)

/-- Element-wise forward copy of `n` cells from `src` to `dst` within the block. -/
def copyForward : List α → ℕ → ℕ → ℕ → List α
  | m, _, _, 0 => m
  | m, src, dst, n + 1 =>
    match m[src]? with
    | some x => copyForward (m.set dst x) (src + 1) (dst + 1) n
    | none => m

/-- `slice`, refused when it leaves the block. -/
def read? (m : List α) (p n : ℕ) : Option (List α) :=
  if p + n ≤ m.length then some (slice m p n) else none

/-- `store`, refused when it leaves the block. -/
def store? (m : List α) (p : ℕ) (d : List α) : Option (List α) :=
  if p + d.length ≤ m.length then some (store m p d) else none

/-! ## Slices -/

theorem length_slice {m : List α} {p n : ℕ} (h : p + n ≤ m.length) : (slice m p n).length = n := by
  simp only [slice, List.length_take, List.length_drop]
  omega

@[simp] theorem slice_zero (m : List α) (p : ℕ) : slice m p 0 = [] := by simp [slice]

theorem slice_append_slice (m : List α) (p a b : ℕ) :
    slice m p a ++ slice m (p + a) b = slice m p (a + b) := by
  simp only [slice, List.take_add, List.drop_drop]

theorem take_slice {m : List α} {p n k : ℕ} (h : k ≤ n) : (slice m p n).take k = slice m p k := by
  simp only [slice, List.take_take, Nat.min_eq_left h]

theorem drop_slice (m : List α) (p n k : ℕ) : (slice m p n).drop k = slice m (p + k) (n - k) := by
  simp only [slice, List.drop_take, List.drop_drop]

theorem slice_append_left {m : List α} {p n : ℕ} (l : List α) (h : p + n ≤ m.length) :
    slice (m ++ l) p n = slice m p n := by
  simp only [slice]
  rw [List.drop_append_of_le_length (by omega),
    List.take_append_of_le_length (by rw [List.length_drop]; omega)]

theorem getElem?_slice {m : List α} {p n i : ℕ} :
    (slice m p n)[i]? = if i < n then m[p + i]? else none := by
  simp only [slice, List.getElem?_take, List.getElem?_drop]

/-! ## Stores -/

theorem length_store {m : List α} {p : ℕ} {d : List α} (h : p + d.length ≤ m.length) :
    (store m p d).length = m.length := by
  simp only [store, List.length_append, List.length_take, List.length_drop]
  omega

theorem store?_of_le {m : List α} {p : ℕ} {d : List α} (h : p + d.length ≤ m.length) :
    store? m p d = some (store m p d) := if_pos h

theorem read?_of_le {m : List α} {p n : ℕ} (h : p + n ≤ m.length) :
    read? m p n = some (slice m p n) := if_pos h

/-- The front of a block is read back. -/
theorem read?_of_front {m d : List α} (h : d <+: m) : read? m 0 d.length = some d := by
  rw [read?_of_le (by rw [Nat.zero_add]; exact h.length_le), slice, List.drop_zero,
    ← List.prefix_iff_eq_take.mp h]

/-- A store that does not fail goes on with what it stored. -/
theorem store?_bind {α β : Type*} {m : List α} {p : ℕ} {d : List α} (h : p + d.length ≤ m.length)
    (f : List α → Option β) : (store? m p d).bind f = f (store m p d) := by
  rw [store?_of_le h, Option.bind_some]

/-- A store over the back of another. -/
theorem store_store_back {m : List α} {p : ℕ} {d l e : List α} (h : p + d.length ≤ m.length)
    (he : l.length ≤ e.length) :
    store (store m p (d ++ l)) (p + d.length) e = store m p (d ++ e) := by
  have hp : (m.take p ++ d).length = p + d.length := by
    rw [List.length_append, List.length_take]
    omega
  have hrest : p + d.length + e.length - (m.take p ++ d ++ l).length + (p + (d ++ l).length) =
      p + (d ++ e).length := by
    rw [List.length_append, hp, List.length_append, List.length_append]
    omega
  have hdrop : (m.take p ++ (d ++ l) ++ m.drop (p + (d ++ l).length)).drop
      (p + d.length + e.length) = m.drop (p + (d ++ e).length) := by
    rw [← List.append_assoc, List.drop_append, List.drop_drop, Nat.add_comm _ (_ - _), hrest]
    rw [List.drop_of_length_le (by rw [List.length_append, hp]; omega), List.nil_append]
  have htake : (m.take p ++ (d ++ l) ++ m.drop (p + (d ++ l).length)).take (p + d.length) =
      m.take p ++ d := by
    rw [← List.append_assoc, List.append_assoc _ l, List.take_left' hp]
  rw [store, store, hdrop, htake, store, List.append_assoc (m.take p)]

/-- Two stores one behind the other. -/
theorem store_store_append {m : List α} {p : ℕ} {d e : List α} (h : p + d.length ≤ m.length) :
    store (store m p d) (p + d.length) e = store m p (d ++ e) := by
  have hback := store_store_back (l := []) (e := e) h (Nat.zero_le _)
  rwa [List.append_nil] at hback

/-- A store over the front of another. -/
theorem store_store_front {m : List α} {p : ℕ} {d e l : List α} (h : p + (d ++ l).length ≤ m.length)
    (he : e.length = d.length) : store (store m p (d ++ l)) p e = store m p (e ++ l) := by
  have hp : (m.take p).length = p := by rw [List.length_take]; omega
  have hd : (m.take p ++ d).length = p + e.length := by rw [List.length_append, hp, he]
  have hlen : (e ++ l).length = (d ++ l).length := by rw [List.length_append, List.length_append, he]
  have htake : (store m p (d ++ l)).take p = m.take p := by
    rw [store, List.append_assoc, List.take_left' hp]
  have hdrop : (store m p (d ++ l)).drop (p + e.length) = l ++ m.drop (p + (d ++ l).length) := by
    rw [store, ← List.append_assoc, List.append_assoc, List.drop_left' hd]
  rw [store, htake, hdrop, store, hlen]
  simp only [List.append_assoc]

/-- What was stored is read back. -/
theorem slice_store_self {m : List α} {p : ℕ} {d : List α} (h : p + d.length ≤ m.length) :
    slice (store m p d) p d.length = d := by
  have hp : (m.take p).length = p := by rw [List.length_take]; omega
  simp only [slice, store, List.append_assoc]
  rw [List.drop_left' hp, List.take_left]

theorem slice_store_front {m : List α} {p : ℕ} {d l : List α} (h : p + (d ++ l).length ≤ m.length) :
    slice (store m p (d ++ l)) p d.length = d := by
  rw [← take_slice (n := (d ++ l).length) (by rw [List.length_append]; omega), slice_store_self h,
    List.take_left]

/-- Cells before the store are unchanged. -/
theorem slice_store_before {m : List α} {p q n : ℕ} {d : List α} (h : p + d.length ≤ m.length)
    (hq : q + n ≤ p) : slice (store m p d) q n = slice m q n := by
  have hp : (m.take p).length = p := by rw [List.length_take]; omega
  apply List.ext_getElem?
  intro i
  rw [getElem?_slice, getElem?_slice]
  split
  · rw [store, List.append_assoc, List.getElem?_append_left (by omega),
      List.getElem?_take_of_lt (by omega)]
  · rfl

/-- Cells after the store are unchanged. -/
theorem slice_store_after {m : List α} {p q n : ℕ} {d : List α} (h : p + d.length ≤ m.length)
    (hq : p + d.length ≤ q) : slice (store m p d) q n = slice m q n := by
  have hp : (m.take p).length = p := by rw [List.length_take]; omega
  apply List.ext_getElem?
  intro i
  rw [getElem?_slice, getElem?_slice]
  split
  · rw [store, List.getElem?_append_right (by rw [List.length_append]; omega), List.getElem?_drop]
    congr 1
    rw [List.length_append]
    omega
  · rfl

/-- A store behind the front of a block makes the front longer. -/
theorem append_prefix_store {m l d : List α} (hl : l <+: m) : l ++ d <+: store m l.length d := by
  rw [store, ← List.prefix_iff_eq_take.mp hl]
  exact List.prefix_append _ _

/-- A store at the beginning of a block. -/
theorem prefix_store_zero (m d : List α) : d <+: store m 0 d :=
  append_prefix_store (List.nil_prefix (l := m))

/-! ## Forward copy -/

@[simp] theorem length_copyForward (m : List α) (src dst n : ℕ) :
    (copyForward m src dst n).length = m.length := by
  induction n generalizing m src dst with
  | zero => rfl
  | succ n ih =>
    simp only [copyForward]
    split
    · rw [ih, List.length_set]
    · rfl

/-- A forward copy writes nothing outside the `n` target cells. -/
theorem getElem?_copyForward_of_not {m : List α} {src dst n i : ℕ} (hi : i < dst ∨ dst + n ≤ i) :
    (copyForward m src dst n)[i]? = m[i]? := by
  induction n generalizing m src dst with
  | zero => rfl
  | succ n ih =>
    simp only [copyForward]
    split
    · rw [ih (by omega), List.getElem?_set_ne (by omega)]
    · rfl

/-- **Sliding down**: a forward copy onto lower cells moves every cell, whether or not source and
target overlap. -/
theorem getElem?_copyForward {m : List α} {src dst n i : ℕ} (hd : dst ≤ src)
    (hs : src + n ≤ m.length) (hi : i < n) : (copyForward m src dst n)[dst + i]? = m[src + i]? := by
  induction n generalizing m src dst i with
  | zero => omega
  | succ n ih =>
    have hx : m[src]? = some m[src] := List.getElem?_eq_getElem (by omega)
    simp only [copyForward, hx]
    cases i with
    | zero =>
      rw [getElem?_copyForward_of_not (by omega), Nat.add_zero, Nat.add_zero,
        List.getElem?_set_self (by omega), hx]
    | succ i =>
      have h : (copyForward (m.set dst m[src]) (src + 1) (dst + 1) n)[dst + 1 + i]? =
          (m.set dst m[src])[src + 1 + i]? :=
        ih (by omega) (by rw [List.length_set]; omega) (by omega)
      rw [show dst + (i + 1) = dst + 1 + i by omega, h, List.getElem?_set_ne (by omega)]
      congr 1
      omega

theorem slice_copyForward {m : List α} {src dst n : ℕ} (hd : dst ≤ src) (hs : src + n ≤ m.length) :
    slice (copyForward m src dst n) dst n = slice m src n := by
  apply List.ext_getElem?
  intro i
  rw [getElem?_slice, getElem?_slice]
  split
  · rw [getElem?_copyForward hd hs (by omega)]
  · rfl

end Mem

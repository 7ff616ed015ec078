import MengSen.Lib.Slots
import MengSen.Log.QueueBuffer

/-!
# Log.QueueBufferInv — what holds between the operations of `QueueBuffer`

A line with a write index belongs in a slot of a buffer: `ticket b i` is its number.  `Inv s f e`: `f`
buffers were popped, and the write index is that of the buffer `e`, whose slots the producers take and
count (`Slots`).  The thread that counts the last one is the only one that switches, and until it has
published the next buffer nobody gets a slot.
-/

namespace MengSen.Log.QueueBuffer

variable {τ α : Type} {s u : State τ α} {e f b d i j : ℕ} {l : LogLine τ α} {c : Call τ α} {p q : τ}

/-! ## Tickets -/

theorem size_eq : Buffer.size = 32768 := rfl

theorem size_pos : 0 < Buffer.size := by
  have hsize := size_eq
  omega

theorem size_lt : Buffer.size < 2 ^ 32 := by
  have hsize := size_eq
  omega

/-- The number of the line in the slot `i` of the buffer `b`. -/
def ticket (b i : ℕ) : ℕ := b * Buffer.size + i

theorem ticket_add_one : ticket b i + 1 = ticket b (i + 1) := by
  rw [ticket, ticket, Nat.add_assoc]

theorem ticket_size : ticket b Buffer.size = ticket (b + 1) 0 := by
  rw [ticket, ticket, Nat.succ_mul, Nat.add_zero]

theorem ticket_lt_ticket (hi : i < Buffer.size) (h : b < d) : ticket b i < ticket d j := by
  have hmul : (b + 1) * Buffer.size ≤ d * Buffer.size := Nat.mul_le_mul_right _ h
  rw [Nat.succ_mul] at hmul
  unfold ticket
  omega

theorem ticket_inj (hi : i < Buffer.size) (hj : j < Buffer.size) (h : ticket b i = ticket d j) :
    b = d ∧ i = j := by
  obtain rfl : b = d := by
    rcases Nat.lt_trichotomy b d with hlt | heq | hgt
    · exact absurd h (Nat.ne_of_lt (ticket_lt_ticket hi hlt))
    · exact heq
    · exact absurd h.symm (Nat.ne_of_lt (ticket_lt_ticket hj hgt))
  exact ⟨rfl, Nat.add_left_cancel h⟩

/-- A ticket below those of the buffer `d` is of a buffer before it. -/
theorem lt_of_ticket_lt (h : ticket b i < ticket d 0) : b < d := by
  by_contra hle
  have hmul : d * Buffer.size ≤ b * Buffer.size := Nat.mul_le_mul_right _ (Nat.le_of_not_lt hle)
  unfold ticket at h
  omega

/-! ## The producers -/

namespace Call

/-- The line of the call under way. -/
def line : Call τ α → Option (LogLine τ α)
  | .idle => none
  | .entered l | .spinning l | .indexed _ l | .placing _ _ l | .storing _ _ l | .counting _ _ l
  | .switching l | .publishing _ l => some l

/-- The line, while it has no slot. -/
def waiting : Call τ α → Option (LogLine τ α)
  | .entered l | .spinning l => some l
  | _ => none

/-- The slot in which the producer works. -/
def slot : Call τ α → Option ℕ
  | .indexed i _ | .placing _ i _ | .storing _ i _ | .counting _ i _ => some i
  | _ => none

def isSwitching : Call τ α → Bool
  | .switching _ | .publishing .. => true
  | _ => false

def isPublishing : Call τ α → Bool
  | .publishing .. => true
  | _ => false

end Call

/-- The slot `i` of the buffer `b` is that of the line. -/
structure Owns (s : State τ α) (b i : ℕ) (l : LogLine τ α) : Prop where
  lt : i < Buffer.size
  line : s.history.claimed[ticket b i]? = some l

/-- The slot of the line is marked as written. -/
def Written (s : State τ α) (l : LogLine τ α) : Prop :=
  ∃ b i, Owns s b i l ∧ (s.heap b).written i = true

/-- What a producer knows at its next statement, `e` being the buffer for which indexes are given. -/
def Call.Ok (s : State τ α) (e : ℕ) : Call τ α → Prop
  | .idle | .entered _ | .spinning _ => True
  | .indexed i l => Owns s e i l ∧ (s.heap e).written i = false
  | .placing b i l => b = e ∧ Owns s e i l ∧ (s.heap e).written i = false
  | .storing b i l =>
    b = e ∧ Owns s e i l ∧ (s.heap e).written i = false ∧ (s.heap e).items i = some l
  | .counting b i l => b = e ∧ Owns s e i l ∧ (s.heap e).written i = true
  | .switching l => (s.heap e).count = Buffer.size ∧ Written s l
  | .publishing b l =>
    b = e + 1 ∧ (s.heap e).count = Buffer.size ∧ Written s l ∧ s.heap (e + 1) = .fresh

theorem Owns.mono (h : Owns s b i l) (hclaimed : s.history.claimed <+: u.history.claimed) :
    Owns u b i l := by
  obtain ⟨ls, hls⟩ := hclaimed
  refine ⟨h.lt, ?_⟩
  rw [← hls, List.getElem?_append_left (List.getElem?_eq_some_iff.mp h.line).1]
  exact h.line

theorem Written.mono (h : Written s l) (hclaimed : s.history.claimed <+: u.history.claimed)
    (hwritten : ∀ b i, (s.heap b).written i = true → (u.heap b).written i = true) :
    Written u l := by
  obtain ⟨b, i, ho, hw⟩ := h
  exact ⟨b, i, ho.mono hclaimed, hwritten b i hw⟩

/-- A step that leaves the slot of the producer alone, and the count and the new buffer while it
switches. -/
theorem Call.Ok.frame (h : c.Ok s e) (hclaimed : s.history.claimed <+: u.history.claimed)
    (hwritten : ∀ b i, (s.heap b).written i = true → (u.heap b).written i = true)
    (hslot : ∀ i, c.slot = some i → (s.heap e).written i = false →
      (u.heap e).written i = false ∧ (u.heap e).items i = (s.heap e).items i)
    (hcount : c.isSwitching = true → (u.heap e).count = (s.heap e).count)
    (hfresh : c.isPublishing = true → u.heap (e + 1) = s.heap (e + 1)) : c.Ok u e := by
  cases c with
  | idle | entered _ | spinning _ => trivial
  | indexed i l => exact ⟨h.1.mono hclaimed, (hslot i rfl h.2).1⟩
  | placing b i l => exact ⟨h.1, h.2.1.mono hclaimed, (hslot i rfl h.2.2).1⟩
  | storing b i l =>
    obtain ⟨hb, ho, hw, hitem⟩ := h
    obtain ⟨hw', hitems⟩ := hslot i rfl hw
    exact ⟨hb, ho.mono hclaimed, hw', hitems.trans hitem⟩
  | counting b i l => exact ⟨h.1, h.2.1.mono hclaimed, hwritten e i h.2.2⟩
  | switching l => exact ⟨(hcount rfl).trans h.1, h.2.mono hclaimed hwritten⟩
  | publishing b l =>
    obtain ⟨hb, hfull, hl, hnew⟩ := h
    exact ⟨hb, (hcount rfl).trans hfull, hl.mono hclaimed hwritten, (hfresh rfl).trans hnew⟩

/-- A step that leaves the buffers alone. -/
theorem Call.Ok.congr (h : c.Ok s e) (hclaimed : s.history.claimed <+: u.history.claimed)
    (hheap : u.heap = s.heap) : c.Ok u e := by
  refine h.frame hclaimed ?_ ?_ ?_ ?_
  · intro b i hw
    rw [hheap]
    exact hw
  · intro i _ hw
    rw [hheap]
    exact ⟨hw, rfl⟩
  · intro _
    rw [hheap]
  · intro _
    rw [hheap]

/-- The producers around the buffer `e`. -/
structure Producers (s : State τ α) (e : ℕ) : Prop where
  ok : ∀ p, (s.calls p).Ok s e
  slots : Slots Buffer.size (fun p => (s.calls p).slot) s.writeIndex (s.heap e).count
  length : s.history.claimed.length = ticket e (min s.writeIndex Buffer.size)
  older : ∀ b < e, (s.heap b).count = Buffer.size
  one : ∀ p q, (s.calls p).isSwitching = true → (s.calls q).isSwitching = true → p = q
  allocated : s.allocated = e + 1 ∧ (∀ p, (s.calls p).isPublishing = false) ∨
    s.allocated = e + 2 ∧ ∃ p, (s.calls p).isPublishing = true
  current : ∃ b, s.currentWrite = some b ∧ s.allocated = b + 1

/-! ## The lines -/

variable [DecidableEq τ]

/-- The calls and the lines; those whose `push` has returned are written. -/
structure Journal (s : State τ α) : Prop where
  legal : s.history.Legal fun p => (s.calls p).waiting
  returned : ∀ p, ∀ l ∈ s.history.calls p, (s.calls p).line ≠ some l → Written s l

/-- A slot that is marked as written holds its line until it is popped, and only such are popped. -/
structure Content (s : State τ α) : Prop where
  lt : ∀ b i, (s.heap b).written i = true →
    i < Buffer.size ∧ ticket b i < s.history.claimed.length
  items : ∀ b i, (s.heap b).written i = true → s.popped.length ≤ ticket b i →
    (s.heap b).items i = s.history.claimed[ticket b i]?
  popped : ∀ b i, i < Buffer.size → ticket b i < s.popped.length → (s.heap b).written i = true

/-! ## The consumer -/

/-- The next line to pop is in the slot `_read_index` of the buffer `f`. -/
structure Reading (s : State τ α) (f : ℕ) : Prop where
  length : s.popped.length = ticket f s.readIndex
  lt : s.readIndex < Buffer.size

/-- What the consumer knows at its next statement. -/
def Reader.Ok (s : State τ α) (f e : ℕ) : Reader → Prop
  | .idle => Reading s f ∧ (s.readAssigned = false → s.readIndex = 0) ∧
    (s.readAssigned = true → s.currentRead = some f ∧ f ≤ e ∨
      s.currentRead = none ∧ s.readIndex = 0)
  | .fetching => Reading s f ∧ s.readIndex = 0 ∧ s.currentRead = none
  | .looking b => b = f ∧ f ≤ e ∧ Reading s f ∧ s.currentRead = some f ∧ s.readAssigned = true
  | .moving b => b = f ∧ f ≤ e ∧ Reading s f ∧ s.currentRead = some f ∧ s.readAssigned = true ∧
    (s.heap f).written s.readIndex = true
  | .retiring => f ≤ e ∧ s.popped.length = ticket (f + 1) 0 ∧ s.readIndex = 0 ∧
    s.currentRead = none ∧ s.readAssigned = true

/-- The consumer, after `f` buffers were popped. -/
structure Consumer (s : State τ α) (f e : ℕ) : Prop where
  order : s.popped = s.history.claimed.take s.popped.length
  reader : s.reader.Ok s f e
  buffers : s.buffers = List.range' f (e + 1 - f)
  le : f ≤ e + 1
  full : f = e + 1 → (s.heap e).count = Buffer.size
  live : ∀ b, s.live b = true ↔ f ≤ b ∧ b < s.allocated

/-- `_current_read_buffer` is read before it is assigned, by the first `try_pop`. -/
structure Unset (s : State τ α) : Prop where
  called : s.readUnset = true ↔ s.popCalls ≠ 0
  assigned : s.readAssigned = true → s.popCalls ≠ 0
  busy : s.reader ≠ .idle → s.popCalls ≠ 0

/-- The invariant. -/
structure Inv (s : State τ α) (f e : ℕ) : Prop where
  producers : Producers s e
  journal : Journal s
  content : Content s
  consumer : Consumer s f e
  unset : Unset s

end MengSen.Log.QueueBuffer

import MengSen.Base.AsyncLogging
import Mathlib.Data.List.Basic

/-!
# Base.AsyncLoggingInv — the circulation of the buffers and what it keeps

`Inv` follows the program counter of `threadFunc`: which of the five places of a buffer are filled
(`Locals`, `nextUsed`), and where the appended bytes are (`all_eq`, `kept_eq`).  The point of the
first half: `nextBuffer_` is only null after a producer took it, and that producer pushed the buffer
it replaced.  So a batch has two buffers to recycle whenever `newBuffer2` was given away.

`Inv.spec` is the step lemma for all actions and `reach_inv` the run lemma.
-/

namespace MengSen.AsyncLogging

open Machine (check check_bind check_bind_eq_ok bind_eq_ok ok_bind pure_eq_ok)

variable {N : ℕ} {s t : State N}

/-! ## Contents -/

@[simp] theorem bytesOf_nil : bytesOf ([] : List (BufferPtr N)) = [] := rfl

@[simp] theorem bytesOf_append (l m : List (BufferPtr N)) :
    bytesOf (l ++ m) = bytesOf l ++ bytesOf m := List.flatMap_append

@[simp] theorem bytesOf_cons (p : BufferPtr N) (l : List (BufferPtr N)) :
    bytesOf (p :: l) = ptrBytes p ++ bytesOf l := List.flatMap_cons

theorem flatten_map_ptrBytes (l : List (BufferPtr N)) : (l.map ptrBytes).flatten = bytesOf l :=
  (List.flatMap_def ..).symm

/-- Batches of up to 25 buffers are kept as they are. -/
theorem map_kept_of_small {l : List (List (List UInt8))} (h : ∀ b ∈ l, b.length ≤ 25) :
    l.map kept = l :=
  (List.map_congr_left fun b hb => if_neg (by have := h b hb; omega)).trans (List.map_id l)

/-- The pointer owns a buffer that is empty. -/
def Spare (p : BufferPtr N) : Prop := ∃ b, p = some b ∧ b.length = 0

theorem spare_make : Spare (some (FixedBuffer.make : FixedBuffer N)) := ⟨_, rfl, rfl⟩

theorem Spare.isSome {p : BufferPtr N} (h : Spare p) : p.isSome := by
  obtain ⟨b, rfl, -⟩ := h
  rfl

theorem Spare.bytes {p : BufferPtr N} (h : Spare p) : ptrBytes p = [] := by
  obtain ⟨b, rfl, hb⟩ := h
  exact FixedBuffer.content_eq_nil hb

theorem Spare.check {p : BufferPtr N} (h : Spare p) : isEmptyBuffer p = true := by
  obtain ⟨b, rfl, hb⟩ := h
  exact decide_eq_true hb

/-! ## The invariant -/

/-- There is a buffer to recycle for `newBuffer1`, and one for `newBuffer2` if it was given away. -/
def Enough (s : State N) : Prop :=
  Spare s.newBuffer2 ∧ s.buffersToWrite ≠ [] ∨ s.newBuffer2 = none ∧ 2 ≤ s.buffersToWrite.length

/-- What `threadFunc` knows at its next statement. -/
def Locals (s : State N) : Prop :=
  match s.pc with
  | .unborn | .begin_ | .setup | .done => True
  | .loopHead | .checks | .lock | .waiting | .emplace =>
    Spare s.newBuffer1 ∧ Spare s.newBuffer2 ∧ s.buffersToWrite = []
  | .takeNew =>
    Spare s.newBuffer1 ∧ Spare s.newBuffer2 ∧ s.buffersToWrite = [] ∧ s.currentBuffer = none ∧
      s.buffers ≠ []
  | .swap =>
    s.newBuffer1 = none ∧ Spare s.newBuffer2 ∧ s.buffersToWrite = [] ∧ Spare s.currentBuffer ∧
      s.buffers ≠ []
  | .refill => s.newBuffer1 = none ∧ Spare s.newBuffer2 ∧ s.buffersToWrite ≠ []
  | .batch | .recycle => s.newBuffer1 = none ∧ Enough s
  | .write i => s.newBuffer1 = none ∧ Enough s ∧ i ≤ s.buffersToWrite.length

/-- What `nextBuffer_` being null tells: the buffer that it replaced was pushed, in front of the
current buffer that the back end pushes. -/
def NextUsed (s : State N) : Prop :=
  match s.pc with
  | .takeNew | .swap => 2 ≤ s.buffers.length
  | .refill => 2 ≤ s.buffersToWrite.length
  | _ => s.buffers ≠ []

/-- The invariant of the asynchronous log. -/
structure Inv (s : State N) : Prop where
  current : s.pc ≠ .takeNew → s.currentBuffer.isSome
  buffers : ∀ p ∈ s.buffers, p.isSome
  toWrite : ∀ p ∈ s.buffersToWrite, p.isSome
  next : ∀ b, s.nextBuffer = some b → b.length = 0
  nextUsed : s.nextBuffer = none → NextUsed s
  locals : Locals s
  /-- what was taken over, what waits and what is current are all the lines -/
  all_eq : s.taken ++ bytesOf s.buffers ++ ptrBytes s.currentBuffer = s.lines.flatten
  /-- what was written and what is to be written are the kept part of what was taken over -/
  kept_eq : s.written ++ bytesOf s.unwritten =
    (s.batches.map kept).flatten.flatten ++ bytesOf s.inflight

theorem init_inv : Inv (init : State N) where
  current _ := rfl
  buffers := by simp [init]
  toWrite := by simp [init]
  next b hb := by
    simp only [init, Option.some.injEq] at hb
    rw [← hb]
    rfl
  nextUsed h := by simp [init] at h
  locals := trivial
  all_eq := by
    have h0 : ptrBytes (some (FixedBuffer.make : FixedBuffer N)) = [] := spare_make.bytes
    simp [init, State.taken, State.inflight, h0]
  kept_eq := by simp [init, State.written, State.unwritten, State.inflight]

/-! ## Producers -/

/-- While the mutex is free, `threadFunc` relies on its own variables only. -/
theorem Locals.frame (h : Locals s) (hm : s.pc.holdsMutex = false) (hpc : t.pc = s.pc)
    (h1 : t.newBuffer1 = s.newBuffer1) (h2 : t.newBuffer2 = s.newBuffer2)
    (hw : t.buffersToWrite = s.buffersToWrite) : Locals t := by
  unfold Locals Enough at *
  rw [hpc, h1, h2, hw]
  cases hp : s.pc <;> simp_all [Pc.holdsMutex]

/-- A producer finds a current buffer, and leaves the invariant. -/
theorem Inv.append (h : Inv s) (hm : s.pc.holdsMutex = false) {logline : List UInt8}
    (hl : logline.length < N) : ∃ t, append s logline = .ok t ∧ Inv t := by
  have hne : s.pc ≠ .takeNew := by
    intro hpc
    rw [hpc] at hm
    cases hm
  obtain ⟨current, hcur⟩ := Option.isSome_iff_exists.mp (h.current hne)
  have hall := h.all_eq
  rw [hcur] at hall
  by_cases hfit : logline.length < current.avail
  · have hb : ptrBytes (some (current.append logline)) = ptrBytes (some current) ++ logline :=
      FixedBuffer.content_append hfit
    refine ⟨{ s with currentBuffer := some (current.append logline), lines := s.lines ++ [logline] },
      by simp only [AsyncLogging.append, hcur, if_pos hfit], ?_⟩
    refine { h with current := fun _ => rfl, nextUsed := h.nextUsed,
                    locals := h.locals.frame hm rfl rfl rfl rfl, all_eq := ?_,
                    kept_eq := h.kept_eq }
    show s.taken ++ bytesOf s.buffers ++ ptrBytes (some (current.append logline)) =
      (s.lines ++ [logline]).flatten
    simp only [List.flatten_append, List.flatten_cons, List.flatten_nil, List.append_nil, hb]
    rw [← hall, List.append_assoc _ _ logline]
  · obtain ⟨next, hnext⟩ : ∃ next, s.nextBuffer.getD .make = next := ⟨_, rfl⟩
    have hempty : next.length = 0 := by
      rw [← hnext]
      cases hn : s.nextBuffer with
      | none => rfl
      | some b => exact h.next b hn
    have hb : ptrBytes (some (next.append logline)) = logline :=
      FixedBuffer.content_append_of_empty hempty hl
    refine ⟨{ s with
      buffers := s.buffers ++ [some current]
      currentBuffer := some (next.append logline)
      nextBuffer := none
      lines := s.lines ++ [logline] },
      by simp only [AsyncLogging.append, hcur, if_neg hfit, hnext], ?_⟩
    refine { h with current := fun _ => rfl, buffers := ?_, next := by simp, nextUsed := ?_,
                    locals := h.locals.frame hm rfl rfl rfl rfl, all_eq := ?_,
                    kept_eq := h.kept_eq }
    · intro p hp
      rcases List.mem_append.mp hp with hp | hp
      · exact h.buffers p hp
      · rw [List.mem_singleton.mp hp]
        rfl
    · intro _
      have hpushed : s.buffers ++ [some current] ≠ [] := by simp
      unfold NextUsed
      cases hpc : s.pc <;> simp_all [Pc.holdsMutex]
    · show s.taken ++ bytesOf (s.buffers ++ [some current]) ++ ptrBytes (some (next.append logline)) =
        (s.lines ++ [logline]).flatten
      simp only [bytesOf_append, bytesOf_cons, bytesOf_nil, List.flatten_append, List.flatten_cons,
        List.flatten_nil, List.append_nil, hb]
      rw [← hall]
      simp only [List.append_assoc]

/-! ## The back end -/

/-- The buffer pointer is kept if it is filled, else the last of a batch is emptied for it. -/
theorem reuse_spec {p : BufferPtr N} {l : List (BufferPtr N)} (hp : Spare p ∨ p = none ∧ l ≠ [])
    (hl : ∀ q ∈ l, q.isSome) :
    ∃ q, reuse p l = .ok (q, if p.isSome then l else l.dropLast) ∧ Spare q := by
  rcases hp with ⟨b, rfl, hb⟩ | ⟨rfl, hne⟩
  · exact ⟨some b, rfl, b, rfl, hb⟩
  · obtain ⟨b, hlast⟩ := Option.isSome_iff_exists.mp (hl _ (List.getLast_mem hne))
    refine ⟨some b.reset, ?_, b.reset, rfl, rfl⟩
    simp only [reuse, List.getLast?_eq_some_getLast hne, hlast]
    rfl

/-- The recycling at the end of an iteration finds the buffers it needs. -/
theorem Inv.recycle (h : Inv s) (hpc : s.pc = .recycle) : ∃ t, recycle s = .ok t ∧ Inv t := by
  obtain ⟨hnew1, henough⟩ : s.newBuffer1 = none ∧ Enough s := by
    have := h.locals
    simpa only [Locals, hpc] using this
  obtain ⟨l, hl⟩ : ∃ l, (if s.buffersToWrite.length > 2 then s.buffersToWrite.take 2
    else s.buffersToWrite) = l := ⟨_, rfl⟩
  have hlsome : ∀ q ∈ l, q.isSome := by
    intro q hq
    rw [← hl] at hq
    split at hq
    · exact h.toWrite q (List.mem_of_mem_take hq)
    · exact h.toWrite q hq
  have hlen : l.length = min 2 s.buffersToWrite.length := by
    rw [← hl]
    split
    · rw [List.length_take]
    · omega
  have hpos : 0 < s.buffersToWrite.length := by
    rcases henough with ⟨-, hne⟩ | ⟨-, h2⟩
    · exact List.length_pos_iff.mpr hne
    · omega
  have hne : l ≠ [] := List.length_pos_iff.mp (by omega)
  obtain ⟨q1, hq1, hs1⟩ := reuse_spec (p := s.newBuffer1) (.inr ⟨hnew1, hne⟩) hlsome
  have hl' : (if s.newBuffer1.isSome then l else l.dropLast) = l.dropLast := by rw [hnew1]; rfl
  rw [hl'] at hq1
  have hp2 : Spare s.newBuffer2 ∨ s.newBuffer2 = none ∧ l.dropLast ≠ [] := by
    rcases henough with ⟨hs2, -⟩ | ⟨hn2, h2⟩
    · exact .inl hs2
    · refine .inr ⟨hn2, List.length_pos_iff.mp ?_⟩
      rw [List.length_dropLast]
      omega
  obtain ⟨q2, hq2, hs2⟩ := reuse_spec hp2 fun q hq => hlsome q (List.dropLast_subset _ hq)
  refine ⟨{ s with newBuffer1 := q1, newBuffer2 := q2, buffersToWrite := [], pc := .loopHead },
    by simp only [AsyncLogging.recycle, hl, hq1, hq2, ok_bind, pure_eq_ok], ?_⟩
  have hall := h.all_eq
  have hkept := h.kept_eq
  simp only [State.taken, State.inflight, State.unwritten, hpc] at hall hkept
  exact { h with
    current := fun _ => h.current (by rw [hpc]; simp)
    toWrite := by simp
    nextUsed := fun hn => by simpa only [NextUsed, hpc] using h.nextUsed hn
    locals := ⟨hs1, hs2, rfl⟩
    all_eq := hall
    kept_eq := hkept }

/-- The size check finds a batch, and keeps its first two buffers if there are too many. -/
theorem Inv.dropExcess (h : Inv s) (hpc : s.pc = .batch) : ∃ t, dropExcess s = .ok t ∧ Inv t := by
  obtain ⟨hnew1, henough⟩ : s.newBuffer1 = none ∧ Enough s := by
    have := h.locals
    simpa only [Locals, hpc] using this
  have hne : s.buffersToWrite ≠ [] := by
    rcases henough with ⟨-, hne⟩ | ⟨-, h2⟩
    · exact hne
    · exact List.length_pos_iff.mp (by omega)
  have hused : s.nextBuffer = none → s.buffers ≠ [] := fun hn => by
    simpa only [NextUsed, hpc] using h.nextUsed hn
  have hall := h.all_eq
  have hkept := h.kept_eq
  simp only [State.taken, State.inflight, State.unwritten, hpc, State.written] at hall hkept
  have hcur : s.currentBuffer.isSome := h.current (by rw [hpc]; simp)
  -- the batch moves from `inflight` to `batches`, whether it is cut or not
  have hall' : ((s.batches ++ [s.buffersToWrite.map ptrBytes]).flatten.flatten ++
      bytesOf ([] : List (BufferPtr N))) ++ bytesOf s.buffers ++ ptrBytes s.currentBuffer = s.lines.flatten := by
    rw [← hall, ← flatten_map_ptrBytes s.buffersToWrite]
    simp only [List.flatten_append, List.flatten_cons, List.flatten_nil, List.append_nil, bytesOf_nil]
  unfold AsyncLogging.dropExcess
  rw [check_bind _ hne]
  by_cases hbig : s.buffersToWrite.length > 25
  · simp only [if_pos hbig]
    refine ⟨_, rfl, ?_⟩
    have hk : kept (s.buffersToWrite.map ptrBytes) = (s.buffersToWrite.take 2).map ptrBytes := by
      rw [kept, if_pos (by rwa [List.length_map]), List.map_take]
    refine { h with current := fun _ => hcur, toWrite := ?_, nextUsed := hused, locals := ?_,
                    all_eq := hall', kept_eq := ?_ }
    · intro q hq
      exact h.toWrite q (List.mem_of_mem_take hq)
    · have hlen : (s.buffersToWrite.take 2).length = 2 := by
        rw [List.length_take]
        omega
      refine ⟨hnew1, ?_, Nat.zero_le _⟩
      rcases henough with ⟨hs2, -⟩ | ⟨hn2, -⟩
      · exact .inl ⟨hs2, List.length_pos_iff.mp (by simp only; omega)⟩
      · exact .inr ⟨hn2, Nat.le_of_eq hlen.symm⟩
    · simp only [State.written, State.unwritten, State.inflight, List.flatMap_append,
        List.flatMap_cons, List.flatMap_nil, Output.bytes, List.append_nil, List.map_append,
        List.map_cons, List.map_nil, List.flatten_append, List.flatten_cons, List.flatten_nil, hk,
        flatten_map_ptrBytes, List.drop_zero, bytesOf_nil]
      rw [List.append_cancel_right hkept]
  · simp only [if_neg hbig]
    refine ⟨_, rfl, ?_⟩
    have hk : kept (s.buffersToWrite.map ptrBytes) = s.buffersToWrite.map ptrBytes := by
      rw [kept, if_neg (by rwa [List.length_map])]
    refine { h with current := fun _ => hcur, nextUsed := hused,
                    locals := ⟨hnew1, henough, Nat.zero_le _⟩, all_eq := hall', kept_eq := ?_ }
    simp only [State.written, State.unwritten, State.inflight, List.map_append, List.map_cons,
      List.map_nil, List.flatten_append, List.flatten_cons, List.flatten_nil, List.append_nil, hk,
      flatten_map_ptrBytes, List.drop_zero, bytesOf_nil]
    exact hkept

/-- The current buffer goes to the back of those that wait. -/
theorem Inv.emplace (h : Inv s) (hpc : s.pc = .emplace) : Inv { s with
    buffers := s.buffers ++ [s.currentBuffer], currentBuffer := none, pc := .takeNew } := by
  obtain ⟨hs1, hs2, hnil⟩ : Spare s.newBuffer1 ∧ Spare s.newBuffer2 ∧ s.buffersToWrite = [] := by
    simpa only [Locals, hpc] using h.locals
  have hall := h.all_eq
  have hkept := h.kept_eq
  simp only [State.taken, State.inflight, State.unwritten, hpc] at hall hkept
  refine { h with
    current := by simp, buffers := ?_, nextUsed := ?_
    locals := ⟨hs1, hs2, hnil, rfl, by simp⟩, all_eq := ?_, kept_eq := hkept }
  · intro p hp
    rcases List.mem_append.mp hp with hp | hp
    · exact h.buffers p hp
    · rw [List.mem_singleton.mp hp]
      exact h.current (by rw [hpc]; simp)
  · intro hn
    have hused : s.buffers ≠ [] := by simpa only [NextUsed, hpc] using h.nextUsed hn
    have hpos : 0 < s.buffers.length := List.length_pos_iff.mpr hused
    show 2 ≤ (s.buffers ++ [s.currentBuffer]).length
    rw [List.length_append, List.length_singleton]
    omega
  · show s.batches.flatten.flatten ++ bytesOf ([] : List (BufferPtr N)) ++
      bytesOf (s.buffers ++ [s.currentBuffer]) ++ [] = s.lines.flatten
    rw [← hall]
    simp only [bytesOf_append, bytesOf_cons, bytesOf_nil, List.append_nil, ptrBytes,
      List.append_assoc]

/-- The current buffer is replaced by an empty one. -/
theorem Inv.takeNew (h : Inv s) (hpc : s.pc = .takeNew) : Inv { s with
    currentBuffer := s.newBuffer1, newBuffer1 := none, pc := .swap } := by
  obtain ⟨hs1, hs2, hnil, hnone, hne⟩ : Spare s.newBuffer1 ∧ Spare s.newBuffer2 ∧
      s.buffersToWrite = [] ∧ s.currentBuffer = none ∧ s.buffers ≠ [] := by
    simpa only [Locals, hpc] using h.locals
  have hall := h.all_eq
  have hkept := h.kept_eq
  simp only [State.taken, State.inflight, State.unwritten, hpc, hnone] at hall hkept
  refine { h with
    current := fun _ => hs1.isSome
    nextUsed := fun hn => by simpa only [NextUsed, hpc] using h.nextUsed hn
    locals := ⟨rfl, hs2, hnil, hs1, hne⟩, all_eq := ?_, kept_eq := hkept }
  show s.batches.flatten.flatten ++ bytesOf ([] : List (BufferPtr N)) ++ bytesOf s.buffers ++
    ptrBytes s.newBuffer1 = s.lines.flatten
  rw [hs1.bytes]
  exact hall

/-- The buffers that wait become the batch. -/
theorem Inv.swap (h : Inv s) (hpc : s.pc = .swap) : Inv { s with
    buffersToWrite := s.buffers, buffers := s.buffersToWrite, pc := .refill } := by
  obtain ⟨hn1, hs2, hnil, -, hne⟩ : s.newBuffer1 = none ∧ Spare s.newBuffer2 ∧
      s.buffersToWrite = [] ∧ Spare s.currentBuffer ∧ s.buffers ≠ [] := by
    simpa only [Locals, hpc] using h.locals
  have hall := h.all_eq
  have hkept := h.kept_eq
  simp only [State.taken, State.inflight, State.unwritten, hpc, bytesOf_nil,
    List.append_nil] at hall hkept
  refine { h with
    current := fun _ => h.current (by rw [hpc]; simp), buffers := h.toWrite, toWrite := h.buffers
    nextUsed := fun hn => by simpa only [NextUsed, hpc] using h.nextUsed hn
    locals := ⟨hn1, hs2, hne⟩, all_eq := ?_, kept_eq := ?_ }
  · show s.batches.flatten.flatten ++ bytesOf s.buffers ++ bytesOf s.buffersToWrite ++
      ptrBytes s.currentBuffer = s.lines.flatten
    rw [← hall, hnil]
    simp only [bytesOf_nil, List.append_nil]
  · show s.written ++ bytesOf s.buffers = (s.batches.map kept).flatten.flatten ++ bytesOf s.buffers
    rw [hkept]

/-- `nextBuffer_` is filled again if a producer took it. -/
theorem Inv.refill (h : Inv s) (hpc : s.pc = .refill) :
    ∃ t, AsyncLogging.threadFunc s = some (.ok t) ∧ Inv t := by
  obtain ⟨hn1, hs2, hne⟩ : s.newBuffer1 = none ∧ Spare s.newBuffer2 ∧ s.buffersToWrite ≠ [] := by
    simpa only [Locals, hpc] using h.locals
  have hcur : s.currentBuffer.isSome := h.current (by rw [hpc]; simp)
  have hall := h.all_eq
  have hkept := h.kept_eq
  simp only [State.taken, State.inflight, State.unwritten, hpc] at hall hkept
  cases hnext : s.nextBuffer with
  | some b =>
    refine ⟨{ s with pc := .batch }, by simp only [AsyncLogging.threadFunc, hpc, hnext], { h with
      current := fun _ => hcur, nextUsed := fun hn => ?_, locals := ⟨hn1, .inl ⟨hs2, hne⟩⟩
      all_eq := hall, kept_eq := hkept }⟩
    rw [hnext] at hn
    cases hn
  | none =>
    have hused : 2 ≤ s.buffersToWrite.length := by
      simpa only [NextUsed, hpc] using h.nextUsed hnext
    obtain ⟨b2, hb2, hempty⟩ := hs2
    refine ⟨{ s with nextBuffer := s.newBuffer2, newBuffer2 := none, pc := .batch },
      by simp only [AsyncLogging.threadFunc, hpc, hnext], { h with
        current := fun _ => hcur, next := ?_, nextUsed := fun hn => ?_
        locals := ⟨hn1, .inr ⟨rfl, hused⟩⟩, all_eq := hall, kept_eq := hkept }⟩
    · intro b hb
      rw [hb2, Option.some.injEq] at hb
      rw [← hb]
      exact hempty
    · rw [hb2] at hn
      cases hn

/-- A round of the loop that writes the batch, or its end. -/
theorem Inv.write {i : ℕ} (h : Inv s) (hpc : s.pc = .write i) :
    ∃ t, AsyncLogging.threadFunc s = some (.ok t) ∧ Inv t := by
  obtain ⟨hn1, henough, hi⟩ :
      s.newBuffer1 = none ∧ Enough s ∧ i ≤ s.buffersToWrite.length := by
    simpa only [Locals, hpc] using h.locals
  have hcur : s.currentBuffer.isSome := h.current (by rw [hpc]; simp)
  have hused : s.nextBuffer = none → s.buffers ≠ [] := fun hn => by
    simpa only [NextUsed, hpc] using h.nextUsed hn
  have hall := h.all_eq
  have hkept := h.kept_eq
  simp only [State.taken, State.inflight, State.unwritten, hpc] at hall hkept
  cases hget : s.buffersToWrite[i]? with
  | none =>
    have hdone : s.buffersToWrite.drop i = [] :=
      List.drop_eq_nil_of_le (List.getElem?_eq_none_iff.mp hget)
    rw [hdone] at hkept
    exact ⟨{ s with pc := .recycle }, by simp only [AsyncLogging.threadFunc, hpc, hget], { h with
      current := fun _ => hcur, nextUsed := hused, locals := ⟨hn1, henough⟩, all_eq := hall
      kept_eq := hkept }⟩
  | some p =>
    obtain ⟨b, rfl⟩ := Option.isSome_iff_exists.mp (h.toWrite p (List.mem_of_getElem? hget))
    obtain ⟨hlt, hb⟩ := List.getElem?_eq_some_iff.mp hget
    refine ⟨{ s with output := s.output ++ [.data b.content], pc := .write (i + 1) },
      by simp only [AsyncLogging.threadFunc, hpc, hget], { h with
        current := fun _ => hcur, nextUsed := hused, locals := ⟨hn1, henough, hlt⟩, all_eq := hall
        kept_eq := ?_ }⟩
    show (s.output ++ [Output.data b.content]).flatMap Output.bytes ++
      bytesOf (s.buffersToWrite.drop (i + 1)) = _
    rw [List.drop_eq_getElem_cons hlt, hb, bytesOf_cons] at hkept
    simp only [List.flatMap_append, List.flatMap_cons, List.flatMap_nil, List.append_nil,
      List.append_assoc]
    exact hkept

/-- Every statement of `threadFunc` passes its asserts and keeps the invariant. -/
theorem Inv.threadFunc (h : Inv s) (hbegin : s.pc = .begin_ → s.running = true)
    {r : Except Fault (State N)} (hr : threadFunc s = some r) : ∃ t, r = .ok t ∧ Inv t := by
  have hl := h.locals
  have hall := h.all_eq
  have hkept := h.kept_eq
  have hcur := h.current
  have hused := h.nextUsed
  cases hpc : s.pc
  case emplace =>
    rw [AsyncLogging.threadFunc, hpc] at hr
    exact ⟨_, (Option.some.inj hr).symm, h.emplace hpc⟩
  case takeNew =>
    rw [AsyncLogging.threadFunc, hpc] at hr
    exact ⟨_, (Option.some.inj hr).symm, h.takeNew hpc⟩
  case swap =>
    rw [AsyncLogging.threadFunc, hpc] at hr
    exact ⟨_, (Option.some.inj hr).symm, h.swap hpc⟩
  case refill =>
    obtain ⟨t, ht, hinv⟩ := h.refill hpc
    exact ⟨t, Option.some.inj (hr.symm.trans ht), hinv⟩
  case batch =>
    rw [AsyncLogging.threadFunc, hpc] at hr
    rw [← Option.some.inj hr]
    exact h.dropExcess hpc
  case write i =>
    obtain ⟨t, ht, hinv⟩ := h.write hpc
    exact ⟨t, Option.some.inj (hr.symm.trans ht), hinv⟩
  case recycle =>
    rw [AsyncLogging.threadFunc, hpc] at hr
    rw [← Option.some.inj hr]
    exact h.recycle hpc
  -- the other statements leave the buffers alone
  all_goals simp only [AsyncLogging.threadFunc, hpc, reduceCtorEq, Option.some.injEq] at hr
  all_goals
    simp only [Locals, NextUsed, State.taken, State.inflight, State.unwritten, hpc, ne_eq,
      reduceCtorEq, not_false_eq_true, forall_const] at hl hall hkept hcur hused
  case begin_ =>
    rw [check_bind _ (hbegin hpc)] at hr
    exact ⟨_, hr.symm, { h with
      current := fun _ => hcur, nextUsed := hused, locals := trivial, all_eq := hall, kept_eq := hkept }⟩
  case setup =>
    refine ⟨_, hr.symm, { h with
      current := fun _ => hcur, toWrite := by simp, nextUsed := hused, locals := ?_, all_eq := hall
      kept_eq := hkept }⟩
    exact ⟨spare_make, spare_make, rfl⟩
  case loopHead =>
    refine ⟨_, hr.symm, ?_⟩
    cases s.running
    · exact { h with
        current := fun _ => hcur, nextUsed := hused, locals := trivial, all_eq := hall
        kept_eq := hkept }
    · exact { h with
        current := fun _ => hcur, nextUsed := hused, locals := hl, all_eq := hall, kept_eq := hkept }
  case checks =>
    rw [check_bind _ hl.1.check, check_bind _ hl.2.1.check, check_bind _ hl.2.2] at hr
    exact ⟨_, hr.symm, { h with
      current := fun _ => hcur, nextUsed := hused, locals := hl, all_eq := hall, kept_eq := hkept }⟩
  case lock =>
    refine ⟨_, hr.symm, ?_⟩
    cases s.buffers.isEmpty
    · exact { h with
        current := fun _ => hcur, nextUsed := hused, locals := hl, all_eq := hall, kept_eq := hkept }
    · exact { h with
        current := fun _ => hcur, nextUsed := hused, locals := hl, all_eq := hall, kept_eq := hkept }
  case waiting =>
    exact ⟨_, hr.symm, { h with
      current := fun _ => hcur, nextUsed := hused, locals := hl, all_eq := hall, kept_eq := hkept }⟩

/-! ## The owner -/

/-- Where the owner and the back end can be at the same time. -/
structure Life (s : State N) : Prop where
  built : s.owner = .built ↔ s.pc = .unborn
  latch : s.pc = .unborn ∨ s.pc = .begin_ → s.latch = 1
  starting : s.pc = .begin_ → s.owner = .starting
  running : s.running = true ↔ s.owner = .starting ∨ s.owner = .started ∨ s.owner = .stopping
  joined : s.owner = .stopped → s.pc = .done

theorem init_life : Life (init : State N) := by
  constructor <;> simp [init]

/-- The recycling changes the local buffers only. -/
theorem recycle_cases (h : recycle s = .ok t) : ∃ p q, t = { s with
    newBuffer1 := p, newBuffer2 := q, buffersToWrite := [], pc := .loopHead } := by
  obtain ⟨⟨p, l⟩, -, h⟩ := bind_eq_ok.mp h
  obtain ⟨⟨q, l'⟩, -, h⟩ := bind_eq_ok.mp h
  exact ⟨p, q, (Except.ok.inj h).symm⟩

/-- The size check records the batch and may cut it. -/
theorem dropExcess_cases (h : dropExcess s = .ok t) : ∃ o l, t = { s with
    batches := s.batches ++ [s.buffersToWrite.map ptrBytes], pc := .write 0
    output := o, buffersToWrite := l } := by
  obtain ⟨-, h⟩ := check_bind_eq_ok.mp h
  simp only [pure_eq_ok] at h
  split at h
  · exact ⟨_, _, (Except.ok.inj h).symm⟩
  · exact ⟨_, _, (Except.ok.inj h).symm⟩

/-- What a statement of `threadFunc` leaves alone. -/
structure Frame (s t : State N) : Prop where
  running : t.running = s.running
  owner : t.owner = s.owner
  lines : t.lines = s.lines
  linesAtStop : t.linesAtStop = s.linesAtStop
  born : s.pc ≠ .unborn ∧ t.pc ≠ .unborn ∧ t.pc ≠ .begin_
  live : s.pc ≠ .done

theorem threadFunc_frame (hs : threadFunc s = some (.ok t)) : Frame s t := by
  cases hpc : s.pc <;>
    simp only [threadFunc, hpc, reduceCtorEq, Option.some.injEq, Except.ok.injEq,
      check_bind_eq_ok, pure_eq_ok] at hs
  case begin_ =>
    obtain ⟨-, rfl⟩ := hs
    constructor <;> simp [hpc]
  case checks =>
    obtain ⟨-, -, -, rfl⟩ := hs
    constructor <;> simp [hpc]
  case refill =>
    split at hs <;> cases hs <;> constructor <;> simp [hpc]
  case batch =>
    obtain ⟨o, l, rfl⟩ := dropExcess_cases hs
    constructor <;> simp [hpc]
  case write i =>
    split at hs <;> cases hs <;> constructor <;> simp [hpc]
  case recycle =>
    obtain ⟨p, q, rfl⟩ := recycle_cases hs
    constructor <;> simp [hpc]
  case loopHead =>
    subst hs
    cases hrun : s.running <;> constructor <;> simp [hpc, hrun]
  case lock =>
    subst hs
    cases s.buffers.isEmpty <;> constructor <;> simp [hpc]
  all_goals
    subst hs
    constructor <;> simp [hpc]

/-- A producer adds its line and moves buffers; the threads stay where they are. -/
theorem append_cases {logline : List UInt8} (h : append s logline = .ok t) : ∃ b c n, t = { s with
    buffers := b, currentBuffer := c, nextBuffer := n, lines := s.lines ++ [logline] } := by
  unfold append at h
  split at h
  · cases h
  · split at h
    · exact ⟨_, _, _, (Except.ok.inj h).symm⟩
    · exact ⟨_, _, _, (Except.ok.inj h).symm⟩

/-- The life of the log is kept by every action. -/
theorem Life.step {a : Action} (h : Life s) (hs : (machine N).Step s a t) : Life t := by
  obtain ⟨hbuilt, hlatch, hstarting, hrunning, hjoined⟩ := h
  cases effect hs with
  | append hm happend =>
    obtain ⟨b, c, n, rfl⟩ := append_cases happend
    exact ⟨hbuilt, hlatch, hstarting, hrunning, hjoined⟩
  | thread hthread =>
    have hf := threadFunc_frame hthread
    obtain ⟨hs0, ht0, ht1⟩ := hf.born
    refine ⟨?_, ?_, ?_, ?_, ?_⟩
    · rw [hf.owner]
      exact ⟨fun ho => absurd (hbuilt.mp ho) hs0, fun hpc => absurd hpc ht0⟩
    · rintro (hpc | hpc)
      · exact absurd hpc ht0
      · exact absurd hpc ht1
    · exact fun hpc => absurd hpc ht1
    · rw [hf.running, hf.owner]
      exact hrunning
    · rw [hf.owner]
      exact fun ho => absurd (hjoined ho) hf.live
  | start ho =>
    have hl := hlatch (.inl (hbuilt.mp ho))
    constructor <;> simp [hl]
  | startReturns ho hz =>
    -- the latch is open, so the back end is past its first statement
    have hpast : s.pc ≠ .unborn ∧ s.pc ≠ .begin_ := by
      constructor <;>
      · intro hpc
        have := hlatch (by simp [hpc])
        omega
    constructor <;> simp_all
  | stop ho => constructor <;> simp_all
  | clearRunning ho => constructor <;> simp_all
  | stopReturns ho hpc => constructor <;> simp_all

/-! ## Steps and runs -/

/-- The owner's part of the state is free. -/
theorem Inv.ofOwner (h : Inv s) (r : Bool) (o : Owner) (l : List (List UInt8)) :
    Inv { s with running := r, owner := o, linesAtStop := l } :=
  { h with current := h.current, nextUsed := h.nextUsed, locals := h.locals, all_eq := h.all_eq,
           kept_eq := h.kept_eq }

/-- **Step lemma**: an enabled action fails no assert and dereferences no null pointer, and keeps
the invariant. -/
theorem Inv.spec {a : Action} (h : Inv s) (hlife : Life s) (ha : ShortLines s a)
    {r : Except Fault (State N)} (hr : act s a = some r) : ∃ t, r = .ok t ∧ Inv t := by
  cases a with
  | append logline =>
    simp only [act, Option.ite_none_left_eq_some, Option.some.injEq, Bool.not_eq_true] at hr
    obtain ⟨hm, rfl⟩ := hr
    exact h.append hm ha
  | thread =>
    exact h.threadFunc (fun hpc => hlife.running.mpr (.inl (hlife.starting hpc))) hr
  | start =>
    simp only [act, Option.ite_none_right_eq_some, Option.some.injEq] at hr
    obtain ⟨ho, rfl⟩ := hr
    have hpc : s.pc = .unborn := hlife.built.mp ho
    have hall := h.all_eq
    have hkept := h.kept_eq
    have hused := h.nextUsed
    simp only [State.taken, State.inflight, State.unwritten, NextUsed, hpc] at hall hkept hused
    refine ⟨_, rfl, { h with
      current := fun _ => h.current (by rw [hpc]; simp), nextUsed := hused, locals := trivial
      all_eq := hall, kept_eq := hkept }⟩
  | startReturns =>
    simp only [act, Option.ite_none_right_eq_some, Option.some.injEq] at hr
    exact ⟨_, hr.2.symm, h.ofOwner ..⟩
  | stop =>
    simp only [act, Option.ite_none_right_eq_some, Option.some.injEq] at hr
    exact ⟨_, hr.2.symm, h.ofOwner ..⟩
  | clearRunning =>
    simp only [act, Option.ite_none_right_eq_some, Option.some.injEq] at hr
    exact ⟨_, hr.2.symm, h.ofOwner ..⟩
  | stopReturns =>
    simp only [act, Option.ite_none_right_eq_some, Option.some.injEq] at hr
    exact ⟨_, hr.2.symm, h.ofOwner ..⟩

/-- **Run lemma**: every state reached with short lines meets the invariant. -/
theorem reach_inv (h : (machine N).Reach ShortLines s) : Inv s ∧ Life s := by
  refine Machine.Reach.induct (I := fun s => Inv s ∧ Life s) ?_ ?_ h
  · rintro s rfl
    exact ⟨init_inv, init_life⟩
  · rintro s a t - ⟨hi, hl⟩ ha hs
    obtain ⟨t', ht, hinv⟩ := hi.spec hl ha hs
    cases ht
    exact ⟨hinv, hl.step hs⟩

/-- **Nothing is lost, duplicated or reordered while the log runs**: at every point of every run the
bytes written, to be written, waiting and current are the appended lines in lock order, less the
buffers from the third on of every batch of more than 25. -/
theorem log_conserved (h : (machine N).Reach ShortLines s) :
    (s.written ++ bytesOf s.unwritten =
        (s.batches.map kept).flatten.flatten ++ bytesOf s.inflight ∧
      s.batches.flatten.flatten ++ bytesOf s.inflight ++ bytesOf s.buffers ++
        ptrBytes s.currentBuffer = s.lines.flatten) ∧
    ((∀ b ∈ s.batches, b.length ≤ 25) →
      s.written ++ bytesOf s.unwritten ++ bytesOf s.buffers ++ ptrBytes s.currentBuffer =
        s.lines.flatten) ∧
    (s.pc.holdsMutex = false → s.currentBuffer.isSome) ∧
    (s.pc = .loopHead → Spare s.newBuffer1 ∧ Spare s.newBuffer2) ∧
    ∀ a, ShortLines s a → ¬ (machine N).Faults s a := by
  obtain ⟨hi, hl⟩ := reach_inv h
  refine ⟨⟨hi.kept_eq, hi.all_eq⟩, ?_, ?_, ?_, ?_⟩
  · intro hsmall
    rw [hi.kept_eq, map_kept_of_small hsmall]
    exact hi.all_eq
  · intro hm
    refine hi.current fun hpc => ?_
    rw [hpc] at hm
    cases hm
  · intro hpc
    have hloc := hi.locals
    simp only [Locals, hpc] at hloc
    exact ⟨hloc.1, hloc.2.1⟩
  · rintro a ha ⟨e, he⟩
    obtain ⟨t, ht, -⟩ := hi.spec hl ha he
    cases ht

/-- One line before `start`, one while the back end waits, one behind its back while it writes. -/
def threeLineRun : List Action :=
  [.append [65], .start, .thread, .startReturns, .thread, .thread, .thread, .thread, .append [66],
    .thread, .thread, .thread, .thread, .thread, .thread, .append [67], .thread]

theorem log_conserved_threeLines : ∃ s : State kLargeBuffer,
    (machine kLargeBuffer).Reach ShortLines s ∧ s.pc = .write 1 ∧
      s.written ++ bytesOf s.unwritten ++ bytesOf s.buffers ++ ptrBytes s.currentBuffer =
        [65, 66, 67] := by
  obtain ⟨s, hs, hpc, hlines, hbatches⟩ : ∃ s : State kLargeBuffer,
      (machine kLargeBuffer).exec ShortLines init threeLineRun = some s ∧ s.pc = .write 1 ∧
        s.lines = [[65], [66], [67]] ∧ s.batches.map List.length = [1] :=
    ⟨_, rfl, rfl, rfl, rfl⟩
  have hr : (machine kLargeBuffer).Reach ShortLines s := .of_exec (.init rfl) hs
  have hsmall : ∀ b ∈ s.batches, b.length ≤ 25 := by
    intro b hb
    have hmem := List.mem_map_of_mem (f := List.length) hb
    rw [hbatches, List.mem_singleton] at hmem
    omega
  refine ⟨s, hr, hpc, ((log_conserved hr).2.1 hsmall).trans ?_⟩
  rw [hlines]
  rfl

end MengSen.AsyncLogging

import MengSen.Base.AsyncLoggingInv

/-!
# Base.AsyncLoggingLines — whole lines in the buffers

`append` puts a line into one buffer, and the back end moves and drops buffers as a whole.  So the
bytes of `log_conserved` can be cut into lines: `Whole` follows, beside the buffers, the lines in
them.  `outputs` says what `LogFile::append` is called with for a batch, and `reach_output` that
these are the calls, in the order of the batches.
-/

namespace MengSen.AsyncLogging

open Machine (check_bind_eq_ok pure_eq_ok)

variable {N : ℕ} {s t : State N}

/-! ## The calls of `LogFile::append` -/

/-- The calls for a batch: the buffers, or the notice and the first two. -/
def outputs (batch : List (List UInt8)) : List Output :=
  if batch.length > 25 then .notice (batch.length - 2) :: (batch.take 2).map .data
  else batch.map .data

/-- The calls that the buffer loop has still to make. -/
def State.due (s : State N) : List Output :=
  match s.pc with
  | .write i => (s.buffersToWrite.drop i).map fun p => .data (ptrBytes p)
  | _ => []

/-- The size check writes the notice, and leaves the buffers to the loop. -/
theorem dropExcess_output (h : dropExcess s = .ok t) :
    t.pc = .write 0 ∧ t.batches = s.batches ++ [s.buffersToWrite.map ptrBytes] ∧
      t.output ++ t.due = s.output ++ outputs (s.buffersToWrite.map ptrBytes) ∧
      t.buffers = s.buffers ∧ t.currentBuffer = s.currentBuffer ∧ t.lines = s.lines := by
  obtain ⟨-, h⟩ := check_bind_eq_ok.mp h
  simp only [pure_eq_ok] at h
  split at h
  · next hbig =>
    obtain rfl := Except.ok.inj h
    refine ⟨rfl, rfl, ?_, rfl, rfl, rfl⟩
    simp only [State.due, outputs, List.length_map, if_pos hbig, List.drop_zero, ← List.map_take,
      List.map_map, List.append_assoc, List.singleton_append]
    rfl
  · next hbig =>
    obtain rfl := Except.ok.inj h
    refine ⟨rfl, rfl, ?_, rfl, rfl, rfl⟩
    simp only [State.due, outputs, List.length_map, if_neg hbig, List.drop_zero, List.map_map]
    rfl

/-- **A statement of `threadFunc`** calls `LogFile::append` at most once, with the next of the calls
that are due or with the notice. -/
theorem threadFunc_output (hs : threadFunc s = some (.ok t)) : ∃ new, t.output = s.output ++ new ∧
    (∀ o ∈ new, (∃ b : FixedBuffer N, o = .data b.content) ∨ ∃ dropped, o = .notice dropped) ∧
    ∃ called, t.batches = s.batches ++ called ∧
      t.output ++ t.due = s.output ++ s.due ++ called.flatMap outputs := by
  cases hpc : s.pc <;>
    simp only [threadFunc, hpc, reduceCtorEq, Option.some.injEq, Except.ok.injEq,
      check_bind_eq_ok, pure_eq_ok] at hs
  case begin_ =>
    obtain ⟨-, rfl⟩ := hs
    exact ⟨[], by simp, by simp, [], by simp [State.due, hpc]⟩
  case loopHead =>
    subst hs
    refine ⟨[], by simp, by simp, [], by simp, ?_⟩
    cases hrun : s.running <;> simp [State.due, hpc]
  case checks =>
    obtain ⟨-, -, -, rfl⟩ := hs
    exact ⟨[], by simp, by simp, [], by simp [State.due, hpc]⟩
  case lock =>
    subst hs
    refine ⟨[], by simp, by simp, [], by simp, ?_⟩
    cases s.buffers.isEmpty <;> simp [State.due, hpc]
  case refill =>
    refine ⟨[], ?_, by simp, [], ?_⟩
    · split at hs <;> cases hs <;> simp
    · split at hs <;> cases hs <;> simp [State.due, hpc]
  case batch =>
    obtain ⟨-, hbatches, hout, -⟩ := dropExcess_output hs
    have hdue : s.due = [] := by simp only [State.due, hpc]
    obtain ⟨-, hs⟩ := check_bind_eq_ok.mp hs
    simp only [pure_eq_ok] at hs
    refine ⟨if s.buffersToWrite.length > 25 then [.notice (s.buffersToWrite.length - 2)] else [],
      ?_, ?_, _, hbatches, ?_⟩
    · split at hs <;> cases hs <;> simp [*]
    · intro o ho
      split at ho
      · exact .inr ⟨_, List.mem_singleton.mp ho⟩
      · cases ho
    · rw [hout, hdue]
      simp
  case write i =>
    cases hget : s.buffersToWrite[i]? with
    | none =>
      rw [hget] at hs
      simp only [Option.some.injEq, Except.ok.injEq] at hs
      subst hs
      have hdone : s.buffersToWrite.drop i = [] :=
        List.drop_eq_nil_of_le (List.getElem?_eq_none_iff.mp hget)
      exact ⟨[], by simp, by simp, [], by simp [State.due, hpc, hdone]⟩
    | some p =>
      rw [hget] at hs
      obtain _ | b := p
      · cases hs
      simp only [Option.some.injEq, Except.ok.injEq] at hs
      subst hs
      obtain ⟨hlt, hb⟩ := List.getElem?_eq_some_iff.mp hget
      refine ⟨[.data b.content], rfl, fun o ho => .inl ⟨b, List.mem_singleton.mp ho⟩, [], by simp, ?_⟩
      simp only [State.due, hpc]
      rw [List.drop_eq_getElem_cons hlt, hb]
      simp [ptrBytes]
  case recycle =>
    obtain ⟨p, q, rfl⟩ := recycle_cases hs
    exact ⟨[], by simp, by simp, [], by simp [State.due, hpc]⟩
  all_goals
    subst hs
    exact ⟨[], by simp, by simp, [], by simp [State.due, hpc]⟩

/-- The producers and the owner call nothing. -/
theorem effect_output {a : Action} (hl : Life s) (he : Effect s a t) (hne : a ≠ .thread) :
    t.output = s.output ∧ t.batches = s.batches ∧ t.due = s.due := by
  cases he with
  | append hm happend =>
    obtain ⟨b, c, n, rfl⟩ := append_cases happend
    exact ⟨rfl, rfl, rfl⟩
  | thread hthread => exact absurd rfl hne
  | start ho => exact ⟨rfl, rfl, by simp only [State.due, hl.built.mp ho]⟩
  | startReturns ho hz => exact ⟨rfl, rfl, rfl⟩
  | stop ho => exact ⟨rfl, rfl, rfl⟩
  | clearRunning ho => exact ⟨rfl, rfl, rfl⟩
  | stopReturns ho hpc => exact ⟨rfl, rfl, rfl⟩

/-- **The calls**: those made and those due are those for the batches taken over, in their order. -/
theorem reach_output (h : (machine N).Reach ShortLines s) :
    s.output ++ s.due = s.batches.flatMap outputs := by
  refine Machine.Reach.induct (I := fun s => s.output ++ s.due = s.batches.flatMap outputs) ?_ ?_ h
  · rintro s rfl
    rfl
  · intro s a t hr ih ha hs
    have he := effect hs
    by_cases hthread : a = .thread
    · subst hthread
      obtain ⟨-, -, -, called, hbatches, hout⟩ := threadFunc_output hs
      rw [hout, ih, hbatches, List.flatMap_append]
    · obtain ⟨hout, hbatches, hdue⟩ := effect_output (reach_inv hr).2 he hthread
      rw [hout, hdue, hbatches, ih]

/-! ## Whole lines -/

/-- The lines of the batches that went to the size check, of the batch on its way there, of the
buffers that wait and of the current one. -/
structure Cut where
  batches : List (List (List (List UInt8)))
  inflight : List (List (List UInt8))
  waiting : List (List (List UInt8))
  current : List (List UInt8)

def Cut.lines (c : Cut) : List (List UInt8) :=
  c.batches.flatten.flatten ++ c.inflight.flatten ++ c.waiting.flatten ++ c.current

/-- The buffers hold the lines of `c`, which are the lines appended. -/
structure Whole (s : State N) (c : Cut) : Prop where
  batches : s.batches = c.batches.map (List.map List.flatten)
  inflight : s.inflight.map ptrBytes = c.inflight.map List.flatten
  waiting : s.buffers.map ptrBytes = c.waiting.map List.flatten
  current : ptrBytes s.currentBuffer = c.current.flatten
  lines : c.lines = s.lines

theorem init_whole : Whole (init : State N) ⟨[], [], [], []⟩ where
  batches := rfl
  inflight := rfl
  waiting := rfl
  current := spare_make.bytes
  lines := rfl

/-- **A line** goes to the current buffer or to an empty one. -/
theorem Whole.append {c : Cut} (h : Whole s c) (hi : Inv s) {logline : List UInt8}
    (hl : logline.length < N) (hs : append s logline = .ok t) : ∃ c', Whole t c' := by
  obtain ⟨hbatches, hinflight, hwaiting, hcurrent, hlines⟩ := h
  cases hcur : s.currentBuffer with
  | none =>
    simp only [AsyncLogging.append, hcur] at hs
    cases hs
  | some current =>
    rw [hcur] at hcurrent
    simp only [AsyncLogging.append, hcur] at hs
    split at hs
    · next hfit =>
      obtain rfl := Except.ok.inj hs
      refine ⟨{ c with current := c.current ++ [logline] }, hbatches, hinflight, hwaiting, ?_, ?_⟩
      · show (current.append logline).content = _
        rw [FixedBuffer.content_append hfit, List.flatten_concat, ← hcurrent]
        rfl
      · show c.batches.flatten.flatten ++ c.inflight.flatten ++ c.waiting.flatten ++
          (c.current ++ [logline]) = s.lines ++ [logline]
        rw [← hlines, Cut.lines, List.append_assoc _ c.current]
    · obtain ⟨next, hnext⟩ : ∃ next, s.nextBuffer.getD .make = next := ⟨_, rfl⟩
      have hempty : next.length = 0 := by
        rw [← hnext]
        cases hn : s.nextBuffer with
        | none => rfl
        | some b => exact hi.next b hn
      rw [hnext] at hs
      obtain rfl := Except.ok.inj hs
      refine ⟨{ c with waiting := c.waiting ++ [c.current], current := [logline] }, hbatches,
        hinflight, ?_, ?_, ?_⟩
      · rw [List.map_append, List.map_append, hwaiting, List.map_singleton, List.map_singleton,
          hcurrent]
      · show (next.append logline).content = [logline].flatten
        rw [FixedBuffer.content_append_of_empty hempty hl, List.flatten_singleton]
      · rw [← hlines]
        simp [Cut.lines]

/-- What a statement of `threadFunc` does to the lines when it is not in the locked section. -/
theorem Whole.frame {c : Cut} (h : Whole s c) (hbatches : t.batches = s.batches)
    (hinflight : t.inflight = s.inflight) (hbuffers : t.buffers = s.buffers)
    (hcurrent : ptrBytes t.currentBuffer = ptrBytes s.currentBuffer) (hlines : t.lines = s.lines) :
    Whole t c where
  batches := hbatches.trans h.batches
  inflight := hinflight ▸ h.inflight
  waiting := hbuffers ▸ h.waiting
  current := hcurrent.trans h.current
  lines := h.lines.trans hlines.symm

/-- **A statement of `threadFunc`** moves whole buffers. -/
theorem Whole.threadFunc {c : Cut} (h : Whole s c) (hi : Inv s)
    (hs : threadFunc s = some (.ok t)) : ∃ c', Whole t c' := by
  have hloc := hi.locals
  cases hpc : s.pc <;>
    simp only [AsyncLogging.threadFunc, hpc, reduceCtorEq, Option.some.injEq, Except.ok.injEq,
      check_bind_eq_ok, pure_eq_ok] at hs <;>
    simp only [Locals, hpc] at hloc
  case begin_ =>
    obtain ⟨-, rfl⟩ := hs
    exact ⟨c, h.frame rfl (by simp only [State.inflight, hpc]) rfl rfl rfl⟩
  case loopHead =>
    subst hs
    refine ⟨c, h.frame rfl ?_ rfl rfl rfl⟩
    cases hrun : s.running <;> simp [State.inflight, hpc]
  case checks =>
    obtain ⟨-, -, -, rfl⟩ := hs
    exact ⟨c, h.frame rfl (by simp only [State.inflight, hpc]) rfl rfl rfl⟩
  case lock =>
    subst hs
    refine ⟨c, h.frame rfl ?_ rfl rfl rfl⟩
    cases s.buffers.isEmpty <;> simp [State.inflight, hpc]
  case emplace =>
    subst hs
    refine ⟨{ c with waiting := c.waiting ++ [c.current], current := [] }, h.batches, ?_, ?_, rfl, ?_⟩
    · simpa only [State.inflight, hpc] using h.inflight
    · rw [List.map_append, List.map_append, h.waiting, List.map_singleton, List.map_singleton,
        h.current]
    · rw [← h.lines]
      simp [Cut.lines]
  case takeNew =>
    subst hs
    obtain ⟨hspare, -, -, hnone, -⟩ := hloc
    refine ⟨c, h.frame rfl (by simp only [State.inflight, hpc]) rfl ?_ rfl⟩
    rw [hspare.bytes, hnone]
    rfl
  case swap =>
    subst hs
    obtain ⟨-, -, hnil, -, -⟩ := hloc
    have hinflight : c.inflight = [] := by
      have hmap := h.inflight
      simp only [State.inflight, hpc] at hmap
      exact List.map_eq_nil_iff.mp hmap.symm
    refine ⟨{ c with inflight := c.waiting, waiting := [] }, h.batches, h.waiting, ?_, h.current, ?_⟩
    · rw [hnil]
      rfl
    · rw [← h.lines]
      simp [Cut.lines, hinflight]
  case refill =>
    refine ⟨c, ?_⟩
    split at hs <;> cases hs <;>
      exact h.frame rfl (by simp only [State.inflight, hpc]) rfl rfl rfl
  case batch =>
    obtain ⟨hpc', hbatches, -, hbuffers, hcurrent, hlines⟩ := dropExcess_output hs
    have hinflight := h.inflight
    simp only [State.inflight, hpc] at hinflight
    refine ⟨{ c with batches := c.batches ++ [c.inflight], inflight := [] }, ?_, ?_, ?_, ?_, ?_⟩
    · rw [hbatches, h.batches, hinflight, List.map_append, List.map_singleton]
    · simp only [State.inflight, hpc', List.map_nil]
    · rw [hbuffers]
      exact h.waiting
    · rw [hcurrent]
      exact h.current
    · rw [hlines, ← h.lines]
      simp [Cut.lines]
  case write i =>
    refine ⟨c, ?_⟩
    split at hs <;> cases hs <;>
      exact h.frame rfl (by simp only [State.inflight, hpc]) rfl rfl rfl
  case recycle =>
    obtain ⟨p, q, rfl⟩ := recycle_cases hs
    exact ⟨c, h.frame rfl (by simp only [State.inflight, hpc]) rfl rfl rfl⟩
  all_goals
    subst hs
    exact ⟨c, h.frame rfl (by simp only [State.inflight, hpc]) rfl rfl rfl⟩

/-- **Whole lines**: at every point of every run the buffers hold lines as they were appended, in
lock order. -/
theorem reach_whole (h : (machine N).Reach ShortLines s) : ∃ c, Whole s c := by
  refine Machine.Reach.induct (I := fun s => ∃ c, Whole s c) ?_ ?_ h
  · rintro s rfl
    exact ⟨_, init_whole⟩
  · rintro s a t hr ⟨c, hc⟩ ha hs
    obtain ⟨hi, hl⟩ := reach_inv hr
    cases effect hs with
    | append hm happend => exact hc.append hi ha happend
    | thread hthread => exact hc.threadFunc hi hthread
    | start ho =>
      have hpc := hl.built.mp ho
      exact ⟨c, hc.frame rfl (by simp only [State.inflight, hpc]) rfl rfl rfl⟩
    | startReturns ho hz => exact ⟨c, hc.frame rfl rfl rfl rfl rfl⟩
    | stop ho => exact ⟨c, hc.frame rfl rfl rfl rfl rfl⟩
    | clearRunning ho => exact ⟨c, hc.frame rfl rfl rfl rfl rfl⟩
    | stopReturns ho hpc => exact ⟨c, hc.frame rfl rfl rfl rfl rfl⟩

end MengSen.AsyncLogging

import MengSen.Log.QueueBufferInv

/-!
# Log.QueueBufferStep — the frames of the steps

What each part of the invariant needs of a step, and the steps of a producer `p`: its next statement is
`c` afterwards.
-/

namespace MengSen.Log.QueueBuffer

variable {τ α : Type} {s u : State τ α} {e f b d i j : ℕ} {l m : LogLine τ α} {c : Call τ α} {p q : τ}
  {B : Buffer τ α}

/-! ## Frames -/

/-- What a step on the buffer `b` leaves alone there, it leaves alone everywhere. -/
theorem field_update {γ : Type} (g : Buffer τ α → γ) (h : g B = g (s.heap b)) (d : ℕ) :
    g (Function.update s.heap b B d) = g (s.heap d) := by
  by_cases hd : d = b
  · rw [hd, Function.update_self, h]
  · rw [Function.update_of_ne hd]

/-- What it leaves alone outside of the slot `i` there, it leaves alone in every other slot. -/
theorem entry_update {γ : Type} (g : Buffer τ α → ℕ → γ) (h : ∀ j, j ≠ i → g B j = g (s.heap b) j)
    (hne : d ≠ b ∨ j ≠ i) : g (Function.update s.heap b B d) j = g (s.heap d) j := by
  by_cases hd : d = b
  · rw [hd, Function.update_self]
    exact h j (hne.resolve_left (not_not_intro hd))
  · rw [Function.update_of_ne hd]

theorem ne_of_written (hw : (s.heap d).written j = true) (hfree : (s.heap b).written i = false) :
    d ≠ b ∨ j ≠ i := by
  by_contra hsame
  rw [not_or, not_not, not_not] at hsame
  rw [hsame.1, hsame.2, hfree] at hw
  cases hw

/-- The step is one of a producer. -/
structure SameReader (s u : State τ α) : Prop where
  popped : u.popped = s.popped
  popCalls : u.popCalls = s.popCalls
  reader : u.reader = s.reader
  readIndex : u.readIndex = s.readIndex
  currentRead : u.currentRead = s.currentRead
  readAssigned : u.readAssigned = s.readAssigned
  readUnset : u.readUnset = s.readUnset

theorem Unset.frame (h : Unset s) (hs : SameReader s u) : Unset u := by
  refine ⟨?_, ?_, ?_⟩
  · rw [hs.readUnset, hs.popCalls]
    exact h.called
  · rw [hs.readAssigned, hs.popCalls]
    exact h.assigned
  · rw [hs.reader, hs.popCalls]
    exact h.busy

theorem Reading.frame (h : Reading s f) (hs : SameReader s u) : Reading u f := by
  refine ⟨?_, ?_⟩
  · rw [hs.popped, hs.readIndex]
    exact h.length
  · rw [hs.readIndex]
    exact h.lt

theorem Reader.Ok.frame {r : Reader} (h : r.Ok s f e) (hs : SameReader s u) (he : e ≤ d)
    (hwritten : ∀ i, (s.heap f).written i = true → (u.heap f).written i = true) : r.Ok u f d := by
  cases r with
  | idle =>
    obtain ⟨hr, hfirst, hptr⟩ := h
    refine ⟨hr.frame hs, ?_, ?_⟩
    · rw [hs.readAssigned, hs.readIndex]
      exact hfirst
    · rw [hs.readAssigned, hs.currentRead, hs.readIndex]
      intro hassigned
      exact (hptr hassigned).imp_left fun hcur => ⟨hcur.1, hcur.2.trans he⟩
  | fetching =>
    obtain ⟨hr, hindex, hcur⟩ := h
    exact ⟨hr.frame hs, hs.readIndex.trans hindex, hs.currentRead.trans hcur⟩
  | looking b =>
    obtain ⟨hb, hf, hr, hcur, hassigned⟩ := h
    exact ⟨hb, hf.trans he, hr.frame hs, hs.currentRead.trans hcur,
      hs.readAssigned.trans hassigned⟩
  | moving b =>
    obtain ⟨hb, hf, hr, hcur, hassigned, hw⟩ := h
    refine ⟨hb, hf.trans he, hr.frame hs, hs.currentRead.trans hcur,
      hs.readAssigned.trans hassigned, ?_⟩
    rw [hs.readIndex]
    exact hwritten _ hw
  | retiring =>
    obtain ⟨hf, hlen, hindex, hcur, hassigned⟩ := h
    exact ⟨hf.trans he, by rw [hs.popped]; exact hlen, hs.readIndex.trans hindex,
      hs.currentRead.trans hcur, hs.readAssigned.trans hassigned⟩

/-- The popped lines stay the first ones. -/
theorem order_frame (h : s.popped = s.history.claimed.take s.popped.length)
    (hpopped : u.popped = s.popped) (hclaimed : s.history.claimed <+: u.history.claimed) :
    u.popped = u.history.claimed.take u.popped.length := by
  obtain ⟨ls, hls⟩ := hclaimed
  have hlen : s.popped.length ≤ s.history.claimed.length := by
    have heq := congrArg List.length h
    rw [List.length_take] at heq
    omega
  rw [hpopped, ← hls, List.take_append_of_le_length hlen]
  exact h

/-- All lines of the buffers before `f` are popped. -/
theorem Consumer.popped_ge (h : Consumer s f e) : ticket f 0 ≤ s.popped.length := by
  have hread : Reading s f → ticket f 0 ≤ s.popped.length := by
    intro hr
    rw [hr.length]
    unfold ticket
    omega
  have hok := h.reader
  cases hr : s.reader with
  | idle =>
    rw [hr] at hok
    exact hread hok.1
  | fetching =>
    rw [hr] at hok
    exact hread hok.1
  | looking b =>
    rw [hr] at hok
    exact hread hok.2.2.1
  | moving b =>
    rw [hr] at hok
    exact hread hok.2.2.1
  | retiring =>
    rw [hr] at hok
    rw [hok.2.1]
    exact Nat.le_of_lt (ticket_lt_ticket size_pos (Nat.lt_succ_self f))

/-- A step of a producer that allocates nothing. -/
theorem Consumer.frame (h : Consumer s f e) (hs : SameReader s u)
    (hclaimed : s.history.claimed <+: u.history.claimed)
    (hwritten : ∀ b i, (s.heap b).written i = true → (u.heap b).written i = true)
    (hfull : (s.heap e).count = Buffer.size → (u.heap e).count = Buffer.size)
    (hbuffers : u.buffers = s.buffers) (hlive : u.live = s.live)
    (hallocated : u.allocated = s.allocated) : Consumer u f e where
  order := order_frame h.order hs.popped hclaimed
  reader := by
    rw [hs.reader]
    exact h.reader.frame hs (Nat.le_refl e) (hwritten f)
  buffers := hbuffers.trans h.buffers
  le := h.le
  full hf := hfull (h.full hf)
  live b := by
    rw [hlive, hallocated]
    exact h.live b

/-- The slots that are marked as written stay as they are. -/
theorem Content.frame (h : Content s) (hclaimed : s.history.claimed <+: u.history.claimed)
    (hpopped : u.popped = s.popped)
    (hwritten : ∀ b i, (s.heap b).written i = true → (u.heap b).written i = true)
    (hheap : ∀ b i, (u.heap b).written i = true →
      (s.heap b).written i = true ∧ (u.heap b).items i = (s.heap b).items i) : Content u := by
  obtain ⟨ls, hls⟩ := hclaimed
  refine ⟨?_, ?_, ?_⟩
  · intro b i hw
    obtain ⟨hi, hlt⟩ := h.lt b i (hheap b i hw).1
    refine ⟨hi, ?_⟩
    rw [← hls, List.length_append]
    exact Nat.lt_add_right _ hlt
  · intro b i hw hopen
    obtain ⟨hold, hitem⟩ := hheap b i hw
    rw [hpopped] at hopen
    rw [hitem, ← hls, List.getElem?_append_left (h.lt b i hold).2]
    exact h.items b i hold hopen
  · intro b i hi hlt
    rw [hpopped] at hlt
    exact hwritten b i (h.popped b i hi hlt)

variable [DecidableEq τ]

theorem calls_update {β : Type} (g : Call τ α → β) (hcalls : u.calls = Function.update s.calls p c) :
    (fun q => g (u.calls q)) = Function.update (fun q => g (s.calls q)) p (g c) := by
  funext q
  rw [hcalls]
  exact Function.apply_update (fun _ => g) s.calls p c q

theorem calls_of_ne (hcalls : u.calls = Function.update s.calls p c) (hq : q ≠ p) :
    u.calls q = s.calls q := by
  rw [hcalls, Function.update_of_ne hq]

theorem calls_self (hcalls : u.calls = Function.update s.calls p c) : u.calls p = c := by
  rw [hcalls, Function.update_self]

/-! ### The journal -/

/-- A statement after which `p` waits for the same line. -/
theorem Journal.legal_update (h : Journal s) (hcalls : u.calls = Function.update s.calls p c)
    (hhistory : u.history = s.history) (hwaiting : c.waiting = (s.calls p).waiting) :
    u.history.Legal fun q => (u.calls q).waiting := by
  rw [hhistory]
  refine h.legal.congr fun q => ?_
  by_cases hq : q = p
  · rw [hq, calls_self hcalls, hwaiting]
  · rw [calls_of_ne hcalls hq]

/-- A statement inside a call. -/
theorem Journal.keep (h : Journal s) (hcalls : u.calls = Function.update s.calls p c)
    (hhistory : u.history = s.history) (hwaiting : c.waiting = (s.calls p).waiting)
    (hline : c.line = (s.calls p).line)
    (hwritten : ∀ b i, (s.heap b).written i = true → (u.heap b).written i = true) : Journal u := by
  refine ⟨h.legal_update hcalls hhistory hwaiting, fun q l hl hreturned => ?_⟩
  have hold : (s.calls q).line ≠ some l := by
    by_cases hq : q = p
    · subst hq
      rw [calls_self hcalls, hline] at hreturned
      exact hreturned
    · rw [calls_of_ne hcalls hq] at hreturned
      exact hreturned
  rw [hhistory] at hl
  exact (h.returned q l hl hold).mono (by rw [hhistory]) hwritten

/-- A step of the consumer. -/
theorem Journal.frame (h : Journal s) (hcalls : u.calls = s.calls) (hhistory : u.history = s.history)
    (hwritten : ∀ b i, (s.heap b).written i = true → (u.heap b).written i = true) : Journal u where
  legal := by
    rw [hcalls, hhistory]
    exact h.legal
  returned q l hl hreturned := by
    rw [hhistory] at hl
    rw [hcalls] at hreturned
    exact (h.returned q l hl hreturned).mono (by rw [hhistory]) hwritten

/-- The call of `p` returns. -/
theorem Journal.finish (h : Journal s) (hcalls : u.calls = Function.update s.calls p .idle)
    (hhistory : u.history = s.history) (hp : (s.calls p).line = some l)
    (hwaiting : (s.calls p).waiting = none) (hl : Written s l)
    (hwritten : ∀ b i, (s.heap b).written i = true → (u.heap b).written i = true) : Journal u := by
  refine ⟨h.legal_update hcalls hhistory hwaiting.symm, fun q m hm hreturned => ?_⟩
  rw [hhistory] at hm
  have hold : Written s m := by
    by_cases hq : q = p
    · subst hq
      by_cases hml : m = l
      · rw [hml]
        exact hl
      · refine h.returned q m hm ?_
        rw [hp]
        intro heq
        exact hml (Option.some.inj heq).symm
    · rw [calls_of_ne hcalls hq] at hreturned
      exact h.returned q m hm hreturned
  exact hold.mono (by rw [hhistory]) hwritten

/-! ### The producers -/

/-- A step of `p` that does not publish. -/
theorem Producers.update (h : Producers s e) (hcalls : u.calls = Function.update s.calls p c)
    (hslots : Slots Buffer.size (fun q => (u.calls q).slot) u.writeIndex (u.heap e).count)
    (hlength : u.history.claimed.length = ticket e (min u.writeIndex Buffer.size))
    (holder : ∀ b < e, (u.heap b).count = (s.heap b).count)
    (hswitching : c.isSwitching = true →
      (s.calls p).isSwitching = true ∨ ∀ q, (s.calls q).isSwitching = false)
    (hpublishing : c.isPublishing = (s.calls p).isPublishing)
    (hallocated : u.allocated = s.allocated) (hcurrent : u.currentWrite = s.currentWrite)
    (hother : ∀ q, q ≠ p → (s.calls q).Ok u e) (hc : c.Ok u e) : Producers u e := by
  have hpub : ∀ q, (u.calls q).isPublishing = (s.calls q).isPublishing := by
    intro q
    by_cases hq : q = p
    · rw [hq, calls_self hcalls, hpublishing]
    · rw [calls_of_ne hcalls hq]
  have hone : ∀ q, q ≠ p → c.isSwitching = true → (s.calls q).isSwitching = true → False := by
    intro q hq hnew hold
    rcases hswitching hnew with hp | hnone
    · exact hq (h.one q p hold hp)
    · rw [hnone q] at hold
      cases hold
  refine ⟨?_, hslots, hlength, ?_, ?_, ?_, ?_⟩
  · intro q
    by_cases hq : q = p
    · rw [hq, calls_self hcalls]
      exact hc
    · rw [calls_of_ne hcalls hq]
      exact hother q hq
  · intro b hb
    rw [holder b hb]
    exact h.older b hb
  · intro q r hq hr
    by_cases hqp : q = p
    · by_cases hrp : r = p
      · rw [hqp, hrp]
      · rw [hqp, calls_self hcalls] at hq
        rw [calls_of_ne hcalls hrp] at hr
        exact absurd hr (hone r hrp hq)
    · rw [calls_of_ne hcalls hqp] at hq
      by_cases hrp : r = p
      · rw [hrp, calls_self hcalls] at hr
        exact absurd hq (hone q hqp hr)
      · rw [calls_of_ne hcalls hrp] at hr
        exact h.one q r hq hr
  · rw [hallocated]
    simp only [hpub]
    exact h.allocated
  · rw [hcurrent, hallocated]
    exact h.current

omit [DecidableEq τ] in
/-- A step of the consumer. -/
theorem Producers.frame (h : Producers s e) (hcalls : u.calls = s.calls)
    (hhistory : u.history = s.history) (hindex : u.writeIndex = s.writeIndex)
    (hcount : ∀ b, (u.heap b).count = (s.heap b).count) (hallocated : u.allocated = s.allocated)
    (hcurrent : u.currentWrite = s.currentWrite) (hok : ∀ p, (s.calls p).Ok u e) :
    Producers u e where
  ok p := by
    rw [hcalls]
    exact hok p
  slots := by
    rw [hcalls, hindex, hcount]
    exact h.slots
  length := by
    rw [hhistory, hindex]
    exact h.length
  older b hb := (hcount b).trans (h.older b hb)
  one p q hp hq := by
    rw [hcalls] at hp hq
    exact h.one p q hp hq
  allocated := by
    rw [hcalls, hallocated]
    exact h.allocated
  current := by
    rw [hcurrent, hallocated]
    exact h.current

/-- While a producer has a slot, nobody switches. -/
theorem Producers.not_switching (h : Producers s e) (hp : (s.calls p).slot = some i) (q : τ) :
    (s.calls q).isSwitching = false := by
  have hlt := h.slots.count_lt hp
  have hok := h.ok q
  cases hq : (s.calls q) with
  | switching l =>
    rw [hq] at hok
    have hfull := hok.1
    omega
  | publishing b l =>
    rw [hq] at hok
    have hfull := hok.2.1
    omega
  | idle | entered _ | spinning _ | indexed _ _ | placing _ _ _ | storing _ _ _
  | counting _ _ _ => rfl

/-- While a producer has a slot, its buffer is not popped. -/
theorem Consumer.live_of_slot (h : Consumer s f e) (hprod : Producers s e)
    (hp : (s.calls p).slot = some i) : s.live e = true := by
  have hlt := hprod.slots.count_lt hp
  refine (h.live e).mpr ⟨?_, ?_⟩
  · by_contra hf
    have hfull := h.full (by have := h.le; omega)
    omega
  · rcases hprod.allocated with ⟨heq, -⟩ | ⟨heq, -⟩
    · omega
    · omega

end MengSen.Log.QueueBuffer

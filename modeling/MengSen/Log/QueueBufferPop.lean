import MengSen.Log.QueueBufferStep

/-!
# Log.QueueBufferPop — the steps of `try_pop`

Every step of the consumer keeps the invariant, given what the code leaves to chance: that
`_current_read_buffer` holds a null pointer when it is read unset, and that a buffer is popped from the
queue after all its slots are counted.
-/

namespace MengSen.Log.QueueBuffer

variable {τ α : Type} [DecidableEq τ] {s u : State τ α} {e f b d i j : ℕ} {l : LogLine τ α}

/-- A step of the consumer that leaves the buffers alone. -/
theorem Inv.of_reader (h : Inv s f e) (hcalls : u.calls = s.calls) (hhistory : u.history = s.history)
    (hheap : u.heap = s.heap) (hindex : u.writeIndex = s.writeIndex)
    (hallocated : u.allocated = s.allocated) (hcurrent : u.currentWrite = s.currentWrite)
    (hbuffers : u.buffers = s.buffers) (hlive : u.live = s.live) (hpopped : u.popped = s.popped)
    (hreader : u.reader.Ok u f e) (hunset : Unset u) : Inv u f e := by
  have hext : s.history.claimed <+: u.history.claimed := by rw [hhistory]
  have hwritten : ∀ d j, (s.heap d).written j = true → (u.heap d).written j = true := by
    intro d j hw
    rw [hheap]
    exact hw
  refine ⟨?_, h.journal.frame hcalls hhistory hwritten, ?_,
    ⟨?_, hreader, ?_, h.consumer.le, ?_, ?_⟩, hunset⟩
  · refine h.producers.frame hcalls hhistory hindex ?_ hallocated hcurrent ?_
    · intro d
      rw [hheap]
    · intro p
      exact (h.producers.ok p).congr hext hheap
  · refine h.content.frame hext hpopped hwritten ?_
    intro d j hw
    rw [hheap] at hw ⊢
    exact ⟨hw, rfl⟩
  · exact order_frame h.consumer.order hpopped hext
  · exact hbuffers.trans h.consumer.buffers
  · intro hf
    rw [hheap]
    exact h.consumer.full hf
  · intro d
    rw [hlive, hallocated]
    exact h.consumer.live d

omit [DecidableEq τ] in
/-- The queue is empty when all buffers were popped, else its front is the buffer `f`. -/
theorem Consumer.head (h : Consumer s f e) :
    s.buffers.head? = none ∧ f = e + 1 ∨ s.buffers.head? = some f ∧ f ≤ e := by
  rw [h.buffers]
  have hle := h.le
  by_cases hf : f ≤ e
  · have hsub : e + 1 - f = e - f + 1 := by omega
    rw [hsub, List.range'_succ]
    exact .inr ⟨rfl, hf⟩
  · have hsub : e + 1 - f = 0 := by omega
    rw [hsub]
    exact .inl ⟨rfl, by omega⟩

theorem Inv.tryPop (h : Inv s f e) (hr : s.reader = .idle)
    (hset : s.readAssigned = true ∨ s.currentRead = none) :
    Inv { s with
      readUnset := s.readUnset || !s.readAssigned
      popCalls := s.popCalls + 1
      reader := s.currentRead.elim .fetching .looking } f e := by
  obtain ⟨hreading, hfirst, hptr⟩ : Reading s f ∧ (s.readAssigned = false → s.readIndex = 0) ∧
      (s.readAssigned = true → s.currentRead = some f ∧ f ≤ e ∨
        s.currentRead = none ∧ s.readIndex = 0) := by
    have hok := h.consumer.reader
    rwa [hr] at hok
  refine h.of_reader rfl rfl rfl rfl rfl rfl rfl rfl rfl ?_ ⟨?_, ?_, ?_⟩
  · rcases hcur : s.currentRead with _ | b
    · refine ⟨⟨hreading.length, hreading.lt⟩, ?_, rfl⟩
      by_cases hassigned : s.readAssigned = true
      · rcases hptr hassigned with ⟨hsome, -⟩ | ⟨-, hzero⟩
        · rw [hcur] at hsome
          cases hsome
        · exact hzero
      · exact hfirst (Bool.eq_false_of_not_eq_true hassigned)
    · have hassigned : s.readAssigned = true := by
        rcases hset with hassigned | hnone
        · exact hassigned
        · rw [hcur] at hnone
          cases hnone
      rcases hptr hassigned with ⟨hsome, hf⟩ | ⟨hnone, -⟩
      · obtain rfl := Option.some.inj (hcur.symm.trans hsome)
        exact ⟨rfl, hf, ⟨hreading.length, hreading.lt⟩, rfl, hassigned⟩
      · rw [hcur] at hnone
        cases hnone
  · show (s.readUnset || !s.readAssigned) = true ↔ s.popCalls + 1 ≠ 0
    refine iff_of_true ?_ (Nat.succ_ne_zero _)
    by_cases hassigned : s.readAssigned = true
    · rw [h.unset.called.mpr (h.unset.assigned hassigned)]
      rfl
    · rw [Bool.eq_false_of_not_eq_true hassigned]
      exact Bool.or_true _
  · exact fun _ => Nat.succ_ne_zero _
  · exact fun _ => Nat.succ_ne_zero _

theorem Inv.fetch (h : Inv s f e) (hr : s.reader = .fetching) :
    Inv { s with
      currentRead := s.buffers.head?
      readAssigned := true
      reader := s.buffers.head?.elim .idle .looking } f e := by
  obtain ⟨hreading, hzero, -⟩ : Reading s f ∧ s.readIndex = 0 ∧ s.currentRead = none := by
    have hok := h.consumer.reader
    rwa [hr] at hok
  have hbusy : s.popCalls ≠ 0 := h.unset.busy (by rw [hr]; nofun)
  refine h.of_reader rfl rfl rfl rfl rfl rfl rfl rfl rfl ?_ ⟨h.unset.called, ?_, ?_⟩
  · rcases h.consumer.head with ⟨hhead, -⟩ | ⟨hhead, hf⟩
    · rw [hhead]
      exact ⟨⟨hreading.length, hreading.lt⟩, fun _ => hzero, fun _ => .inr ⟨rfl, hzero⟩⟩
    · rw [hhead]
      exact ⟨rfl, hf, ⟨hreading.length, hreading.lt⟩, rfl, rfl⟩
  · exact fun _ => hbusy
  · exact fun _ => hbusy

theorem Inv.look (h : Inv s f e) (hr : s.reader = .looking b) :
    Inv { s with reader := if (s.heap b).written s.readIndex then .moving b else .idle } f e := by
  obtain ⟨rfl, hf, hreading, hcur, hassigned⟩ : b = f ∧ f ≤ e ∧ Reading s f ∧
      s.currentRead = some f ∧ s.readAssigned = true := by
    have hok := h.consumer.reader
    rwa [hr] at hok
  have hbusy : s.popCalls ≠ 0 := h.unset.busy (by rw [hr]; nofun)
  refine h.of_reader rfl rfl rfl rfl rfl rfl rfl rfl rfl ?_
    ⟨h.unset.called, h.unset.assigned, fun _ => hbusy⟩
  by_cases hw : (s.heap b).written s.readIndex = true
  · rw [if_pos hw]
    exact ⟨rfl, hf, ⟨hreading.length, hreading.lt⟩, hcur, hassigned, hw⟩
  · rw [if_neg hw]
    refine ⟨⟨hreading.length, hreading.lt⟩, ?_, fun _ => .inl ⟨hcur, hf⟩⟩
    intro hnot
    rw [show s.readAssigned = false from hnot] at hassigned
    cases hassigned

omit [DecidableEq τ] in
/-- A line leaves the slot that the consumer reads. -/
theorem Content.move (h : Content s) (hreading : Reading s b)
    (hw : (s.heap b).written s.readIndex = true) (hhistory : u.history = s.history)
    (hpopped : u.popped = s.popped ++ [l]) (hmark : ∀ d, (u.heap d).written = (s.heap d).written)
    (hitems : ∀ d j, (d ≠ b ∨ j ≠ s.readIndex) → (u.heap d).items j = (s.heap d).items j) :
    Content u := by
  have hlen : u.popped.length = ticket b s.readIndex + 1 := by
    rw [hpopped, List.length_append, hreading.length, List.length_singleton]
  refine ⟨fun d j hwd => ?_, fun d j hwd hopen => ?_, fun d j hj hlt => ?_⟩
  · rw [hmark] at hwd
    rw [hhistory]
    exact h.lt d j hwd
  · rw [hmark] at hwd
    rw [hlen] at hopen
    have hne : d ≠ b ∨ j ≠ s.readIndex := by
      by_contra hsame
      rw [not_or, not_not, not_not] at hsame
      rw [hsame.1, hsame.2] at hopen
      omega
    rw [hitems d j hne, hhistory]
    refine h.items d j hwd ?_
    rw [hreading.length]
    omega
  · rw [hlen] at hlt
    rw [hmark]
    rcases Nat.lt_succ_iff_lt_or_eq.mp hlt with hlt | heq
    · refine h.popped d j hj ?_
      rw [hreading.length]
      exact hlt
    · obtain ⟨rfl, rfl⟩ := ticket_inj hj hreading.lt heq
      exact hw

/-- The item that is moved from is the next line. -/
theorem Inv.item (h : Inv s f e) (hr : s.reader = .moving b) :
    ∃ l, (s.heap b).items s.readIndex = some l ∧
      s.history.claimed[s.popped.length]? = some l := by
  obtain ⟨rfl, -, hreading, -, -, hw⟩ : b = f ∧ f ≤ e ∧ Reading s f ∧ s.currentRead = some f ∧
      s.readAssigned = true ∧ (s.heap f).written s.readIndex = true := by
    have hok := h.consumer.reader
    rwa [hr] at hok
  have hitem := h.content.items b _ hw hreading.length.le
  obtain ⟨-, hlt⟩ := h.content.lt b _ hw
  rw [← hreading.length] at hitem hlt
  exact ⟨_, hitem.trans (List.getElem?_eq_getElem hlt), List.getElem?_eq_getElem hlt⟩

theorem Inv.move (h : Inv s f e) (hr : s.reader = .moving b)
    (hitem : (s.heap b).items s.readIndex = some l) : Inv (s.move b l) f e := by
  obtain ⟨m, hm, hnext⟩ := h.item hr
  obtain rfl := Option.some.inj (hitem.symm.trans hm)
  obtain ⟨rfl, hf, hreading, hcur, hassigned, hw⟩ : b = f ∧ f ≤ e ∧ Reading s f ∧
      s.currentRead = some f ∧ s.readAssigned = true ∧ (s.heap f).written s.readIndex = true := by
    have hok := h.consumer.reader
    rwa [hr] at hok
  have hbusy : s.popCalls ≠ 0 := h.unset.busy (by rw [hr]; nofun)
  have hadd : Word.add 32 s.readIndex 1 = s.readIndex + 1 :=
    Word.add_of_lt (by have := size_lt; have := hreading.lt; omega)
  obtain ⟨u, hu⟩ : ∃ u, s.move b l = u := ⟨_, rfl⟩
  rw [hu]
  have hcalls : u.calls = s.calls := hu ▸ s.move_calls b l
  have hhistory : u.history = s.history := hu ▸ s.move_history b l
  have hindex : u.writeIndex = s.writeIndex := hu ▸ s.move_writeIndex b l
  have hallocated : u.allocated = s.allocated := hu ▸ s.move_allocated b l
  have hcurrent : u.currentWrite = s.currentWrite := hu ▸ s.move_currentWrite b l
  have hbuffers : u.buffers = s.buffers := hu ▸ s.move_buffers b l
  have hlive : u.live = s.live := hu ▸ s.move_live b l
  have hpopped : u.popped = s.popped ++ [l] := hu ▸ s.move_popped b l
  have hunset : u.readUnset = s.readUnset := hu ▸ s.move_readUnset b l
  have hset : u.readAssigned = s.readAssigned := hu ▸ s.move_readAssigned b l
  have hpopCalls : u.popCalls = s.popCalls := hu ▸ s.move_popCalls b l
  have hheap : u.heap = Function.update s.heap b ((s.heap b).moveOut s.readIndex) :=
    hu ▸ s.move_heap b l
  have hreader := s.move_reader b l
  have hreadIndex := s.move_readIndex b l
  have hcurrentRead := s.move_currentRead b l
  rw [hu, hadd] at hreader hreadIndex hcurrentRead
  have hext : s.history.claimed <+: u.history.claimed := by rw [hhistory]
  have hlen : u.popped.length = ticket b (s.readIndex + 1) := by
    rw [hpopped, List.length_append, hreading.length]
    exact ticket_add_one
  have hmark : ∀ d, (u.heap d).written = (s.heap d).written := by
    intro d
    rw [hheap]
    apply field_update Buffer.written
    rfl
  have hcount : ∀ d, (u.heap d).count = (s.heap d).count := by
    intro d
    rw [hheap]
    apply field_update Buffer.count
    rfl
  have hitems : ∀ d j, (d ≠ b ∨ j ≠ s.readIndex) → (u.heap d).items j = (s.heap d).items j := by
    intro d j hne
    rw [hheap]
    exact entry_update Buffer.items (fun j hj => Function.update_of_ne hj _ _) hne
  have hwritten : ∀ d j, (s.heap d).written j = true → (u.heap d).written j = true := by
    intro d j hwd
    rw [hmark]
    exact hwd
  refine ⟨?_, h.journal.frame hcalls hhistory hwritten,
    h.content.move hreading hw hhistory hpopped hmark hitems,
    ⟨?_, ?_, hbuffers.trans h.consumer.buffers, h.consumer.le, ?_, ?_⟩, ⟨?_, ?_, ?_⟩⟩
  · refine h.producers.frame hcalls hhistory hindex hcount hallocated hcurrent ?_
    intro p
    refine (h.producers.ok p).frame hext hwritten ?_ (fun _ => hcount e) ?_
    · intro j _ hfree
      -- the slot that is read is marked, that of the producer is not
      have hne := (ne_of_written hw hfree).imp Ne.symm Ne.symm
      rw [hmark]
      exact ⟨hfree, hitems e j hne⟩
    · intro _
      rw [hheap, Function.update_of_ne (by omega)]
  · rw [hpopped, hhistory, List.length_append, List.length_singleton, List.take_add_one,
      ← h.consumer.order, hnext]
    rfl
  · by_cases hlast : s.readIndex + 1 = Buffer.size
    · rw [if_pos hlast] at hreader hreadIndex hcurrentRead
      rw [hreader]
      refine ⟨hf, ?_, hreadIndex, hcurrentRead, hset.trans hassigned⟩
      rw [hlen, hlast, ticket_size]
    · rw [if_neg hlast] at hreader hreadIndex hcurrentRead
      rw [hreader]
      refine ⟨⟨?_, ?_⟩, ?_, fun _ => .inl ⟨hcurrentRead.trans hcur, hf⟩⟩
      · rw [hlen, hreadIndex]
      · have hlt := hreading.lt
        omega
      · intro hnot
        rw [hset, hassigned] at hnot
        cases hnot
  · intro hfe
    rw [hcount]
    exact h.consumer.full hfe
  · intro d
    rw [hlive, hallocated]
    exact h.consumer.live d
  · rw [hunset, hpopCalls]
    exact h.unset.called
  · rw [hset, hpopCalls]
    exact h.unset.assigned
  · rw [hpopCalls]
    exact fun _ => hbusy

/-- The consumer pops a buffer whose slots are all counted. -/
theorem Inv.retire {rest : List ℕ} (h : Inv s f e) (hr : s.reader = .retiring)
    (hb : s.buffers = b :: rest) (hfull : (s.heap b).count = Buffer.size) :
    Inv (s.retire b rest) (f + 1) e := by
  obtain ⟨hf, hlen, hzero, hcur, hassigned⟩ : f ≤ e ∧ s.popped.length = ticket (f + 1) 0 ∧
      s.readIndex = 0 ∧ s.currentRead = none ∧ s.readAssigned = true := by
    have hok := h.consumer.reader
    rwa [hr] at hok
  have hbuffers := h.consumer.buffers
  have hsub : e + 1 - f = e + 1 - (f + 1) + 1 := by omega
  rw [hb, hsub, List.range'_succ] at hbuffers
  obtain ⟨rfl, hrest⟩ := List.cons.inj hbuffers
  have hwritten : ∀ d j, (s.heap d).written j = true → (s.heap d).written j = true :=
    fun _ _ hw => hw
  refine ⟨?_, h.journal.frame rfl rfl hwritten, ?_, ⟨h.consumer.order, ?_, hrest, ?_, ?_, ?_⟩,
    ⟨h.unset.called, h.unset.assigned, ?_⟩⟩
  · refine h.producers.frame rfl rfl rfl (fun _ => rfl) rfl rfl ?_
    intro p
    exact (h.producers.ok p).congr List.prefix_rfl rfl
  · exact h.content.frame List.prefix_rfl rfl hwritten fun d j hw => ⟨hw, rfl⟩
  · refine ⟨⟨?_, ?_⟩, fun _ => hzero, fun _ => .inr ⟨hcur, hzero⟩⟩
    · show s.popped.length = ticket (b + 1) s.readIndex
      rw [hlen, hzero]
    · show s.readIndex < Buffer.size
      rw [hzero]
      exact size_pos
  · exact Nat.succ_le_succ hf
  · intro hfe
    obtain rfl := Nat.succ.inj hfe
    exact hfull
  · intro d
    show Function.update s.live b false d = true ↔ b + 1 ≤ d ∧ d < s.allocated
    by_cases hd : d = b
    · rw [hd, Function.update_self]
      simp
    · rw [Function.update_of_ne hd, h.consumer.live d]
      omega
  · intro hbusy
    exact absurd rfl hbusy

end MengSen.Log.QueueBuffer

import MengSen.Log.QueueBufferStep

/-!
# Log.QueueBufferPush — the steps of `push`

Every step of a producer keeps the invariant: a slot is taken, filled, marked, counted; the producer
that counts the last slot allocates the next buffer and publishes it.
-/

namespace MengSen.Log.QueueBuffer

variable {τ α : Type} [DecidableEq τ] {s u : State τ α} {e f b d i j : ℕ} {l m : LogLine τ α}
  {c : Call τ α} {p q : τ} {x : α}

/-! ## Facts about a producer -/

theorem slot_keep (hcalls : u.calls = Function.update s.calls p c) (hslot : c.slot = (s.calls p).slot)
    (q : τ) : (u.calls q).slot = (s.calls q).slot := by
  by_cases hq : q = p
  · rw [hq, calls_self hcalls, hslot]
  · rw [calls_of_ne hcalls hq]

omit [DecidableEq τ] in
theorem isSwitching_of_isPublishing (h : c.isPublishing = true) : c.isSwitching = true := by
  cases c <;> simp_all [Call.isPublishing, Call.isSwitching]

omit [DecidableEq τ] in
/-- The lines with an index have their slots in the buffers up to `e`. -/
theorem Producers.claimed_le (h : Producers s e) :
    s.history.claimed.length ≤ ticket (e + 1) 0 := by
  rw [h.length, ← ticket_size]
  exact Nat.add_le_add_left (Nat.min_le_right _ _) _

omit [DecidableEq τ] in
theorem Content.not_written_next (h : Content s) (hprod : Producers s e) :
    (s.heap (e + 1)).written i = false := by
  by_contra hw
  rw [Bool.not_eq_false] at hw
  obtain ⟨-, hlt⟩ := h.lt _ i hw
  have hle := hprod.claimed_le
  unfold ticket at hlt hle
  omega

omit [DecidableEq τ] in
/-- Two producers have different slots. -/
theorem Producers.slot_ne (h : Producers s e) (hp : (s.calls p).slot = some i) (hqp : q ≠ p)
    (hq : (s.calls q).slot = some j) : j ≠ i := by
  rintro rfl
  exact hqp (h.slots.alone q p j hq hp)

/-- A step of a producer that fills no slot that is marked, and does not publish. -/
theorem Inv.of_producer (h : Inv s f e) (hreader : SameReader s u)
    (hbuffers : u.buffers = s.buffers) (hlive : u.live = s.live)
    (hallocated : u.allocated = s.allocated)
    (hclaimed : s.history.claimed <+: u.history.claimed)
    (hwritten : ∀ b i, (s.heap b).written i = true → (u.heap b).written i = true)
    (hfull : (s.heap e).count = Buffer.size → (u.heap e).count = Buffer.size)
    (hprod : Producers u e) (hjournal : Journal u) (hcontent : Content u) : Inv u f e where
  producers := hprod
  journal := hjournal
  content := hcontent
  consumer := h.consumer.frame hreader hclaimed hwritten hfull hbuffers hlive hallocated
  unset := h.unset.frame hreader

/-- A step of a producer that leaves the buffers alone. -/
theorem Inv.of_control (h : Inv s f e) (hreader : SameReader s u)
    (hbuffers : u.buffers = s.buffers) (hlive : u.live = s.live)
    (hallocated : u.allocated = s.allocated) (hheap : u.heap = s.heap)
    (hclaimed : s.history.claimed <+: u.history.claimed)
    (hprod : Producers u e) (hjournal : Journal u) : Inv u f e := by
  have hwritten : ∀ b i, (s.heap b).written i = true → (u.heap b).written i = true := by
    intro b i hw
    rw [hheap]
    exact hw
  refine h.of_producer hreader hbuffers hlive hallocated hclaimed hwritten ?_ hprod hjournal ?_
  · intro hfull
    rw [hheap]
    exact hfull
  · refine h.content.frame hclaimed hreader.popped hwritten ?_
    intro b i hw
    rw [hheap] at hw ⊢
    exact ⟨hw, rfl⟩

/-! ## The steps that take an index -/

theorem Inv.call (h : Inv s f e) (hp : s.calls p = .idle) :
    Inv { s.setCall p (.entered (s.history.line p x)) with history := s.history.call p x } f e := by
  obtain ⟨l, hl⟩ : ∃ l, s.history.line p x = l := ⟨_, rfl⟩
  have hcalls : (s.setCall p (.entered l)).calls = Function.update s.calls p (.entered l) := rfl
  rw [hl]
  refine h.of_control ⟨rfl, rfl, rfl, rfl, rfl, rfl, rfl⟩ rfl rfl rfl rfl List.prefix_rfl ?_
    ⟨?_, ?_⟩
  · refine h.producers.update hcalls ?_ h.producers.length (fun _ _ => rfl) ?_ ?_ rfl rfl ?_ trivial
    · exact h.producers.slots.congr (slot_keep hcalls (by rw [hp]; rfl))
    · intro hnew
      cases hnew
    · rw [hp]
      rfl
    · intro q _
      exact (h.producers.ok q).congr List.prefix_rfl rfl
  · have hlegal := h.journal.legal.call (x := x) (p := p) (by rw [hp]; rfl)
    rw [hl] at hlegal
    exact (calls_update Call.waiting hcalls).symm ▸ hlegal
  · intro q m hm hreturned
    replace hm : m ∈ Function.update s.history.calls p (s.history.calls p ++ [l]) q := hl ▸ hm
    replace hreturned : (Function.update s.calls p (.entered l) q).line ≠ some m := hreturned
    have hold : m ∈ s.history.calls q ∧ (s.calls q).line ≠ some m := by
      by_cases hq : q = p
      · subst hq
        rw [Function.update_self] at hm hreturned
        refine ⟨?_, by rw [hp]; nofun⟩
        rcases List.mem_append.mp hm with hm | hm
        · exact hm
        · rw [List.mem_singleton.mp hm] at hreturned
          exact absurd rfl hreturned
      · rw [Function.update_of_ne hq] at hm hreturned
        exact ⟨hm, hreturned⟩
    exact (h.journal.returned q m hold.1 hold.2).mono List.prefix_rfl fun _ _ hw => hw

/-- The producer gets the next slot. -/
theorem Inv.fetchAddIndex (h : Inv s f e) (hp : s.calls p = .entered l)
    (hlt : s.writeIndex < Buffer.size) :
    Inv { s.setCall p (.indexed s.writeIndex l) with
      writeIndex := Word.add 32 s.writeIndex 1, history := s.history.claim l } f e := by
  have hcalls : (s.setCall p (.indexed s.writeIndex l)).calls =
      Function.update s.calls p (.indexed s.writeIndex l) := rfl
  have hadd : Word.add 32 s.writeIndex 1 = s.writeIndex + 1 :=
    Word.add_of_lt (by have := size_lt; omega)
  have hlength : s.history.claimed.length = ticket e s.writeIndex := by
    rw [h.producers.length, Nat.min_eq_left (Nat.le_of_lt hlt)]
  have hext : s.history.claimed <+: s.history.claimed ++ [l] := List.prefix_append _ _
  rw [hadd]
  refine h.of_control ⟨rfl, rfl, rfl, rfl, rfl, rfl, rfl⟩ rfl rfl rfl rfl hext ?_ ⟨?_, ?_⟩
  · refine h.producers.update hcalls ?_ ?_ (fun _ _ => rfl) ?_ ?_ rfl rfl ?_ ⟨⟨hlt, ?_⟩, ?_⟩
    · exact (calls_update Call.slot hcalls).symm ▸
        h.producers.slots.take (by rw [hp]; rfl) hlt
    · show (s.history.claimed ++ [l]).length = ticket e (min (s.writeIndex + 1) Buffer.size)
      rw [List.length_append, hlength, Nat.min_eq_left hlt]
      exact ticket_add_one
    · intro hnew
      cases hnew
    · rw [hp]
      rfl
    · intro q _
      exact (h.producers.ok q).congr hext rfl
    · show (s.history.claimed ++ [l])[ticket e s.writeIndex]? = some l
      rw [← hlength]
      exact List.getElem?_concat_length
    · by_contra hw
      rw [Bool.not_eq_false] at hw
      have hold := (h.content.lt e _ hw).2
      omega
  · exact (calls_update Call.waiting hcalls).symm ▸
      h.journal.legal.claim (p := p) (l := l) (by rw [hp]; rfl)
  · intro q m hm hreturned
    refine (h.journal.returned q m hm ?_).mono hext fun _ _ hw => hw
    by_cases hq : q = p
    · subst hq
      rw [calls_self hcalls] at hreturned
      rw [hp]
      exact hreturned
    · rwa [calls_of_ne hcalls hq] at hreturned

/-- The producer finds no slot left. -/
theorem Inv.fetchAddIndex_full (h : Inv s f e) (hp : s.calls p = .entered l)
    (hge : Buffer.size ≤ s.writeIndex) (hwrap : s.writeIndex + 1 < 2 ^ 32) :
    Inv { s.setCall p (.spinning l) with writeIndex := Word.add 32 s.writeIndex 1 } f e := by
  have hcalls : (s.setCall p (.spinning l)).calls = Function.update s.calls p (.spinning l) := rfl
  rw [Word.add_of_lt hwrap]
  refine h.of_control ⟨rfl, rfl, rfl, rfl, rfl, rfl, rfl⟩ rfl rfl rfl rfl List.prefix_rfl ?_ ?_
  · refine h.producers.update hcalls ?_ ?_ (fun _ _ => rfl) ?_ ?_ rfl rfl ?_ trivial
    · exact (h.producers.slots.pass hge).congr (slot_keep hcalls (by rw [hp]; rfl))
    · show s.history.claimed.length = ticket e (min (s.writeIndex + 1) Buffer.size)
      rw [h.producers.length, Nat.min_eq_right hge, Nat.min_eq_right (Nat.le_succ_of_le hge)]
    · intro hnew
      cases hnew
    · rw [hp]
      rfl
    · intro q _
      exact (h.producers.ok q).congr List.prefix_rfl rfl
  · exact h.journal.keep hcalls rfl (by rw [hp]; rfl) (by rw [hp]; rfl) fun _ _ hw => hw

/-- A statement of the producer that changes nothing but where it is. -/
theorem Inv.advance (h : Inv s f e) (hslot : c.slot = (s.calls p).slot)
    (hwaiting : c.waiting = (s.calls p).waiting) (hline : c.line = (s.calls p).line)
    (hswitching : c.isSwitching = false) (hpublishing : (s.calls p).isPublishing = false)
    (hc : c.Ok s e) : Inv (s.setCall p c) f e := by
  have hcalls : (s.setCall p c).calls = Function.update s.calls p c := rfl
  have hnot : c.isPublishing = false := by
    by_contra hpub
    rw [Bool.not_eq_false] at hpub
    rw [isSwitching_of_isPublishing hpub] at hswitching
    cases hswitching
  refine h.of_control ⟨rfl, rfl, rfl, rfl, rfl, rfl, rfl⟩ rfl rfl rfl rfl List.prefix_rfl ?_ ?_
  · refine h.producers.update hcalls ?_ h.producers.length (fun _ _ => rfl) ?_ ?_ rfl rfl ?_ ?_
    · exact h.producers.slots.congr (slot_keep hcalls hslot)
    · intro hnew
      rw [hswitching] at hnew
      cases hnew
    · rw [hnot, hpublishing]
    · intro q _
      exact (h.producers.ok q).congr List.prefix_rfl rfl
    · exact hc.congr List.prefix_rfl rfl
  · exact h.journal.keep hcalls rfl hwaiting hline fun _ _ hw => hw

theorem Inv.retry (h : Inv s f e) (hp : s.calls p = .spinning l) :
    Inv (s.setCall p (.entered l)) f e :=
  h.advance (by rw [hp]; rfl) (by rw [hp]; rfl) (by rw [hp]; rfl) rfl (by rw [hp]; rfl) trivial

/-- The buffer that the producer loads is that of its slot. -/
theorem Inv.loadBuffer (h : Inv s f e) (hp : s.calls p = .indexed i l)
    (hb : s.currentWrite = some b) : Inv (s.setCall p (.placing b i l)) f e := by
  have hok := h.producers.ok p
  rw [hp] at hok
  have heq : b = e := by
    obtain ⟨d, hd, hallocated⟩ := h.producers.current
    obtain rfl := Option.some.inj (hb.symm.trans hd)
    rcases h.producers.allocated with ⟨hold, -⟩ | ⟨-, q, hq⟩
    · omega
    · have hnot := h.producers.not_switching (i := i) (by rw [hp]; rfl) q
      rw [isSwitching_of_isPublishing hq] at hnot
      cases hnot
  exact h.advance (by rw [hp]; rfl) (by rw [hp]; rfl) (by rw [hp]; rfl) rfl (by rw [hp]; rfl)
    ⟨heq, hok⟩

/-! ## The steps that fill the slot -/

theorem Inv.place (h : Inv s f e) (hp : s.calls p = .placing b i l) :
    Inv ((s.setBuffer b ((s.heap b).place i l)).setCall p (.storing b i l)) f e := by
  obtain ⟨rfl, howns, hfree⟩ : b = e ∧ Owns s e i l ∧ (s.heap e).written i = false := by
    have hok := h.producers.ok p
    rwa [hp] at hok
  obtain ⟨u, hu⟩ : ∃ u, (s.setBuffer b ((s.heap b).place i l)).setCall p (.storing b i l) = u :=
    ⟨_, rfl⟩
  have hcalls : u.calls = Function.update s.calls p (.storing b i l) := hu ▸ rfl
  have hheap : u.heap = Function.update s.heap b ((s.heap b).place i l) := hu ▸ rfl
  have hhistory : u.history = s.history := hu ▸ rfl
  have hindex : u.writeIndex = s.writeIndex := hu ▸ rfl
  have hext : s.history.claimed <+: u.history.claimed := by rw [hhistory]
  have hslot : (s.calls p).slot = some i := by rw [hp]; rfl
  have hmark : ∀ d j, (u.heap d).written j = (s.heap d).written j := by
    intro d j
    rw [hheap]
    apply field_update (fun B => B.written j)
    rfl
  have hcount : ∀ d, (u.heap d).count = (s.heap d).count := by
    intro d
    rw [hheap]
    apply field_update Buffer.count
    rfl
  have hitems : ∀ d j, (d ≠ b ∨ j ≠ i) → (u.heap d).items j = (s.heap d).items j := by
    intro d j hne
    rw [hheap]
    exact entry_update Buffer.items (fun j hj => Function.update_of_ne hj _ _) hne
  have hitem : (u.heap b).items i = some l := by
    rw [hheap, Function.update_self]
    exact Function.update_self ..
  have hwritten : ∀ d j, (s.heap d).written j = true → (u.heap d).written j = true := by
    intro d j hw
    rw [hmark]
    exact hw
  rw [hu]
  refine h.of_producer (hu ▸ ⟨rfl, rfl, rfl, rfl, rfl, rfl, rfl⟩) (hu ▸ rfl) (hu ▸ rfl) (hu ▸ rfl)
    hext hwritten (hcount b).trans ?_ ?_ ?_
  · refine h.producers.update hcalls ?_ ?_ (fun d _ => hcount d) ?_ ?_ (hu ▸ rfl) (hu ▸ rfl) ?_ ?_
    · rw [hindex, hcount b]
      exact h.producers.slots.congr (slot_keep hcalls hslot.symm)
    · rw [hhistory, hindex]
      exact h.producers.length
    · intro hnew
      cases hnew
    · rw [hp]
      rfl
    · intro q hq
      refine (h.producers.ok q).frame hext hwritten ?_ (fun _ => hcount b) ?_
      · intro j hj hw
        exact ⟨(hmark b j).trans hw, hitems b j (.inr (h.producers.slot_ne hslot hq hj))⟩
      · intro _
        rw [hheap, Function.update_of_ne (Nat.succ_ne_self b)]
    · exact ⟨rfl, howns.mono hext, (hmark b i).trans hfree, hitem⟩
  · exact h.journal.keep hcalls hhistory (by rw [hp]; rfl) (by rw [hp]; rfl) hwritten
  · refine h.content.frame hext (hu ▸ rfl) hwritten ?_
    intro d j hw
    rw [hmark] at hw
    exact ⟨hw, hitems d j (ne_of_written hw hfree)⟩

theorem Inv.store (h : Inv s f e) (hp : s.calls p = .storing b i l) :
    Inv ((s.setBuffer b ((s.heap b).store i)).setCall p (.counting b i l)) f e := by
  obtain ⟨rfl, howns, hfree, hitem⟩ : b = e ∧ Owns s e i l ∧ (s.heap e).written i = false ∧
      (s.heap e).items i = some l := by
    have hok := h.producers.ok p
    rwa [hp] at hok
  obtain ⟨u, hu⟩ : ∃ u, (s.setBuffer b ((s.heap b).store i)).setCall p (.counting b i l) = u :=
    ⟨_, rfl⟩
  have hcalls : u.calls = Function.update s.calls p (.counting b i l) := hu ▸ rfl
  have hheap : u.heap = Function.update s.heap b ((s.heap b).store i) := hu ▸ rfl
  have hhistory : u.history = s.history := hu ▸ rfl
  have hindex : u.writeIndex = s.writeIndex := hu ▸ rfl
  have hpopped : u.popped = s.popped := hu ▸ rfl
  have hext : s.history.claimed <+: u.history.claimed := by rw [hhistory]
  have hslot : (s.calls p).slot = some i := by rw [hp]; rfl
  have hitems : ∀ d, (u.heap d).items = (s.heap d).items := by
    intro d
    rw [hheap]
    apply field_update Buffer.items
    rfl
  have hcount : ∀ d, (u.heap d).count = (s.heap d).count := by
    intro d
    rw [hheap]
    apply field_update Buffer.count
    rfl
  have hmark : ∀ d j, (d ≠ b ∨ j ≠ i) → (u.heap d).written j = (s.heap d).written j := by
    intro d j hne
    rw [hheap]
    exact entry_update Buffer.written (fun j hj => Function.update_of_ne hj _ _) hne
  have hnew : (u.heap b).written i = true := by
    rw [hheap, Function.update_self]
    exact Function.update_self ..
  have hwritten : ∀ d j, (s.heap d).written j = true → (u.heap d).written j = true := by
    intro d j hw
    rw [hmark d j (ne_of_written hw hfree)]
    exact hw
  rw [hu]
  refine h.of_producer (hu ▸ ⟨rfl, rfl, rfl, rfl, rfl, rfl, rfl⟩) (hu ▸ rfl) (hu ▸ rfl) (hu ▸ rfl)
    hext hwritten (hcount b).trans ?_ ?_ ⟨?_, ?_, ?_⟩
  · refine h.producers.update hcalls ?_ ?_ (fun d _ => hcount d) ?_ ?_ (hu ▸ rfl) (hu ▸ rfl) ?_ ?_
    · rw [hindex, hcount b]
      exact h.producers.slots.congr (slot_keep hcalls hslot.symm)
    · rw [hhistory, hindex]
      exact h.producers.length
    · intro hsw
      cases hsw
    · rw [hp]
      rfl
    · intro q hq
      refine (h.producers.ok q).frame hext hwritten ?_ (fun _ => hcount b) ?_
      · intro j hj hw
        refine ⟨?_, congrFun (hitems b) j⟩
        rw [hmark b j (.inr (h.producers.slot_ne hslot hq hj))]
        exact hw
      · intro _
        rw [hheap, Function.update_of_ne (Nat.succ_ne_self b)]
    · exact ⟨rfl, howns.mono hext, hnew⟩
  · exact h.journal.keep hcalls hhistory (by rw [hp]; rfl) (by rw [hp]; rfl) hwritten
  · intro d j hw
    rw [hhistory]
    by_cases hne : d ≠ b ∨ j ≠ i
    · rw [hmark d j hne] at hw
      exact h.content.lt d j hw
    · rw [not_or, not_not, not_not] at hne
      rw [hne.1, hne.2]
      exact ⟨howns.lt, (List.getElem?_eq_some_iff.mp howns.line).1⟩
  · intro d j hw hopen
    rw [hhistory, hitems]
    rw [hpopped] at hopen
    by_cases hne : d ≠ b ∨ j ≠ i
    · rw [hmark d j hne] at hw
      exact h.content.items d j hw hopen
    · rw [not_or, not_not, not_not] at hne
      rw [hne.1, hne.2, hitem, howns.line]
  · intro d j hj hlt
    rw [hpopped] at hlt
    exact hwritten d j (h.content.popped d j hj hlt)

/-- The producer counts its slot, and returns or switches. -/
theorem Inv.fetchAddCount (h : Inv s f e) (hp : s.calls p = .counting b i l) :
    Inv ((s.setBuffer b (s.heap b).fetchAdd).setCall p
      (if (s.heap b).fetchAdd.count = Buffer.size then .switching l else .idle)) f e := by
  obtain ⟨rfl, howns, hw⟩ : b = e ∧ Owns s e i l ∧ (s.heap e).written i = true := by
    have hok := h.producers.ok p
    rwa [hp] at hok
  have hslot : (s.calls p).slot = some i := by rw [hp]; rfl
  have hlt := h.producers.slots.count_lt hslot
  have hadd : (s.heap b).fetchAdd.count = (s.heap b).count + 1 :=
    Word.add_of_lt (by have := size_lt; omega)
  obtain ⟨c, hc⟩ : ∃ c, (if (s.heap b).fetchAdd.count = Buffer.size then Call.switching l
      else .idle) = c := ⟨_, rfl⟩
  rw [hc]
  obtain ⟨u, hu⟩ : ∃ u, (s.setBuffer b (s.heap b).fetchAdd).setCall p c = u := ⟨_, rfl⟩
  have hcalls : u.calls = Function.update s.calls p c := hu ▸ rfl
  have hheap : u.heap = Function.update s.heap b (s.heap b).fetchAdd := hu ▸ rfl
  have hhistory : u.history = s.history := hu ▸ rfl
  have hindex : u.writeIndex = s.writeIndex := hu ▸ rfl
  have hext : s.history.claimed <+: u.history.claimed := by rw [hhistory]
  have hmark : ∀ d, (u.heap d).written = (s.heap d).written := by
    intro d
    rw [hheap]
    apply field_update Buffer.written
    rfl
  have hitems : ∀ d, (u.heap d).items = (s.heap d).items := by
    intro d
    rw [hheap]
    apply field_update Buffer.items
    rfl
  have hcount : (u.heap b).count = (s.heap b).count + 1 := by
    rw [hheap, Function.update_self, hadd]
  have hwritten : ∀ d j, (s.heap d).written j = true → (u.heap d).written j = true := by
    intro d j hw
    rw [hmark]
    exact hw
  have hline : Written s l := ⟨b, i, howns, hw⟩
  have hnone : c.slot = none := by
    rw [← hc]
    split <;> rfl
  have hpublishing : c.isPublishing = false := by
    rw [← hc]
    split <;> rfl
  rw [hu]
  refine h.of_producer (hu ▸ ⟨rfl, rfl, rfl, rfl, rfl, rfl, rfl⟩) (hu ▸ rfl) (hu ▸ rfl) (hu ▸ rfl)
    hext hwritten (fun hfull => by omega) ?_ ?_ ?_
  · refine h.producers.update hcalls ?_ ?_ ?_ ?_ ?_ (hu ▸ rfl) (hu ▸ rfl) ?_ ?_
    · rw [calls_update Call.slot hcalls, hnone, hindex, hcount]
      exact h.producers.slots.release hslot
    · rw [hhistory, hindex]
      exact h.producers.length
    · intro d hd
      rw [hheap, Function.update_of_ne (Nat.ne_of_lt hd)]
    · intro _
      exact .inr (h.producers.not_switching hslot)
    · rw [hpublishing, hp]
      rfl
    · intro q _
      have hnot := h.producers.not_switching hslot q
      refine (h.producers.ok q).frame hext hwritten ?_ ?_ ?_
      · intro j _ hfree
        rw [hmark, hitems]
        exact ⟨hfree, rfl⟩
      · intro hsw
        rw [hnot] at hsw
        cases hsw
      · intro hpub
        rw [isSwitching_of_isPublishing hpub] at hnot
        cases hnot
    · rw [← hc]
      split
      · next hlast =>
        refine ⟨?_, hline.mono hext hwritten⟩
        rw [hcount, ← hadd, hlast]
      · trivial
  · split at hc
    · subst hc
      exact h.journal.keep hcalls hhistory (by rw [hp]; rfl) (by rw [hp]; rfl) hwritten
    · subst hc
      exact h.journal.finish hcalls hhistory (by rw [hp]; rfl) (by rw [hp]; rfl) hline hwritten
  · refine h.content.frame hext (hu ▸ rfl) hwritten ?_
    intro d j hw
    rw [hmark] at hw
    rw [hitems]
    exact ⟨hw, rfl⟩

/-! ## The steps of `setup_next_write_buffer` -/

omit [DecidableEq τ] in
/-- Only the thread that counted the last slot switches, so that the new buffer is the next one. -/
theorem Producers.allocated_of_switching (h : Producers s e) (hp : s.calls p = .switching l) :
    s.allocated = e + 1 := by
  rcases h.allocated with ⟨hold, -⟩ | ⟨-, q, hq⟩
  · exact hold
  · have hqp := h.one q p (isSwitching_of_isPublishing hq) (by rw [hp]; rfl)
    rw [hqp, hp] at hq
    cases hq

theorem Inv.switch (h : Inv s f e) (hp : s.calls p = .switching l) :
    Inv (s.switch.setCall p (.publishing s.allocated l)) f e := by
  obtain ⟨hfull, hline⟩ : (s.heap e).count = Buffer.size ∧ Written s l := by
    have hok := h.producers.ok p
    rwa [hp] at hok
  have hallocated := h.producers.allocated_of_switching hp
  rw [hallocated]
  obtain ⟨u, hu⟩ : ∃ u, s.switch.setCall p (.publishing (e + 1) l) = u := ⟨_, rfl⟩
  have hcalls : u.calls = Function.update s.calls p (.publishing (e + 1) l) := hu ▸ rfl
  have hheap : u.heap = Function.update s.heap (e + 1) .fresh := by rw [← hu, ← hallocated]; rfl
  have hlive : u.live = Function.update s.live (e + 1) true := by rw [← hu, ← hallocated]; rfl
  have hnew : u.allocated = e + 2 := by
    rw [← hu]
    show s.allocated + 1 = e + 2
    rw [hallocated]
  have hhistory : u.history = s.history := hu ▸ rfl
  have hindex : u.writeIndex = s.writeIndex := hu ▸ rfl
  have hext : s.history.claimed <+: u.history.claimed := by rw [hhistory]
  have hreader : SameReader s u := hu ▸ ⟨rfl, rfl, rfl, rfl, rfl, rfl, rfl⟩
  have hold : ∀ d, d ≠ e + 1 → u.heap d = s.heap d := by
    intro d hd
    rw [hheap, Function.update_of_ne hd]
  have hfresh : u.heap (e + 1) = .fresh := by rw [hheap, Function.update_self]
  have hmark : ∀ d j, (u.heap d).written j = (s.heap d).written j := by
    intro d j
    by_cases hd : d = e + 1
    · rw [hd, hfresh, h.content.not_written_next h.producers]
      rfl
    · rw [hold d hd]
  have hwritten : ∀ d j, (s.heap d).written j = true → (u.heap d).written j = true := by
    intro d j hw
    rw [hmark]
    exact hw
  have hsw : ∀ q, (u.calls q).isSwitching = (s.calls q).isSwitching := by
    intro q
    by_cases hq : q = p
    · rw [hq, calls_self hcalls, hp]
      rfl
    · rw [calls_of_ne hcalls hq]
  have hcurrent : e ≠ e + 1 := (Nat.succ_ne_self e).symm
  rw [hu]
  refine ⟨⟨?_, ?_, ?_, ?_, ?_, ?_, ?_⟩, ?_, ?_, ⟨?_, ?_, ?_, h.consumer.le, ?_, ?_⟩,
    h.unset.frame hreader⟩
  · intro q
    by_cases hq : q = p
    · rw [hq, calls_self hcalls]
      exact ⟨rfl, by rw [hold e hcurrent]; exact hfull, hline.mono hext hwritten, hfresh⟩
    · rw [calls_of_ne hcalls hq]
      refine (h.producers.ok q).frame hext hwritten ?_ ?_ ?_
      · intro j _ hfree
        rw [hold e hcurrent]
        exact ⟨hfree, rfl⟩
      · intro _
        rw [hold e hcurrent]
      · intro hpub
        exact absurd (h.producers.one q p (isSwitching_of_isPublishing hpub) (by rw [hp]; rfl)) hq
  · rw [hindex, hold e hcurrent]
    exact h.producers.slots.congr (slot_keep hcalls (by rw [hp]; rfl))
  · rw [hhistory, hindex]
    exact h.producers.length
  · intro d hd
    rw [hold d (by omega)]
    exact h.producers.older d hd
  · intro q r hq hr
    rw [hsw] at hq hr
    exact h.producers.one q r hq hr
  · exact .inr ⟨hnew, p, by rw [calls_self hcalls]; rfl⟩
  · refine ⟨e + 1, ?_, hnew⟩
    rw [← hu, ← hallocated]
    rfl
  · exact h.journal.keep hcalls hhistory (by rw [hp]; rfl) (by rw [hp]; rfl) hwritten
  · refine h.content.frame hext hreader.popped hwritten ?_
    intro d j hw
    have hd : d ≠ e + 1 := by
      rintro rfl
      rw [hfresh] at hw
      cases hw
    rw [hold d hd] at hw ⊢
    exact ⟨hw, rfl⟩
  · exact order_frame h.consumer.order hreader.popped hext
  · rw [hreader.reader]
    exact h.consumer.reader.frame hreader (Nat.le_refl e) (hwritten f)
  · exact hu ▸ h.consumer.buffers
  · intro hf
    rw [hold e hcurrent]
    exact h.consumer.full hf
  · intro d
    rw [hlive, hnew]
    by_cases hd : d = e + 1
    · have hle := h.consumer.le
      rw [hd, Function.update_self]
      simp only [true_iff]
      omega
    · rw [Function.update_of_ne hd, h.consumer.live d, hallocated]
      omega

/-- While a producer switches, the others have no slot and do not switch. -/
theorem Producers.trivial_of_publishing (h : Producers s e) (hp : s.calls p = .publishing b l)
    (hfull : (s.heap e).count = Buffer.size) (hq : q ≠ p) :
    (s.calls q).isSwitching = false ∧ ∀ t : State τ α, ∀ d, (s.calls q).Ok t d := by
  have hslots := h.slots
  rw [hfull] at hslots
  have hslot := hslots.none_of_full q
  have hsw : (s.calls q).isSwitching = false := by
    by_contra hsw
    rw [Bool.not_eq_false] at hsw
    exact hq (h.one q p hsw (by rw [hp]; rfl))
  refine ⟨hsw, fun t d => ?_⟩
  revert hslot hsw
  cases s.calls q with
  | idle | entered _ | spinning _ => exact fun _ _ => trivial
  | indexed _ _ | placing _ _ _ | storing _ _ _ | counting _ _ _ =>
    intro hslot
    cases hslot
  | switching _ | publishing _ _ =>
    intro _ hsw
    cases hsw

theorem Inv.publish (h : Inv s f e) (hp : s.calls p = .publishing b l) :
    Inv ((s.publish b).setCall p .idle) f (e + 1) := by
  obtain ⟨rfl, hfull, hline, hfresh⟩ : b = e + 1 ∧ (s.heap e).count = Buffer.size ∧ Written s l ∧
      s.heap (e + 1) = .fresh := by
    have hok := h.producers.ok p
    rwa [hp] at hok
  have hcalls : ((s.publish (e + 1)).setCall p .idle).calls = Function.update s.calls p .idle := rfl
  have hreader : SameReader s ((s.publish (e + 1)).setCall p .idle) :=
    ⟨rfl, rfl, rfl, rfl, rfl, rfl, rfl⟩
  have hslots := h.producers.slots
  rw [hfull] at hslots
  have hallocated : s.allocated = e + 2 := by
    rcases h.producers.allocated with ⟨-, hnone⟩ | ⟨heq, -⟩
    · have hpub := hnone p
      rw [hp] at hpub
      cases hpub
    · exact heq
  have hidle : ∀ q, (Function.update s.calls p .idle q).isSwitching = false ∧
      ∀ t : State τ α, ∀ d, (Function.update s.calls p .idle q).Ok t d := by
    intro q
    by_cases hq : q = p
    · rw [hq, Function.update_self]
      exact ⟨rfl, fun _ _ => trivial⟩
    · rw [Function.update_of_ne hq]
      exact h.producers.trivial_of_publishing hp hfull hq
  have hcontrol : ∀ b i, (s.heap b).written i = true → (s.heap b).written i = true := fun _ _ hw => hw
  refine ⟨⟨?_, ?_, ?_, ?_, ?_, ?_, ?_⟩, ?_, ?_, ⟨h.consumer.order, ?_, ?_, ?_, ?_, ?_⟩,
    h.unset.frame hreader⟩
  · intro q
    exact (hidle q).2 _ _
  · show Slots Buffer.size _ 0 (s.heap (e + 1)).count
    rw [hfresh]
    exact hslots.restart.congr (slot_keep hcalls (by rw [hp]; rfl))
  · show s.history.claimed.length = ticket (e + 1) (min 0 Buffer.size)
    rw [h.producers.length, Nat.min_eq_right hslots.le_index_of_full, ticket_size, Nat.zero_min]
  · intro d hd
    rcases Nat.lt_succ_iff_lt_or_eq.mp hd with hd | rfl
    · exact h.producers.older d hd
    · exact hfull
  · intro q r hq
    have hnot : (Function.update s.calls p .idle q).isSwitching = true := hq
    rw [(hidle q).1] at hnot
    cases hnot
  · refine .inl ⟨hallocated, fun q => ?_⟩
    by_contra hpub
    rw [Bool.not_eq_false] at hpub
    have hnot := isSwitching_of_isPublishing hpub
    rw [show ((s.publish (e + 1)).setCall p .idle).calls q = Function.update s.calls p .idle q
      from rfl, (hidle q).1] at hnot
    cases hnot
  · exact h.producers.current
  · exact h.journal.finish hcalls rfl (by rw [hp]; rfl) (by rw [hp]; rfl) hline hcontrol
  · exact h.content.frame List.prefix_rfl rfl hcontrol fun b i hw => ⟨hw, rfl⟩
  · exact h.consumer.reader.frame hreader (Nat.le_succ e) (hcontrol f)
  · have hle := h.consumer.le
    show s.buffers ++ [e + 1] = List.range' f (e + 1 + 1 - f)
    have hsub : e + 1 + 1 - f = e + 1 - f + 1 := by omega
    have hlast : f + (e + 1 - f) = e + 1 := by omega
    rw [h.consumer.buffers, hsub, List.range'_1_concat, hlast]
  · exact Nat.le_succ_of_le h.consumer.le
  · intro hf
    have hle := h.consumer.le
    omega
  · exact h.consumer.live

end MengSen.Log.QueueBuffer

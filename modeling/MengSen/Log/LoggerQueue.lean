import MengSen.Log.LoggerFlush
import MengSen.Log.QueueBufferGuarantee

/-!
# Log.LoggerQueue — the queue as a buffer of the logger

`QueueBuffer` in runs that meet `QueueBuffer.Ok`.  Its `try_pop` takes several statements: the line is
in `logline` before the buffer that held it is popped.
-/

namespace MengSen.Log.QueueBuffer

variable {τ α : Type}

/-- The lines of the calls of `try_pop` that have returned. -/
def out (s : State τ α) : List (LogLine τ α) :=
  if s.reader = .retiring then s.popped.dropLast else s.popped

/-- The result of `try_pop`, where the statement is its last one. -/
def result (s : State τ α) : Action τ α → Option Bool
  | .fetch => if s.buffers.head? = none then some false else none
  | .look =>
    match s.reader with
    | .looking b => if (s.heap b).written s.readIndex then none else some false
    | _ => none
  | .move => if Word.add 32 s.readIndex 1 = Buffer.size then none else some true
  | .retire => some true
  | _ => none

def Action.isPop : Action τ α → Bool
  | .tryPop | .fetch | .look | .move | .retire => true
  | _ => false

variable [DecidableEq τ]

def base (τ α : Type) [DecidableEq τ] (garbage : Option ℕ) : BufferBase τ α where
  State := State τ α
  Action := Action τ α
  Fault := Fault
  machine := machine τ α garbage
  Ok := Ok
  isPop := Action.isPop
  result := result
  out s := (out s).map some
  Returned s := s.history.Returned fun p => (s.calls p).line
  Stored := Stored
  Overwritten _ _ := False

variable {garbage : Option ℕ} {s u : State τ α} {a : Action τ α} {p q : τ} {d : Call τ α}
  {l m : LogLine τ α}

/-! ## The producers -/

theorem line_update (h : (Function.update s.calls p d q).line = some l) :
    q = p ∧ d.line = some l ∨ (s.calls q).line = some l := by
  by_cases hq : q = p
  · subst hq
    rw [Function.update_self] at h
    exact .inl ⟨rfl, h⟩
  · rw [Function.update_of_ne hq] at h
    exact .inr h

/-- A producer that goes on with its line, or has returned. -/
theorem line_next (hd : ∀ m, d.line = some m → (s.calls p).line = some m)
    (h : (Function.update s.calls p d q).line = some l) : (s.calls q).line = some l := by
  rcases line_update h with ⟨rfl, hl⟩ | hold
  · exact hd l hl
  · exact hold

/-- What a step of a producer leaves alone. -/
structure Pushes (s u : State τ α) : Prop where
  popped : u.popped = s.popped
  reader : u.reader = s.reader
  calls : ∀ q, s.history.calls q ⊆ u.history.calls q
  line : ∀ q m, (u.calls q).line = some m → (s.calls q).line = some m ∨ ∃ x, s.history.line q x = m

/-- The producer goes on. -/
theorem Pushes.of_next (hcalls : u.calls = Function.update s.calls p d)
    (hd : ∀ m, d.line = some m → (s.calls p).line = some m) (hpopped : u.popped = s.popped)
    (hreader : u.reader = s.reader) (hhistory : u.history.calls = s.history.calls) : Pushes s u where
  popped := hpopped
  reader := hreader
  calls q := by
    rw [hhistory]
    exact List.Subset.refl _
  line q m hm := by
    rw [hcalls] at hm
    exact .inl (line_next hd hm)

theorem step_push (hs : (machine τ α garbage).Step s a u) (ha : a.isPop = false) : Pushes s u := by
  have hgoes : ∀ {p l}, (s.calls p).line = some l → ∀ m, some l = some m → (s.calls p).line = some m :=
    fun hline m hm => hline.trans hm
  cases effect hs with
  | @call p x hp =>
    refine ⟨rfl, rfl, s.history.subset_call p x, fun q m hm => ?_⟩
    rcases line_update hm with ⟨rfl, hl⟩ | hold
    · exact .inr ⟨x, Option.some.inj hl⟩
    · exact .inl hold
  | fetchAddIndex hp _ | fetchAddIndex_full hp _ | retry hp | loadBuffer hp _ | place hp | store hp
  | switch hp => exact .of_next rfl (hgoes (by rw [hp]; rfl)) rfl rfl rfl
  | @fetchAddCount p b i l hp =>
    refine .of_next rfl (fun m hm => ?_) rfl rfl rfl
    split at hm
    · exact hgoes (by rw [hp]; rfl) m hm
    · cases hm
  | publish hp => exact .of_next rfl (fun m hm => by cases hm) rfl rfl rfl
  | tryPop _ | fetch _ | look _ | move _ _ | retire _ _ => cases ha

/-! ## The consumer -/

/-- A step of `try_pop`: what it puts out fits its result, and it does not return `false` while it holds
a line. -/
structure Pops (s : State τ α) (a : Action τ α) (u : State τ α) : Prop where
  calls : u.calls = s.calls
  history : u.history = s.history
  took : result s a = some true → ∃ l, out u = out s ++ [l]
  same : result s a ≠ some true → out u = out s
  empty : result s a = some false → s.reader ≠ .retiring

omit [DecidableEq τ] in
theorem out_of_ne (h : s.reader ≠ .retiring) : out s = s.popped := if_neg h

theorem step_pop (hreach : (machine τ α garbage).Reach Ok s) (hs : (machine τ α garbage).Step s a u)
    (ha : a.isPop = true) : Pops s a u := by
  cases effect hs with
  | tryPop hr =>
    have hne : s.reader ≠ .retiring := by simp [hr]
    have hnext : s.currentRead.elim Reader.fetching Reader.looking ≠ .retiring := by
      cases s.currentRead <;> simp
    refine ⟨rfl, rfl, fun hres => ?_, fun _ => (out_of_ne hnext).trans (out_of_ne hne).symm,
      fun _ => hne⟩
    cases hres
  | fetch hr =>
    have hne : s.reader ≠ .retiring := by simp [hr]
    have hnext : s.buffers.head?.elim Reader.idle Reader.looking ≠ .retiring := by
      cases s.buffers.head? <;> simp
    have hres : result s .fetch ≠ some true := by
      show (if s.buffers.head? = none then some false else none) ≠ _
      split <;> simp
    exact ⟨rfl, rfl, fun h => absurd h hres, fun _ => (out_of_ne hnext).trans (out_of_ne hne).symm,
      fun _ => hne⟩
  | @look b hr =>
    have hne : s.reader ≠ .retiring := by simp [hr]
    have hnext : (if (s.heap b).written s.readIndex then Reader.moving b else .idle) ≠ .retiring := by
      split <;> simp
    have hres : result s .look ≠ some true := by
      simp only [result, hr]
      split <;> simp
    exact ⟨rfl, rfl, fun h => absurd h hres, fun _ => (out_of_ne hnext).trans (out_of_ne hne).symm,
      fun _ => hne⟩
  | @move b l hr hitem =>
    have hne : s.reader ≠ .retiring := by simp [hr]
    have hout : out s = s.popped := out_of_ne hne
    by_cases hlast : Word.add 32 s.readIndex 1 = Buffer.size
    · rw [State.move, if_pos hlast]
      have hres : result s .move = none := if_pos hlast
      refine ⟨rfl, rfl, fun h => ?_, fun _ => ?_, fun _ => hne⟩
      · rw [hres] at h
        cases h
      · rw [hout]
        exact List.dropLast_concat
    · rw [State.move, if_neg hlast]
      have hres : result s .move = some true := if_neg hlast
      refine ⟨rfl, rfl, fun _ => ⟨l, ?_⟩, fun h => absurd hres h, fun _ => hne⟩
      rw [hout]
      rfl
  | @retire b rest hr hb =>
    obtain ⟨f, e, hi⟩ := reach_inv hreach
    have hok := hi.consumer.reader
    rw [hr] at hok
    obtain ⟨-, hlen, -⟩ := hok
    have hpopped : s.popped ≠ [] := by
      intro hnil
      rw [hnil, ticket, Nat.succ_mul, List.length_nil] at hlen
      have hpos := size_pos
      omega
    have hout : out s = s.popped.dropLast := if_pos hr
    refine ⟨rfl, rfl, fun _ => ⟨s.popped.getLast hpopped, ?_⟩, fun h => absurd rfl h, fun h => ?_⟩
    · rw [hout]
      exact (List.dropLast_append_getLast hpopped).symm
    · cases h
  | call _ | fetchAddIndex _ _ | fetchAddIndex_full _ _ | retry _ | loadBuffer _ _ | place _ | store _
  | fetchAddCount _ | switch _ | publish _ => cases ha

/-! ## The laws -/

/-- **The queue** is a buffer of the logger. -/
theorem base_lawful (garbage : Option ℕ) : (base τ α garbage).Lawful where
  init b hb := by
    obtain rfl := hb
    rfl
  push b a c _ _ hs ha := by
    have hpush := step_push hs ha
    have hout : out c = out b := by
      unfold out
      rw [hpush.reader, hpush.popped]
    exact congrArg (List.map some) hout
  inside b a c hr _ hs ha hres := by
    have hne : result b a ≠ some true := by
      rw [show result b a = none from hres]
      simp
    exact congrArg (List.map some) ((step_pop hr hs ha).same hne)
  took b a c hr _ hs ha hres := by
    obtain ⟨l, hl⟩ := (step_pop hr hs ha).took hres
    refine ⟨some l, ?_⟩
    show (out c).map some = (out b).map some ++ [some l]
    rw [hl, List.map_append]
    rfl
  empty b a c hr _ hs ha hres := by
    have hpop := step_pop hr hs ha
    have hne : result b a ≠ some true := by
      rw [show result b a = some false from hres]
      simp
    refine ⟨congrArg (List.map some) (hpop.same hne), fun l hl => ?_⟩
    obtain ⟨p, hmem, hne⟩ := hl
    obtain ⟨f, e, hi⟩ := reach_inv hr
    rcases hi.guarantee.kept p l hmem hne with hpopped | hstored
    · refine .inl (.inl (List.mem_map_of_mem ?_))
      rw [out_of_ne (hpop.empty hres)]
      exact hpopped
    · exact .inr hstored
  returned b a c hr _ hs l hl := by
    obtain ⟨f, e, hi⟩ := reach_inv hr
    rcases ha : a.isPop with _ | _
    · have hpush := step_push hs ha
      exact hl.mono hi.journal.legal hpush.calls hpush.line
    · have hpop := step_pop hr hs ha
      show c.history.Returned (fun p => (c.calls p).line) l
      rw [hpop.history, hpop.calls]
      exact hl
  overwritten _ _ _ _ _ hl := hl
  enabled b := by
    cases hb : b.reader with
    | idle => exact ⟨.tryPop, rfl, by simp [base, machine, act, hb]⟩
    | fetching => exact ⟨.fetch, rfl, by simp [base, machine, act, hb]⟩
    | looking d => exact ⟨.look, rfl, by simp [base, machine, act, hb]⟩
    | moving d => exact ⟨.move, rfl, by simp [base, machine, act, hb]⟩
    | retiring =>
      refine ⟨.retire, rfl, ?_⟩
      simp only [base, machine, act, hb]
      cases b.buffers <;> simp

/-! ## The end of the last loop -/

/-- The slots of the first `n` lines hold nothing any more. -/
def Cleared (heap : ℕ → Buffer τ α) (n : ℕ) : Prop :=
  ∀ b i, i < Buffer.size → ticket b i < n → (heap b).items i = none

omit [DecidableEq τ] in
theorem Cleared.update {heap : ℕ → Buffer τ α} {n d : ℕ} {B : Buffer τ α} (h : Cleared heap n)
    (hB : ∀ i, i < Buffer.size → ticket d i < n → B.items i = none) :
    Cleared (Function.update heap d B) n := by
  intro b i hi hlt
  by_cases hb : b = d
  · subst hb
    rw [Function.update_self]
    exact hB i hi hlt
  · rw [Function.update_of_ne hb]
    exact h b i hi hlt

/-- **Step lemma**: what was popped is gone, and nothing is put in its place. -/
theorem Cleared.step {f e : ℕ} (h : Cleared s.heap s.popped.length) (hi : Inv s f e)
    (hs : (machine τ α garbage).Step s a u) : Cleared u.heap u.popped.length := by
  cases effect hs with
  | @place p b i l hp =>
    have hok := hi.producers.ok p
    rw [hp] at hok
    obtain ⟨rfl, howns, hfree⟩ := hok
    refine Cleared.update h fun j hj hlt => ?_
    -- the slot of the producer was not popped
    have hne : j ≠ i := by
      rintro rfl
      rw [hi.content.popped b j hj hlt] at hfree
      cases hfree
    show Function.update (s.heap b).items i (some l) j = none
    rw [Function.update_of_ne hne]
    exact h b j hj hlt
  | @store p b i l hp => exact Cleared.update h fun j hj hlt => h b j hj hlt
  | @fetchAddCount p b i l hp => exact Cleared.update h fun j hj hlt => h b j hj hlt
  | switch hp => exact Cleared.update h fun j hj hlt => rfl
  | @move b l hr hitem =>
    have hok := hi.consumer.reader
    rw [hr] at hok
    obtain ⟨rfl, -, hreading, -⟩ := hok
    rw [State.move_heap, State.move_popped, List.length_append, List.length_singleton]
    intro d j hj hlt
    by_cases hlast : ticket d j = s.popped.length
    · -- the slot that is moved from
      obtain ⟨rfl, rfl⟩ := ticket_inj hj hreading.lt (hlast.trans hreading.length)
      rw [Function.update_self]
      exact Function.update_self ..
    · refine Cleared.update h (fun i hi' hlt' => ?_) d j hj (by omega)
      show Function.update (s.heap b).items s.readIndex none i = none
      by_cases hir : i = s.readIndex
      · rw [hir, Function.update_self]
      · rw [Function.update_of_ne hir]
        exact h b i hi' hlt'
  | call _ | fetchAddIndex _ _ | fetchAddIndex_full _ _ | retry _ | loadBuffer _ _ | publish _ | tryPop _
  | fetch _ | look _ | retire _ _ => exact h

theorem cleared (h : (machine τ α garbage).Reach Ok s) : Cleared s.heap s.popped.length := by
  refine Machine.Reach.induct (I := fun s => Cleared s.heap s.popped.length) ?_ ?_ h
  · rintro s rfl b i _ hlt
    exact absurd hlt (Nat.not_lt_zero _)
  · intro s a u hr hc _ hs
    obtain ⟨f, e, hi⟩ := reach_inv hr
    exact hc.step hi hs

/-- No push is under way. -/
def Quiet (s : State τ α) : Prop := ∀ p, s.calls p = .idle

/-- While no push is under way, each line with an index is written. -/
theorem Inv.written_of_quiet {f e n : ℕ} (h : Inv s f e) (hq : Quiet s)
    (hn : n < s.history.claimed.length) :
    ∃ b i, i < Buffer.size ∧ ticket b i = n ∧ (s.heap b).written i = true := by
  obtain ⟨l, hl⟩ : ∃ l, s.history.claimed[n] = l := ⟨_, rfl⟩
  have hmem : l ∈ s.history.calls l.producer := by
    rw [← h.journal.legal.claims l.producer]
    refine List.mem_append_left _ (List.mem_filter.mpr ⟨?_, by simp⟩)
    rw [← hl]
    exact List.getElem_mem hn
  have hreturned : (s.calls l.producer).line ≠ some l := by
    rw [hq]
    simp [Call.line]
  obtain ⟨b, i, howns, hw⟩ := h.journal.returned _ l hmem hreturned
  refine ⟨b, i, howns.lt, ?_, hw⟩
  obtain ⟨hlt, hline⟩ := List.getElem?_eq_some_iff.mp howns.line
  exact (h.journal.legal.nodup_claimed.getElem_inj_iff).mp (hline.trans hl.symm)

/-- **Nothing is left** where `try_pop` finds its slot unwritten and no push is under way. -/
theorem not_stored_of_quiet {b : ℕ} (h : (machine τ α garbage).Reach Ok s) (hq : Quiet s)
    (hreader : s.reader = .looking b) (hw : (s.heap b).written s.readIndex = false) :
    ¬ Stored s l := by
  obtain ⟨f, e, hi⟩ := reach_inv h
  have hok := hi.consumer.reader
  rw [hreader] at hok
  obtain ⟨rfl, -, hreading, -⟩ := hok
  have hall : s.history.claimed.length ≤ s.popped.length := by
    by_contra hlt
    obtain ⟨d, i, hlt', hticket, hwritten⟩ := hi.written_of_quiet hq (Nat.lt_of_not_le hlt)
    obtain ⟨rfl, rfl⟩ := ticket_inj hlt' hreading.lt (hticket.trans hreading.length)
    rw [hwritten] at hw
    cases hw
  rintro ⟨d, -, -, i, hwritten, hitem⟩
  obtain ⟨hlt, hclaimed⟩ := hi.content.lt d i hwritten
  rw [cleared h d i hlt (Nat.lt_of_lt_of_le hclaimed hall)] at hitem
  cases hitem

/-- What the last loop leaves behind in a quiet queue. -/
theorem base_quiet (h : (machine τ α garbage).Reach Ok s) (hres : result s a = some false)
    (hq : Quiet s) : ¬ Stored s l := by
  cases a with
  | fetch =>
    -- there is no buffer
    rintro ⟨b, hb, -⟩
    have hnil : s.buffers = [] := by
      simp only [result] at hres
      split at hres
      · next hhead => exact List.head?_eq_none_iff.mp hhead
      · cases hres
    rw [hnil] at hb
    cases hb
  | look =>
    simp only [result] at hres
    split at hres
    · next b hreader =>
      split at hres
      · cases hres
      · next hw => exact not_stored_of_quiet h hq hreader (Bool.eq_false_iff.mpr hw)
    · cases hres
  | move =>
    simp only [result] at hres
    split at hres
    · cases hres
    · cases hres
  | call | fetchAddIndex | retry | loadBuffer | place | store | fetchAddCount | switch | publish | tryPop
  | retire => cases hres

end MengSen.Log.QueueBuffer

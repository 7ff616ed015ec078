import MengSen.Net.TimerLoopSafe

/-!
# Net.TimerLoopOwned — no timer is lost, and the destructor

`addTimer` allocates a timer in any thread and hands the bare pointer to a functor; `cancelInLoop`,
`reset` and `~TimerQueue` of `net/TimerQueue.cpp` delete it.  `Owner`: the places where the pointer of
a live timer is.  `~EventLoop` destroys the timer queue after the functors: the pointers that they
hold are then gone, and their timers are what is left over (`live_iff_owned`).  The callbacks that
`~TimerQueue` destroys call nothing of the loop, which is destroyed itself.
-/

namespace MengSen

open Machine (anyAction)

/-! ## The destructor -/

namespace TimerQueue

variable {D : Type} {s : State D}

/-- The loop of `~TimerQueue` over `timers_`. -/
def State.deleteAll : List Entry → State D → Except Fault (State D)
  | [], s => .ok s
  | timer :: rest, s => do
    let s ← s.delete timer.timer
    deleteAll rest s

/-- `~TimerQueue`. -/
def State.destroy (s : State D) : Except Fault (State D) := s.deleteAll s.timers.toList

theorem deleteAll_eq {l : List Entry} (hlive : ∀ e ∈ l, s.heap e.timer ≠ none)
    (hnd : (l.map Entry.timer).Nodup) :
    ∃ t, s.deleteAll l = .ok t ∧
      ∀ a, t.heap a = if a ∈ l.map Entry.timer then none else s.heap a := by
  induction l generalizing s with
  | nil => exact ⟨s, rfl, fun a => rfl⟩
  | cons e l ih =>
    rw [List.map_cons, List.nodup_cons] at hnd
    obtain ⟨u, hu⟩ := Option.ne_none_iff_exists'.mp (hlive e List.mem_cons_self)
    have hdelete : s.delete e.timer = .ok { s with heap := Function.update s.heap e.timer none } := by
      rw [State.delete, hu]
    have hrest : ∀ d ∈ l, Function.update s.heap e.timer none d.timer ≠ none := by
      intro d hd
      have hne : d.timer ≠ e.timer := fun heq => hnd.1 (heq ▸ List.mem_map_of_mem hd)
      rw [Function.update_of_ne hne]
      exact hlive d (List.mem_cons_of_mem _ hd)
    obtain ⟨t, ht, heap⟩ := ih (s := { s with heap := Function.update s.heap e.timer none }) hrest hnd.2
    refine ⟨t, ?_, fun a => ?_⟩
    · rw [State.deleteAll, hdelete]
      exact ht
    · rw [heap, List.map_cons]
      by_cases ha : a = e.timer
      · simp [ha]
      · simp [ha]

/-- A timer with an entry has no other one. -/
theorem Owned.nodup_timers (h : Owned s) : (s.timers.toList.map Entry.timer).Nodup := by
  refine s.timers.nodup.map_on fun e he d hd heq => ?_
  obtain ⟨t, ht, hexp, -⟩ := (h.synced.entry_iff e).mp he
  obtain ⟨u, hu, hexp', -⟩ := (h.synced.entry_iff d).mp hd
  rw [heq] at ht
  obtain rfl := Option.some.inj (ht.symm.trans hu)
  cases e
  cases d
  simp_all

/-- Who owns a live timer. -/
theorem Owned.live_iff (h : Owned s) (a : Addr) :
    s.heap a ≠ none ↔ a ∈ s.timers.toList.map Entry.timer ∨ a ∈ s.batch ∨ a ∈ s.unadded := by
  constructor
  · intro hlive
    obtain ⟨t, ht⟩ := Option.ne_none_iff_exists'.mp hlive
    rcases h.owned a t ht with hactive | hun | hbatch
    · have hentry : (⟨t.expiration, a⟩ : Entry) ∈ s.timers :=
        (h.synced.entry_iff _).mpr ⟨t, ht, rfl, hactive⟩
      exact .inl (List.mem_map.mpr ⟨_, hentry, rfl⟩)
    · exact .inr (.inr hun)
    · exact .inr (.inl hbatch)
  · rintro (hentry | hbatch | hun)
    · obtain ⟨e, he, rfl⟩ := List.mem_map.mp hentry
      obtain ⟨t, ht, -⟩ := (h.synced.entry_iff e).mp he
      exact Option.ne_none_iff_exists'.mpr ⟨t, ht⟩
    · obtain ⟨t, ht, -⟩ := h.batch_detached a hbatch
      exact Option.ne_none_iff_exists'.mpr ⟨t, ht⟩
    · obtain ⟨t, ht, -⟩ := h.unadded_detached a hun
      exact Option.ne_none_iff_exists'.mpr ⟨t, ht⟩

theorem Owned.notMem_timers (h : Owned s) {a : Addr} (hd : Detached s a) :
    a ∉ s.timers.toList.map Entry.timer := by
  intro hentry
  obtain ⟨e, he, rfl⟩ := List.mem_map.mp hentry
  obtain ⟨u, hu, hnot⟩ := hd
  obtain ⟨v, hv, -, hactive⟩ := (h.synced.entry_iff e).mp he
  obtain rfl := Option.some.inj (hu.symm.trans hv)
  exact hnot hactive

/-- The destructor deletes every timer once, except those that are not added. -/
theorem Owned.destroy (h : Owned s) (hquiet : s.phase.isQuiet = true) :
    ∃ t, s.destroy = .ok t ∧ ∀ a, t.heap a ≠ none ↔ a ∈ s.unadded := by
  have hlive : ∀ e ∈ s.timers.toList, s.heap e.timer ≠ none := fun e he =>
    (h.live_iff e.timer).mpr (.inl (List.mem_map_of_mem he))
  have hbatch : s.batch = [] := by
    cases hp : s.phase with
    | quiet => rw [State.batch, hp]; rfl
    | running | inCallback => rw [hp] at hquiet; cases hquiet
  obtain ⟨t, ht, heap⟩ := deleteAll_eq hlive h.nodup_timers
  refine ⟨t, ht, fun a => ?_⟩
  rw [heap]
  split
  case isTrue hentry =>
    exact iff_of_false (fun hne => hne rfl) fun hun => h.notMem_timers (h.unadded_detached a hun) hentry
  case isFalse hentry =>
    rw [h.live_iff a, hbatch]
    simp [hentry]

end TimerQueue

/-! ## Timers and threads -/

namespace TimerLoop

variable {D τ : Type} {s t : State D τ}

/-- Where the pointer of a live timer is. -/
inductive Owner (τ : Type)
  | indexes
  | batch
  /-- a functor that is pushed and not called yet -/
  | functor
  /-- a thread in `addTimer` that has not pushed its functor -/
  | thread (t : τ)

def State.Owns (s : State D τ) (a : Addr) : Owner τ → Prop
  | .indexes => a ∈ s.queue.timers.toList.map Entry.timer
  | .batch => a ∈ s.queue.batch
  | .functor => a ∈ adds s.loop.waiting
  | .thread t => ∃ n, s.threads t = .created a n

/-- Each timer that is not added is in `l` or with the thread that has created it. -/
def Covered (unadded l : List Addr) (threads : τ → Thread) : Prop :=
  ∀ a ∈ unadded, a ∈ l ∨ ∃ t n, threads t = .created a n

namespace Covered

variable {unadded l : List Addr} {threads : τ → Thread} {a : Addr} {n : ℕ} {t : τ}

/-- The functor at the front adds its timer. -/
theorem add (h : Covered unadded (a :: l) threads) (hnd : unadded.Nodup) :
    Covered (unadded.erase a) l threads := by
  intro b hb
  obtain ⟨hne, hb⟩ := hnd.mem_erase_iff.mp hb
  exact (h b hb).imp_left fun hin => (List.mem_cons.mp hin).resolve_left hne

variable [DecidableEq τ]

/-- A thread that has no timer to push goes on. -/
theorem leave (h : Covered unadded l threads) (ht : ∀ a n, threads t ≠ .created a n) (x : Thread) :
    Covered unadded l (Function.update threads t x) := by
  intro b hb
  refine (h b hb).imp_right ?_
  rintro ⟨t', n, ht'⟩
  have hne : t' ≠ t := fun heq => ht b n (heq ▸ ht')
  exact ⟨t', n, (Function.update_of_ne hne ..).trans ht'⟩

theorem create (h : Covered unadded l threads) (ht : threads t = .idle) :
    Covered (a :: unadded) l (Function.update threads t (.created a n)) := by
  intro b hb
  rcases List.mem_cons.mp hb with rfl | hb
  · exact .inr ⟨t, n, Function.update_self ..⟩
  · exact h.leave (by simp [ht]) _ b hb

/-- A thread pushes the functor of the timer it has created. -/
theorem push (h : Covered unadded l threads) (ht : threads t = .created a n) :
    Covered unadded (l ++ [a]) (Function.update threads t (.queued a n)) := by
  intro b hb
  rcases h b hb with hin | ⟨t', m, ht'⟩
  · exact .inl (List.mem_append_left _ hin)
  · by_cases heq : t' = t
    · rw [heq, ht] at ht'
      cases ht'
      exact .inl (List.mem_append_right l List.mem_cons_self)
    · exact .inr ⟨t', m, (Function.update_of_ne heq ..).trans ht'⟩

end Covered

variable [Seconds D] [DecidableEq τ]

/-- **Step lemma**: no step loses a pointer. -/
theorem Covered.step {a : Action D τ} (hloop : EventLoop.Inv s.loop)
    (hqueue : TimerQueue.Owned s.queue)
    (h : Covered s.queue.unadded (adds s.loop.waiting) s.threads) (he : Effect s a t) :
    Covered t.queue.unadded (adds t.loop.waiting) t.threads := by
  cases he with
  | loop hmay hl =>
    dsimp only
    rw [hloop.waiting_step hl, adds_of_loopMay hmay]
    exact h
  | @timers a q hmay hq =>
    dsimp only
    rw [(hqueue.cut_step hq).unadded_eq]
    cases a with
    | whole a =>
      cases a with
      | newTimer | addTimerInLoop | cancelInLoop => exact absurd hmay id
      | _ => exact h
    | _ => exact h
  | callAdd hf hl hq hm =>
    rw [hloop.waiting_call hf hl hm] at h
    dsimp only
    rw [(hqueue.cut_step hq).unadded_eq]
    exact h.add hqueue.unadded_nodup
  | callCancel hf hl hq hm =>
    rw [hloop.waiting_call hf hl hm] at h
    dsimp only
    rw [(hqueue.cut_step hq).unadded_eq]
    exact h
  | selfAddTimer hcode hp hq =>
    have hp' := hqueue.cut_step hp
    dsimp only
    rw [((hp'.owned hqueue).cut_step hq).unadded_eq, hp'.unadded_eq, TimerQueue.Cut.Action.unadded,
      TimerQueue.Cut.Action.unadded, TimerQueue.Action.unadded, TimerQueue.Action.unadded,
      List.erase_cons_head]
    exact h
  | selfCancel hcode hq =>
    dsimp only
    rw [(hqueue.cut_step hq).unadded_eq]
    exact h
  | newTimer hidle hq =>
    dsimp only
    rw [(hqueue.cut_step hq).unadded_eq]
    exact h.create hidle.1
  | queueTimer ht hl =>
    dsimp only
    rw [hloop.waiting_step hl, EventLoop.Action.waiting, adds, List.filterMap_append]
    exact h.push ht
  | addTimerReturns ht hidle => exact h.leave (by simp [ht]) _
  | cancel hidle hl =>
    dsimp only
    rw [hloop.waiting_step hl, EventLoop.Action.waiting, adds, List.filterMap_append]
    exact (List.append_nil (adds s.loop.waiting)).symm ▸ h

/-- **Run lemma**: a timer that is not added waits in a functor or is with its thread. -/
theorem reach_covered {ok : State D τ → Action D τ → Prop} (h : (machine D τ).Reach ok s) :
    Covered s.queue.unadded (adds s.loop.waiting) s.threads := by
  refine Machine.Reach.induct (I := fun s => Covered s.queue.unadded (adds s.loop.waiting) s.threads)
    ?_ ?_ h
  · rintro s rfl
    exact nofun
  · intro s a t hr hcov _ hs
    exact hcov.step (EventLoop.reach_inv (reach_loop hr)) (TimerQueue.reach_owned (reach_queue hr))
      (effect_of_step hs)

theorem unadded_iff (h : (machine D τ).Reach anyAction s) (a : Addr) :
    a ∈ s.queue.unadded ↔ a ∈ adds s.loop.waiting ∨ ∃ t n, s.threads t = .created a n := by
  have hplaced := (reach_inPlace h).placed
  refine ⟨reach_covered h a, ?_⟩
  rintro (hin | ⟨t, n, ht⟩)
  · exact hplaced.waiting a hin
  · exact (hplaced.created t a n ht).1

/-- A live timer has one owner. -/
theorem owner_unique (h : (machine D τ).Reach anyAction s) {a : Addr} {o o' : Owner τ}
    (ho : s.Owns a o) (ho' : s.Owns a o') : o = o' := by
  have hqueue := TimerQueue.reach_owned (reach_queue h)
  have hplaced := (reach_inPlace h).placed
  have hfunctor : a ∈ adds s.loop.waiting → a ∈ s.queue.unadded := hplaced.waiting a
  have hthread : ∀ t n, s.threads t = .created a n → a ∈ s.queue.unadded :=
    fun t n ht => (hplaced.created t a n ht).1
  have hindexes : s.Owns a .indexes → a ∉ s.queue.batch ∧ a ∉ s.queue.unadded := fun hin =>
    ⟨fun hb => hqueue.notMem_timers (hqueue.batch_detached a hb) hin,
      fun hun => hqueue.notMem_timers (hqueue.unadded_detached a hun) hin⟩
  have hdisjoint := hqueue.disjoint a
  cases o with
  | indexes =>
    cases o' with
    | indexes => rfl
    | batch => exact absurd ho' (hindexes ho).1
    | functor => exact absurd (hfunctor ho') (hindexes ho).2
    | thread t => exact absurd (hthread t _ ho'.choose_spec) (hindexes ho).2
  | batch =>
    cases o' with
    | indexes => exact absurd ho (hindexes ho').1
    | batch => rfl
    | functor => exact absurd (hfunctor ho') (hdisjoint ho)
    | thread t => exact absurd (hthread t _ ho'.choose_spec) (hdisjoint ho)
  | functor =>
    cases o' with
    | indexes => exact absurd (hfunctor ho) (hindexes ho').2
    | batch => exact absurd (hfunctor ho) (hdisjoint ho')
    | functor => rfl
    | thread t => exact absurd ho (hplaced.created t a _ ho'.choose_spec).2
  | thread t =>
    cases o' with
    | indexes => exact absurd (hthread t _ ho.choose_spec) (hindexes ho').2
    | batch => exact absurd (hthread t _ ho.choose_spec) (hdisjoint ho')
    | functor => exact absurd ho' (hplaced.created t a _ ho.choose_spec).2
    | thread t' => exact congrArg _ (hplaced.distinct t t' a _ _ ho.choose_spec ho'.choose_spec)

/-- **No timer is lost.**  In every interleaving a timer is live exactly while somebody owns it, and
it has one owner.  Outside `loop`, `~EventLoop` deletes no timer twice, and the timers that it leaves
behind are those of the functors that were never called and of the threads that are still in
`addTimer`. -/
theorem live_iff_owned (h : (machine D τ).Reach anyAction s) :
    (∀ a, s.queue.heap a ≠ none ↔ ∃! o, s.Owns a o) ∧
      (s.loop.pc = .outside → ∃ q, s.queue.destroy = .ok q ∧ ∀ a, q.heap a ≠ none ↔
        a ∈ adds s.loop.pendingFunctors ∨ ∃ t n, s.threads t = .created a n) := by
  have hqueue := TimerQueue.reach_owned (reach_queue h)
  refine ⟨fun a => ?_, fun hpc => ?_⟩
  · rw [hqueue.live_iff a, unadded_iff h a]
    constructor
    · intro hlive
      have hex : ∃ o, s.Owns a o := by
        rcases hlive with hin | hin | hin | ⟨t, n, ht⟩
        · exact ⟨.indexes, hin⟩
        · exact ⟨.batch, hin⟩
        · exact ⟨.functor, hin⟩
        · exact ⟨.thread t, n, ht⟩
      obtain ⟨o, ho⟩ := hex
      exact ⟨o, ho, fun o' ho' => owner_unique h ho' ho⟩
    · rintro ⟨o, ho, -⟩
      cases o with
      | indexes => exact .inl ho
      | batch => exact .inr (.inl ho)
      | functor => exact .inr (.inr (.inl ho))
      | thread t => exact .inr (.inr (.inr ⟨t, ho⟩))
  · have hquiet : s.queue.phase.isQuiet = true := by
      by_contra hne
      have hhandling := (reach_inPlace h).handling (by simpa using hne)
      rw [hpc] at hhandling
      cases hhandling
    obtain ⟨q, hq, hlive⟩ := hqueue.destroy hquiet
    have hfunctors : s.loop.functors = [] :=
      (EventLoop.reach_inv (reach_loop h)).drained (by rw [hpc]; rfl)
    refine ⟨q, hq, fun a => ?_⟩
    rw [hlive a, unadded_iff h a, EventLoop.State.waiting, hfunctors, List.nil_append]

/-- The loop thread adds a timer, another thread adds a second one, and the loop is never run. -/
def addedByBoth : List (Action ℕ Bool) :=
  [.selfAddTimer 8 100 1 50, .newTimer true 16 200 0, .queueTimer true, .loop (.wakeup true)]

/-- The second timer is left behind. -/
theorem live_iff_owned_addedByBoth : ∃ s : State ℕ Bool, (machine ℕ Bool).Reach anyAction s ∧
    (∀ a, s.queue.heap a ≠ none ↔ ∃! o, s.Owns a o) ∧
      ∃ q, s.queue.destroy = .ok q ∧ q.heap 16 ≠ none := by
  obtain ⟨s, hs, hpc, hwait⟩ : ∃ s : State ℕ Bool,
      (machine ℕ Bool).exec anyAction init addedByBoth = some s ∧ s.loop.pc = .outside ∧
        s.loop.pendingFunctors = [.addTimerInLoop 16] := ⟨_, rfl, rfl, rfl⟩
  have hr : (machine ℕ Bool).Reach anyAction s := .of_exec (.init rfl) hs
  obtain ⟨hlive, hdestroy⟩ := live_iff_owned hr
  obtain ⟨q, hq, hleft⟩ := hdestroy hpc
  have hmem : 16 ∈ adds s.loop.pendingFunctors := by
    rw [hwait]
    decide
  exact ⟨s, hr, hlive, q, hq, (hleft 16).mpr (.inl hmem)⟩

end TimerLoop

end MengSen

import MengSen.Config.ConfigVar
import MengSen.Lib.Load

/-!
# Config.ConfigVarFromString — a value from a text

`ConfigVar::fromString` and `setValue` of `config/config.cpp`, with one caller and with listeners that
may throw: `setValue` stops at the first that does, after the ones before it were called.  Without a
throw it does what a thread in the machine of `Config.ConfigVar` does (`setValue_exec`).  `fromString`
catches every exception and has one `return`.
-/

namespace MengSen.ConfigVar

variable {T : Type}

/-- `_value`, `_func`, and the calls of listeners so far. -/
structure Var (T : Type) where
  value : T
  func : Listeners
  notices : List (ℕ × T × T)

/-- A listener is called with the old and the new value. -/
def Var.tell (s : Var T) (k : ℕ) (val : T) : Var T :=
  { s with notices := s.notices ++ [(k, s.value, val)] }

/-- Where a `std::exception` comes from. -/
inductive Exn
  | fromStr
  | listener (k : ℕ)

section Model

variable (throws : ℕ → T → T → Bool)

/-- The loop over `_func`. -/
def callListeners (val : T) : List ℕ → Load Exn (Var T) Unit
  | [] => pure ()
  | k :: rest => do
    let s ← get
    modify fun s => s.tell k val
    if throws k s.value val then throw (.listener k)
    callListeners val rest

variable [DecidableEq T]

def setValue (val : T) : Load Exn (Var T) Unit := do
  let s ← get
  if val = s.value then return
  callListeners throws val s.func.keys
  modify fun s => { s with value := val }

/-- `FromStr()(val)`, `none` when it throws. -/
def convert (FromStr : String → Option T) (val : String) : Load Exn (Var T) T :=
  match FromStr val with
  | some v => pure v
  | none => throw .fromStr

/-- `fromString`, with its result: the error is logged, and `return false` follows in either case. -/
def fromString (FromStr : String → Option T) (val : String) (s : Var T) : Bool × Var T :=
  match Load.result (convert FromStr val >>= setValue throws) s with
  | (.ok _, t) => (false, t)
  | (.error _, t) => (false, t)

end Model

/-! ## What is called -/

theorem result_callListeners_cons (throws : ℕ → T → T → Bool) (val : T) (k : ℕ) (rest : List ℕ)
    (s : Var T) : Load.result (callListeners throws val (k :: rest)) s =
      if throws k s.value val then (.error (.listener k), s.tell k val)
      else Load.result (callListeners throws val rest) (s.tell k val) := by
  rw [callListeners]
  show Load.result (ite _ _ _) (s.tell k val) = _
  cases h : throws k s.value val with
  | true => rfl
  | false => rfl

/-- **The loop** calls the listeners in their order, all of them or up to one that throws. -/
theorem callListeners_spec (throws : ℕ → T → T → Bool) (val : T) (keys : List ℕ) (s : Var T) :
    ∃ called, called <+: keys ∧
      (Load.result (callListeners throws val keys) s).2 =
        { s with notices := s.notices ++ called.map fun k => (k, s.value, val) } ∧
      ((Load.result (callListeners throws val keys) s).1 = .ok () ∧ called = keys ∨
        (∃ k, (Load.result (callListeners throws val keys) s).1 = .error (.listener k)) ∧
          called ≠ []) := by
  induction keys generalizing s with
  | nil => exact ⟨[], List.prefix_rfl, by rw [List.map_nil, List.append_nil]; rfl, .inl ⟨rfl, rfl⟩⟩
  | cons k rest ih =>
    rw [result_callListeners_cons]
    by_cases h : throws k s.value val = true
    · rw [if_pos h]
      refine ⟨[k], List.prefix_append [k] rest, rfl, .inr ⟨⟨k, rfl⟩, List.cons_ne_nil _ _⟩⟩
    · rw [if_neg h]
      obtain ⟨called, hprefix, hstate, hout⟩ := ih (s.tell k val)
      refine ⟨k :: called, (List.prefix_cons_inj k).mpr hprefix, ?_, ?_⟩
      · rw [hstate, List.map_cons, ← List.singleton_append, ← List.append_assoc]
        rfl
      · rcases hout with ⟨hok, rfl⟩ | ⟨hstop, -⟩
        · exact .inl ⟨hok, rfl⟩
        · exact .inr ⟨hstop, List.cons_ne_nil _ _⟩

section FromString

variable [DecidableEq T] {throws : ℕ → T → T → Bool} {FromStr : String → Option T} {val : String}
  {s : Var T} {v : T}

theorem setValue_same (h : v = s.value) : Load.result (setValue throws v) s = (.ok (), s) := by
  rw [setValue]
  show Load.result (ite _ _ _) s = _
  rw [if_pos h]
  rfl

/-- The value is assigned when the loop is through. -/
theorem setValue_differs (h : v ≠ s.value) : Load.result (setValue throws v) s =
    match Load.result (callListeners throws v s.func.keys) s with
    | (.ok _, t) => (.ok (), { t with value := v })
    | (.error e, t) => (.error e, t) := by
  rw [setValue]
  show Load.result (ite _ _ _) s = _
  rw [if_neg h, Load.result_bind]
  rcases Load.result (callListeners throws v s.func.keys) s with ⟨_ | _, t⟩ <;> rfl

theorem fromString_throws (h : FromStr val = none) :
    fromString throws FromStr val s = (false, s) := by
  simp only [fromString, convert, h]
  rfl

theorem fromString_converts (h : FromStr val = some v) :
    fromString throws FromStr val s = (false, (Load.result (setValue throws v) s).2) := by
  have hconvert : Load.result (convert FromStr val >>= setValue throws) s =
      Load.result (setValue throws v) s := by
    rw [convert, h]
    rfl
  rw [fromString, hconvert]
  rcases Load.result (setValue throws v) s with ⟨_ | _, t⟩ <;> rfl

/-- The value is converted, stored and told to every listener once, if it differs; or nothing has
happened.  The result says which. -/
def AllOrNothing (FromStr : String → Option T) (val : String) (s : Var T) (r : Bool × Var T) : Prop :=
  (r.1 = true ∧ ∃ v, FromStr val = some v ∧ r.2.value = v ∧ (v ≠ s.value →
    (r.2.notices.drop s.notices.length).Perm (s.func.keys.map fun k => (k, s.value, v)))) ∨
  (r.1 = false ∧ r.2.value = s.value ∧ r.2.notices = s.notices)

/-- **`fromString` is all or nothing exactly when nothing is to be done**: the text does not convert, or
converts to the value that is stored. -/
theorem fromString_allOrNothing_iff (throws : ℕ → T → T → Bool) (FromStr : String → Option T)
    (val : String) (s : Var T) :
    AllOrNothing FromStr val s (fromString throws FromStr val s) ↔
      ∀ v, FromStr val = some v → v = s.value := by
  rcases hconv : FromStr val with _ | v
  · rw [fromString_throws hconv]
    refine iff_of_true (.inr ⟨rfl, rfl, rfl⟩) fun v hv => ?_
    cases hv
  · have hall : (∀ w, some v = some w → w = s.value) ↔ v = s.value :=
      ⟨fun h => h v rfl, fun h w hw => Option.some.inj hw ▸ h⟩
    rw [fromString_converts hconv, hall]
    refine ⟨?_, fun h => ?_⟩
    · rintro (⟨htrue, -⟩ | ⟨-, hvalue, hnotices⟩)
      · cases htrue
      by_contra hne
      -- the loop has told somebody, or is through and the value was assigned
      obtain ⟨called, -, hstate, hout⟩ := callListeners_spec throws v s.func.keys s
      rw [setValue_differs hne] at hvalue hnotices
      rcases hloop : Load.result (callListeners throws v s.func.keys) s with ⟨e | _, t⟩
      · rw [hloop] at hstate hout hnotices
        rcases hout with ⟨hok, -⟩ | ⟨-, hcalled⟩
        · cases hok
        · have htold : t.notices = s.notices ++ called.map fun k => (k, s.value, v) :=
            congrArg Var.notices hstate
          have hnil := List.append_right_eq_self.mp (htold.symm.trans hnotices)
          exact hcalled (List.map_eq_nil_iff.mp hnil)
      · rw [hloop] at hvalue
        exact hne hvalue
    · rw [setValue_same h]
      exact .inr ⟨rfl, rfl, rfl⟩

/-- A port number with one listener. -/
def port : Var ℕ := ⟨80, ⟨[7], 7, List.nodup_singleton 7, fun k hk => by simp_all⟩, []⟩

/-- The conversion of one text. -/
def portOfText (text : String) : Option ℕ := if text = "8080" then some 8080 else none

/-- A new value is stored and told, and the result is false. -/
theorem fromString_stored_says_false :
    (fromString (fun _ _ _ => false) portOfText "8080" port).1 = false ∧
      (fromString (fun _ _ _ => false) portOfText "8080" port).2.value = 8080 ∧
      (fromString (fun _ _ _ => false) portOfText "8080" port).2.notices = [(7, 80, 8080)] ∧
      ¬ AllOrNothing portOfText "8080" port
        (fromString (fun _ _ _ => false) portOfText "8080" port) := by
  refine ⟨rfl, rfl, rfl, ?_⟩
  rintro (⟨htrue, -⟩ | ⟨-, hvalue, -⟩)
  · cases htrue
  · cases hvalue

end FromString

/-! ## The machine -/

section Machine

variable {τ : Type} [DecidableEq τ] [DecidableEq T] {m : State τ T} {t : τ} {v : T}

/-- What a single caller sees of the machine. -/
def State.var (m : State τ T) : Var T := ⟨m.value, m.func, m.notices⟩

/-- The actions of a thread that calls `setValue` with another value. -/
def setValueActions (t : τ) (v : T) (keys : List ℕ) : List (Action τ T) :=
  .call t v :: .compare t :: (keys.map (fun _ => .notify t) ++ [.release t, .assign t])

/-- The rounds of the loop. -/
theorem exec_notify (v₀ : T) (l : Listeners) {old : T} {keys : List ℕ}
    (h : m.calls t = .notifying old v keys) :
    (machine τ T v₀ l).exec Machine.anyAction m (keys.map fun _ => .notify t) = some
      { m with
        calls := Function.update m.calls t (.notifying old v [])
        notices := m.notices ++ keys.map fun k => (k, m.value, v) } := by
  induction keys generalizing m with
  | nil =>
    rw [List.map_nil, List.map_nil, List.append_nil, ← h, Function.update_eq_self]
    rfl
  | cons k rest ih =>
    have hstep : (machine τ T v₀ l).Step m (.notify t)
        { m.setCall t (.notifying old v rest) with
          notices := m.notices ++ [(k, m.value, v)] } := by
      show act m (.notify t) = _
      simp only [act, h]
    rw [List.map_cons, Machine.exec_cons trivial hstep, ih (Function.update_self ..)]
    simp only [State.setCall, Function.update_idem, List.append_assoc, List.singleton_append,
      List.map_cons]

omit [DecidableEq τ] [DecidableEq T] in
theorem callListeners_quiet (keys : List ℕ) (s : Var T) :
    Load.result (callListeners (fun _ _ _ => false) v keys) s =
      (.ok (), { s with notices := s.notices ++ keys.map fun k => (k, s.value, v) }) := by
  induction keys generalizing s with
  | nil =>
    rw [List.map_nil, List.append_nil]
    rfl
  | cons k rest ih =>
    rw [result_callListeners_cons, if_neg Bool.false_ne_true, ih]
    simp only [Var.tell, List.append_assoc, List.singleton_append, List.map_cons]

/-- **A single caller without a throw** does what a thread of the machine does. -/
theorem setValue_exec (v₀ : T) (l : Listeners) (hidle : m.calls t = .idle) (hfree : m.mutex = [])
    (hne : v ≠ m.value) :
    ∃ m', (machine τ T v₀ l).exec Machine.anyAction m (setValueActions t v m.func.keys) = some m' ∧
      Load.result (setValue (fun _ _ _ => false) v) m.var = (.ok (), m'.var) ∧
      m'.calls t = .idle ∧ m'.mutex = [] := by
  -- the states in the loop, after it, and between the sections
  let looping : State τ T := { m with
    mutex := [t], calls := Function.update m.calls t (.notifying m.value v m.func.keys) }
  let told : State τ T := { looping with
    calls := Function.update m.calls t (.notifying m.value v [])
    notices := m.notices ++ m.func.keys.map fun k => (k, m.value, v) }
  let released : State τ T := { told with
    mutex := [], calls := Function.update m.calls t (.assigning m.value v) }
  let assigned : State τ T := { released with
    value := v
    calls := Function.update m.calls t .idle
    assignments := m.assignments ++ [(m.value, v)] }
  have hcall : (machine τ T v₀ l).Step m (.call t v) (m.setCall t (.entered v)) := by
    show act m (.call t v) = _
    simp only [act, hidle]
  have hcompare : (machine τ T v₀ l).Step (m.setCall t (.entered v)) (.compare t) looping := by
    show act (m.setCall t (.entered v)) (.compare t) = _
    simp only [act, State.setCall, Function.update_self, if_neg hne, Function.update_idem, hfree,
      looping]
  have hnotify : (machine τ T v₀ l).exec Machine.anyAction looping
      (m.func.keys.map fun _ => .notify t) = some told := by
    rw [exec_notify v₀ l (Function.update_self ..)]
    simp only [Function.update_idem, looping, told]
  have hrelease : (machine τ T v₀ l).Step told (.release t) released := by
    show act told (.release t) = _
    simp only [act, State.setCall, Function.update_self, Function.update_idem,
      List.erase_cons_head, looping, told, released]
  have hassign : (machine τ T v₀ l).Step released (.assign t) assigned := by
    show act released (.assign t) = _
    simp only [act, State.setCall, Function.update_self, Function.update_idem,
      Machine.guarded, if_true, looping, told, released, assigned]
  refine ⟨assigned, ?_, ?_, Function.update_self .., rfl⟩
  · rw [setValueActions, Machine.exec_cons trivial hcall, Machine.exec_cons trivial hcompare,
      Machine.exec_append hnotify, Machine.exec_cons trivial hrelease,
      Machine.exec_cons trivial hassign]
    rfl
  · rw [setValue_differs hne, show m.var.func.keys = m.func.keys from rfl, callListeners_quiet]
    rfl

end Machine

end MengSen.ConfigVar

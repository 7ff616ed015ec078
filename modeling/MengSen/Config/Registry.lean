import MengSen.Config.Config
import MengSen.Config.ConfigVarFromString
import MengSen.Config.ConfigVarNotify

/-!
# Config.Registry — the configuration over whole runs

`Config` of `config/config.cpp` with its variables: `Lookup` with a default value, the members of
`ConfigVar`, and `LoadFromYaml`, in any order.  A type is an `i` of `ι`, and an object a number, in the
order of the allocations.

One call runs at a time, and all listeners return: they neither throw nor call back, so that `throws` is
`false` in every `setValue` and `fromString` here.  When a listener throws, the listeners before it have
been told of a value that is not stored (`setValue`), and in `LoadFromYaml` the variable keeps its value.

`Hears k s s'`: between `s` and `s'` the listener `k` of a variable was told of every change.
-/

namespace Listeners

def empty : Listeners := ⟨[], 0, List.nodup_nil, fun _ hk => absurd hk List.not_mem_nil⟩

/-- The counter is that of all variables of the type. -/
def raise (l : Listeners) (funcId : ℕ) : Listeners :=
  { l with
    funcId := max l.funcId funcId
    le_funcId := fun k hk => Nat.le_trans (l.le_funcId k hk) (Nat.le_max_left _ _) }

end Listeners

namespace MengSen.ConfigVar

variable {T : Type}

/-- `setValue` of a variable whose listeners return. -/
def Var.put [DecidableEq T] (s : Var T) (val : T) : Var T :=
  (Load.result (setValue (fun _ _ _ => false) val) s).2

/-- The pairs of which the listener `k` was told. -/
def Var.received (s : Var T) (k : ℕ) : List (T × T) := (s.notices.filter fun n => n.1 = k).map Prod.snd

theorem Var.put_eq [DecidableEq T] (s : Var T) (val : T) : s.put val =
    if val = s.value then s
    else { s with value := val, notices := s.notices ++ s.func.keys.map fun k => (k, s.value, val) } := by
  rw [Var.put]
  split_ifs with h
  · rw [setValue_same h]
  · rw [setValue_differs h, callListeners_quiet]

/-- **What a listener hears**: a listener of `s` is told of every change of the value from `s` to `s'`,
once and in order. -/
def Hears (k : ℕ) (s s' : Var T) : Prop :=
  k ∈ s.func.keys → k ∈ s'.func.keys ∧
    ∃ l, s'.received k = s.received k ++ l ∧ Chain s.value l s'.value ∧ ∀ p ∈ l, p.1 ≠ p.2

theorem Chain.append {u v w : T} {l m : List (T × T)} (h : Chain u l v) (h' : Chain v m w) :
    Chain u (l ++ m) w := by
  induction l generalizing u with
  | nil => rwa [show u = v from h]
  | cons p l ih => exact ⟨h.1, ih h.2⟩

section Hears

variable {k : ℕ} {s s' s'' : Var T}

/-- A call that changes neither the value nor what was told. -/
theorem Hears.of_func (hkeys : k ∈ s.func.keys → k ∈ s'.func.keys) (hvalue : s'.value = s.value)
    (hnotices : s'.notices = s.notices) : Hears k s s' := by
  intro hk
  refine ⟨hkeys hk, [], ?_, hvalue.symm, fun p hp => absurd hp List.not_mem_nil⟩
  rw [Var.received, hnotices, List.append_nil]
  rfl

theorem Hears.refl (k : ℕ) (s : Var T) : Hears k s s := .of_func id rfl rfl

theorem Hears.trans (h : Hears k s s') (h' : Hears k s' s'') : Hears k s s'' := by
  intro hk
  obtain ⟨hk', l, hl, hchain, hne⟩ := h hk
  obtain ⟨hk'', m, hm, hchain', hne'⟩ := h' hk'
  refine ⟨hk'', l ++ m, by rw [hm, hl, List.append_assoc], hchain.append hchain', fun p hp => ?_⟩
  rcases List.mem_append.mp hp with hp | hp
  · exact hne p hp
  · exact hne' p hp

theorem hears_put [DecidableEq T] (k : ℕ) (s : Var T) (val : T) : Hears k s (s.put val) := by
  rw [Var.put_eq]
  split_ifs with h
  · exact .refl k s
  · intro hk
    have hone : (s.func.keys.map fun k' => (k', s.value, val)).filter (fun n => n.1 = k) =
        [(k, s.value, val)] := by
      have hkey : s.func.keys.filter (fun k' => k' = k) = [k] := by
        rw [List.filter_eq, List.count_eq_one_of_mem s.func.nodup hk, List.replicate_one]
      rw [List.filter_map]
      show (s.func.keys.filter fun k' => k' = k).map _ = _
      rw [hkey]
      rfl
    refine ⟨hk, [(s.value, val)], ?_, ⟨rfl, rfl⟩, fun p hp => ?_⟩
    · rw [Var.received, List.filter_append, List.map_append, hone]
      rfl
    · rw [List.mem_singleton.mp hp]
      exact Ne.symm h

end Hears

theorem fromString_eq [DecidableEq T] (FromStr : String → Option T) (val : String) (s : Var T) :
    (fromString (fun _ _ _ => false) FromStr val s).2 = ((FromStr val).map s.put).getD s := by
  cases h : FromStr val with
  | none => rw [fromString_throws h]; rfl
  | some v => rw [fromString_converts h]; rfl

/-! ## One value after the other -/

section PutAll

variable [DecidableEq T]

def Var.putAll (s : Var T) (vals : List T) : Var T := vals.foldl Var.put s

theorem Var.put_value (s : Var T) (val : T) : (s.put val).value = val := by
  rw [Var.put_eq]
  split_ifs with h
  · exact h.symm
  · rfl

theorem Var.put_func (s : Var T) (val : T) : (s.put val).func = s.func := by
  rw [Var.put_eq]
  split_ifs <;> rfl

/-- The last value stays. -/
theorem Var.putAll_value (s : Var T) (vals : List T) : (s.putAll vals).value = vals.getLastD s.value := by
  induction vals generalizing s with
  | nil => rfl
  | cons v vals ih =>
    rw [Var.putAll, List.foldl_cons]
    show ((s.put v).putAll vals).value = _
    rw [ih, Var.put_value]
    cases vals <;> rfl

theorem Var.putAll_func (s : Var T) (vals : List T) : (s.putAll vals).func = s.func := by
  induction vals generalizing s with
  | nil => rfl
  | cons v vals ih => exact (ih (s.put v)).trans (s.put_func v)

/-- **Nothing is told** exactly when there is no listener, or every value is the one that is stored. -/
theorem Var.putAll_notices (s : Var T) (vals : List T) :
    ∃ told, (s.putAll vals).notices = s.notices ++ told ∧
      (told = [] ↔ s.func.keys = [] ∨ ∀ v ∈ vals, v = s.value) := by
  induction vals generalizing s with
  | nil =>
    exact ⟨[], (List.append_nil _).symm,
      iff_of_true rfl (.inr fun v hv => absurd hv List.not_mem_nil)⟩
  | cons v vals ih =>
    obtain ⟨told, htold, hnone⟩ := ih (s.put v)
    rw [Var.put_func, Var.put_value] at hnone
    by_cases h : v = s.value
    · have hput : s.put v = s := by rw [Var.put_eq, if_pos h]
      refine ⟨told, ?_, ?_⟩
      · show ((s.put v).putAll vals).notices = _
        rw [htold, hput]
      · rw [hnone, List.forall_mem_cons, and_iff_right h, h]
    · refine ⟨s.func.keys.map (fun k => (k, s.value, v)) ++ told, ?_, ?_⟩
      · show ((s.put v).putAll vals).notices = _
        rw [htold, Var.put_eq, if_neg h, List.append_assoc]
      · rw [List.append_eq_nil_iff, List.map_eq_nil_iff, hnone]
        refine ⟨fun hall => .inl hall.1, ?_⟩
        rintro (hkeys | hall)
        · exact ⟨hkeys, .inl hkeys⟩
        · exact absurd (hall v List.mem_cons_self) h

/-- Giving the values again changes nothing if there is no listener or only one value, and only then. -/
theorem Var.putAll_again (s : Var T) (vals : List T) :
    (s.putAll vals).putAll vals = s.putAll vals ↔
      s.func.keys = [] ∨ ∀ v ∈ vals, ∀ w ∈ vals, v = w := by
  obtain ⟨told, htold, hnone⟩ := (s.putAll vals).putAll_notices vals
  rw [Var.putAll_func, Var.putAll_value] at hnone
  have hlast : (∀ v ∈ vals, v = vals.getLastD s.value) ↔ ∀ v ∈ vals, ∀ w ∈ vals, v = w := by
    refine ⟨fun h v hv w hw => (h v hv).trans (h w hw).symm, fun h v hv => h v hv _ ?_⟩
    rw [List.getLastD_eq_getLast?, List.getLast?_eq_some_getLast (List.ne_nil_of_mem hv)]
    exact List.getLast_mem _
  rw [← hlast, ← hnone]
  refine ⟨fun h => ?_, fun h => ?_⟩
  · rw [h] at htold
    exact List.append_right_eq_self.mp htold.symm
  · have hvalue : ((s.putAll vals).putAll vals).value = (s.putAll vals).value := by
      rw [Var.putAll_value, Var.putAll_value]
      rcases List.eq_nil_or_concat vals with rfl | ⟨_, v, rfl⟩
      · rfl
      · simp
    have hfunc := (s.putAll vals).putAll_func vals
    rw [h, List.append_nil] at htold
    generalize (s.putAll vals).putAll vals = t at hvalue hfunc htold
    cases t
    simp only at hvalue hfunc htold
    rw [hvalue, hfunc, htold]

end PutAll

end MengSen.ConfigVar

namespace MengSen.Config

open ConfigVar (Var Chain)

/-! ## The registry -/

/-- A `ConfigVar<T>` and its type. -/
abbrev Object {ι : Type} (T : ι → Type) := (i : ι) × Var (T i)

@[ext] structure Registry (ι : Type) (T : ι → Type) where
  data : ConfigVarMap ℕ
  objects : List (Object T)
  /-- `func_id` of `addListener`, one for each type -/
  funcId : ι → ℕ

namespace Registry

variable {ι : Type} {T : ι → Type}

section Model

def empty : Registry ι T := ⟨.empty, [], fun _ => 0⟩

/-- A member function of the object `a`. -/
def onVar (r : Registry ι T) (a : ℕ) (f : ∀ i, Var (T i) → Var (T i)) : Registry ι T :=
  { r with objects := r.objects.modify a fun o => ⟨o.1, f o.1 o.2⟩ }

/-- The type of an object. -/
def typeOf (r : Registry ι T) (a : ℕ) : Option ι := (r.objects[a]?).map Sigma.fst

variable [DecidableEq ι]

/-- `Lookup` with a default value. -/
def lookup (r : Registry ι T) (name : Text) (i : ι) (default_value : T i) :
    Except Fault (Registry ι T × Option ℕ) := do
  let (data, found) ← r.data.lookup name r.objects.length fun a => r.typeOf a = some i
  let made : List (Object T) :=
    if (r.data.lookupBase name).isNone then [⟨i, ⟨default_value, .empty, []⟩⟩] else []
  return ({ r with data := data, objects := r.objects ++ made }, found)

/-- `addListener`; the key is the new value of the counter. -/
def addListener (r : Registry ι T) (a : ℕ) : Registry ι T :=
  match r.typeOf a with
  | none => r
  | some i =>
    { r.onVar a fun j s => { s with func := (s.func.raise (r.funcId j)).add } with
      funcId := Function.update r.funcId i (r.funcId i + 1) }

variable [∀ i, DecidableEq (T i)]

section Calls

variable (FromStr : ∀ i, String → Option (T i)) (dump : Node → Text)

/-- `fromString` of the object, whose listeners return. -/
def fromString (r : Registry ι T) (a : ℕ) (val : String) : Registry ι T :=
  r.onVar a fun i s => (ConfigVar.fromString (fun _ _ _ => false) (FromStr i) val s).2

def loadFromYaml (r : Registry ι T) (root : Node) : Registry ι T :=
  (Config.loadFromYaml dump r.data root).foldl
    (fun r call => fromString FromStr r call.2.1 (.ofList call.2.2)) r

/-- The public functions. -/
inductive Call (T : ι → Type)
  | lookup (name : Text) (i : ι) (default_value : T i)
  /-- with a pointer to a `ConfigVar<T>` -/
  | setValue (a : ℕ) (i : ι) (val : T i)
  | fromString (a : ℕ) (val : String)
  | addListener (a : ℕ)
  | deleteListener (a k : ℕ)
  | clearListener (a : ℕ)
  | loadFromYaml (root : Node)

/-- A call; `Lookup` changes nothing when it throws. -/
def call (r : Registry ι T) : Call T → Registry ι T
  | .lookup name i default_value =>
    match r.lookup name i default_value with
    | .ok (r, _) => r
    | .error _ => r
  | .setValue a i val => r.onVar a fun j s => if h : i = j then s.put (h ▸ val) else s
  | .fromString a val => r.fromString FromStr a val
  | .addListener a => r.addListener a
  | .deleteListener a k => r.onVar a fun _ s => { s with func := s.func.delete k }
  | .clearListener a => r.onVar a fun _ s => { s with func := s.func.clear }
  | .loadFromYaml root => r.loadFromYaml FromStr dump root

/-- The state after the calls. -/
def run (r : Registry ι T) (calls : List (Call T)) : Registry ι T := calls.foldl (call FromStr dump) r

end Calls

/-- The objects that `Visit` calls its function with, in some order. -/
def visit (r : Registry ι T) : List ℕ := r.data.vars.map Prod.snd

end Model

/-! ## Runs -/

section Runs

variable {FromStr : ∀ i, String → Option (T i)} {dump : Node → Text} {r r' r'' : Registry ι T}
  {a k : ℕ} {i : ι} {name : Text}

/-- Every object is registered, under one name. -/
structure Inv (r : Registry ι T) : Prop where
  names : (r.data.vars.map Prod.fst).Nodup
  objects : r.visit = (List.range r.objects.length).reverse

theorem inv_empty : Inv (empty : Registry ι T) := ⟨List.nodup_nil, rfl⟩

theorem Inv.onVar (h : Inv r) (a : ℕ) (f : ∀ i, Var (T i) → Var (T i)) : Inv (r.onVar a f) :=
  ⟨h.names, by rw [Registry.onVar, List.length_modify]; exact h.objects⟩

/-- From `r` to `r'` the names, the objects and their types stay, and the listeners for which `keeps`
holds hear every change. -/
structure Evolves (keeps : ℕ → ℕ → Prop) (r r' : Registry ι T) : Prop where
  names : ∀ name a, r.data.lookupBase name = some a → r'.data.lookupBase name = some a
  objects : ∀ a i s, r.objects[a]? = some ⟨i, s⟩ →
    ∃ s', r'.objects[a]? = some ⟨i, s'⟩ ∧ ∀ k, keeps a k → ConfigVar.Hears k s s'

variable {keeps : ℕ → ℕ → Prop}

theorem Evolves.refl (keeps : ℕ → ℕ → Prop) (r : Registry ι T) : Evolves keeps r r :=
  ⟨fun _ _ h => h, fun _ _ s h => ⟨s, h, fun k _ => .refl k s⟩⟩

theorem Evolves.trans (h : Evolves keeps r r') (h' : Evolves keeps r' r'') : Evolves keeps r r'' where
  names name a ha := h'.names name a (h.names name a ha)
  objects a i s hs := by
    obtain ⟨s', hs', hhears⟩ := h.objects a i s hs
    obtain ⟨s'', hs'', hhears'⟩ := h'.objects a i s' hs'
    exact ⟨s'', hs'', fun k hk => (hhears k hk).trans (hhears' k hk)⟩

theorem getElem?_onVar (r : Registry ι T) (a b : ℕ) (f : ∀ i, Var (T i) → Var (T i)) :
    (r.onVar b f).objects[a]? =
      (r.objects[a]?).map fun o => if b = a then ⟨o.1, f o.1 o.2⟩ else o := by
  rw [onVar, List.getElem?_modify]
  rfl

/-- A member function that tells the listeners of what it changes. -/
theorem evolves_onVar (r : Registry ι T) {b : ℕ} {f : ∀ i, Var (T i) → Var (T i)}
    (hf : ∀ i s k, keeps b k → ConfigVar.Hears k s (f i s)) : Evolves keeps r (r.onVar b f) := by
  refine ⟨fun _ _ h => h, fun a i s hs => ?_⟩
  rw [getElem?_onVar, hs]
  by_cases hb : b = a
  · subst hb
    refine ⟨f i s, ?_, hf i s⟩
    rw [Option.map_some, if_pos rfl]
  · refine ⟨s, ?_, fun k _ => .refl k s⟩
    rw [Option.map_some, if_neg hb]

/-- The call takes the listener `k` away from the object `a`. -/
def Call.drops (a k : ℕ) : Call T → Prop
  | .deleteListener b j => b = a ∧ j = k
  | .clearListener b => b = a
  | _ => False

section

variable [DecidableEq ι]

/-- **`Lookup`**, case by case. -/
theorem lookup_cases (r : Registry ι T) (name : Text) (i : ι) (default_value : T i) :
    (∃ a, r.data.lookupBase name = some a ∧
      r.lookup name i default_value = .ok (r, if r.typeOf a = some i then some a else none)) ∨
    (∃ data : ConfigVarMap ℕ, r.data.lookupBase name = none ∧
      data.vars = (name, r.objects.length) :: r.data.vars ∧
      r.lookup name i default_value = .ok (⟨data, r.objects ++ [⟨i, ⟨default_value, .empty, []⟩⟩],
        r.funcId⟩, some r.objects.length)) ∨
    r.data.lookupBase name = none ∧ r.lookup name i default_value = .error .invalidArgument := by
  rw [lookup]
  cases hfound : r.data.lookupBase name with
  | some a =>
    left
    refine ⟨a, rfl, ?_⟩
    simp [ConfigVarMap.lookup, hfound]
  | none =>
    right
    by_cases hv : validName name = true
    · left
      simp [ConfigVarMap.lookup, hfound, hv]
    · right
      simp [ConfigVarMap.lookup, hfound, hv]
      rfl

end

variable [∀ i, DecidableEq (T i)]

theorem hears_fromString (k : ℕ) (i : ι) (val : String) (s : Var (T i)) :
    ConfigVar.Hears k s (ConfigVar.fromString (fun _ _ _ => false) (FromStr i) val s).2 := by
  rw [ConfigVar.fromString_eq]
  cases FromStr i val with
  | none => exact .refl k s
  | some v => exact ConfigVar.hears_put k s v

theorem evolves_fromString (r : Registry ι T) (a : ℕ) (val : String) :
    Evolves keeps r (r.fromString FromStr a val) :=
  evolves_onVar r fun i s k _ => hears_fromString k i val s

theorem evolves_loads (r : Registry ι T) (calls : List (Text × ℕ × Text)) :
    Evolves keeps r (calls.foldl (fun r call => fromString FromStr r call.2.1 (.ofList call.2.2)) r) := by
  induction calls generalizing r with
  | nil => exact .refl keeps r
  | cons c calls ih => exact (evolves_fromString r c.2.1 (.ofList c.2.2)).trans (ih _)

theorem Inv.loads (h : Inv r) (calls : List (Text × ℕ × Text)) :
    Inv (calls.foldl (fun r call => fromString FromStr r call.2.1 (.ofList call.2.2)) r) := by
  induction calls generalizing r with
  | nil => exact h
  | cons c calls ih => exact ih (h.onVar _ _)

variable [DecidableEq ι]

/-- **Step lemma**: no call unbinds a name, changes the type of an object or hides a change from a listener
that it does not take away. -/
theorem evolves_call (r : Registry ι T) (c : Call T) (hkeeps : ∀ a k, keeps a k → ¬ c.drops a k) :
    Evolves keeps r (r.call FromStr dump c) := by
  cases c with
  | lookup name i default_value =>
    rcases lookup_cases r name i default_value with ⟨a, ha, heq⟩ | ⟨data, hnone, hdata, heq⟩ | ⟨-, heq⟩
    · rw [call, heq]
      exact .refl keeps r
    · rw [call, heq]
      refine ⟨fun name' a' ha' => ?_, fun a' j s hs => ⟨s, ?_, fun k _ => .refl k s⟩⟩
      · have hne : name' ≠ name := by
          rintro rfl
          rw [hnone] at ha'
          cases ha'
        show data.vars.lookup name' = some a'
        rw [hdata, List.lookup_cons, beq_false_of_ne hne]
        exact ha'
      · exact List.getElem?_append_left (List.getElem?_eq_some_iff.mp hs).1 ▸ hs
    · rw [call, heq]
      exact .refl keeps r
  | setValue a i val =>
    rw [call]
    refine evolves_onVar r fun j s k _ => ?_
    split_ifs with hij
    · exact ConfigVar.hears_put k s _
    · exact .refl k s
  | fromString a val => exact evolves_fromString r a val
  | addListener a =>
    rw [call, addListener]
    cases htype : r.typeOf a with
    | none => exact .refl keeps r
    | some i =>
      have honVar : Evolves keeps r (r.onVar a fun j s =>
          { s with func := (s.func.raise (r.funcId j)).add }) := evolves_onVar r fun j s k _ =>
        .of_func (fun hk => List.mem_append_left _ hk) rfl rfl
      exact ⟨honVar.names, honVar.objects⟩
  | deleteListener a k =>
    rw [call]
    refine evolves_onVar r fun j s k' hk' => .of_func (fun hmem => ?_) rfl rfl
    have hne : k' ≠ k := fun heq => hkeeps a k' hk' ⟨rfl, heq.symm⟩
    exact (List.mem_erase_of_ne hne).mpr hmem
  | clearListener a =>
    rw [call]
    exact evolves_onVar r fun j s k hk => absurd rfl (hkeeps a k hk)
  | loadFromYaml root => exact evolves_loads r _

/-- **Run lemma**: nor does a sequence of calls. -/
theorem evolves_run (r : Registry ι T) (calls : List (Call T))
    (hkeeps : ∀ a k, keeps a k → ∀ c ∈ calls, ¬ c.drops a k) :
    Evolves keeps r (r.run FromStr dump calls) := by
  induction calls generalizing r with
  | nil => exact .refl keeps r
  | cons c calls ih =>
    exact (evolves_call r c fun a k h => hkeeps a k h c List.mem_cons_self).trans
      (ih _ fun a k h c' hc' => hkeeps a k h c' (List.mem_cons_of_mem c hc'))

theorem Inv.call (h : Inv r) (c : Call T) : Inv (r.call FromStr dump c) := by
  cases c with
  | lookup name i default_value =>
    rcases lookup_cases r name i default_value with ⟨a, ha, heq⟩ | ⟨data, hnone, hdata, heq⟩ | ⟨-, heq⟩
    · rw [Registry.call, heq]
      exact h
    · rw [Registry.call, heq]
      have hnew : name ∉ r.data.vars.map Prod.fst := by
        intro hmem
        obtain ⟨p, hp, rfl⟩ := List.mem_map.mp hmem
        exact absurd (List.lookup_eq_none_iff.mp hnone p hp) (by simp)
      refine ⟨?_, ?_⟩
      · show (data.vars.map Prod.fst).Nodup
        rw [hdata]
        exact List.nodup_cons.mpr ⟨hnew, h.names⟩
      · show data.vars.map Prod.snd = _
        rw [hdata, List.map_cons, List.length_append, List.length_singleton, List.range_succ,
          List.reverse_concat, ← h.objects]
        rfl
    · rw [Registry.call, heq]
      exact h
  | setValue a i val =>
    rw [Registry.call]
    exact h.onVar a _
  | fromString a val =>
    rw [Registry.call, fromString]
    exact h.onVar a _
  | addListener a =>
    rw [Registry.call, addListener]
    split
    · exact h
    · have honVar := h.onVar a fun j s => { s with func := (s.func.raise (r.funcId j)).add }
      exact ⟨honVar.names, honVar.objects⟩
  | deleteListener a k =>
    rw [Registry.call]
    exact h.onVar a _
  | clearListener a =>
    rw [Registry.call]
    exact h.onVar a _
  | loadFromYaml root => exact h.loads _

theorem inv_run (calls : List (Call T)) : Inv ((empty : Registry ι T).run FromStr dump calls) := by
  have hall : ∀ r : Registry ι T, Inv r → Inv (r.run FromStr dump calls) := by
    induction calls with
    | nil => exact fun r h => h
    | cons c calls ih => exact fun r h => ih _ (h.call c)
  exact hall empty inv_empty

end Runs

section Results

variable [DecidableEq ι] [∀ i, DecidableEq (T i)]

/-- **The registry over whole runs** of calls whose listeners return, `r` being its state after the calls
`before`, and `r'` after `after` too: `Visit` comes to every object once; a name keeps its object, and
`Lookup` with the type of the object gives a pointer to it for good; and a listener that is not taken
away hears every change of its variable, whether by `setValue`, `fromString` or `LoadFromYaml`. -/
theorem registry_stable (FromStr : ∀ i, String → Option (T i)) (dump : Node → Text)
    (before after : List (Call T)) :
    ∃ r r' : Registry ι T, run FromStr dump empty before = r ∧ run FromStr dump r after = r' ∧
      r.visit.Perm (List.range r.objects.length) ∧
      (∀ name a, r.data.lookupBase name = some a → r'.data.lookupBase name = some a) ∧
      (∀ name i v r₁ a, r.lookup name i v = .ok (r₁, some a) → ∀ w,
        (run FromStr dump r₁ after).lookup name i w = .ok (run FromStr dump r₁ after, some a)) ∧
      ∀ a i s, r.objects[a]? = some ⟨i, s⟩ → ∃ s', r'.objects[a]? = some ⟨i, s'⟩ ∧
        ∀ k, (∀ c ∈ after, ¬ c.drops a k) → ConfigVar.Hears k s s' := by
  have hinv : Inv (run FromStr dump (empty : Registry ι T) before) := inv_run before
  have hevolves : ∀ r : Registry ι T, Evolves (fun a k => ∀ c ∈ after, ¬ c.drops a k) r
      (r.run FromStr dump after) := fun r => evolves_run r after fun _ _ h => h
  refine ⟨_, _, rfl, rfl, ?_, (hevolves _).names, fun name i v r₁ a ha w => ?_, (hevolves _).objects⟩
  · rw [hinv.objects]
    exact List.reverse_perm _
  · -- the name is bound in `r₁` to an object of this type
    obtain ⟨hbound, s, hobject⟩ : r₁.data.lookupBase name = some a ∧
        ∃ s, r₁.objects[a]? = some ⟨i, s⟩ := by
      rcases lookup_cases (run FromStr dump (empty : Registry ι T) before) name i v with
        ⟨a', hfound, heq⟩ | ⟨data, -, hdata, heq⟩ | ⟨-, heq⟩
      · rw [heq] at ha
        by_cases htype : (run FromStr dump (empty : Registry ι T) before).typeOf a' = some i
        · rw [if_pos htype] at ha
          cases ha
          obtain ⟨⟨j, s⟩, hs, rfl⟩ := Option.map_eq_some_iff.mp htype
          exact ⟨hfound, s, hs⟩
        · rw [if_neg htype] at ha
          cases ha
      · rw [heq] at ha
        cases ha
        refine ⟨?_, _, List.getElem?_concat_length⟩
        show data.vars.lookup name = _
        rw [hdata, List.lookup_cons_self]
      · rw [heq] at ha
        cases ha
    have hbound' := (hevolves r₁).names name a hbound
    obtain ⟨s', hobject', -⟩ := (hevolves r₁).objects a i s hobject
    have htype : (run FromStr dump r₁ after).typeOf a = some i := by
      rw [typeOf, hobject']
      rfl
    rcases lookup_cases (run FromStr dump r₁ after) name i w with ⟨a', ha', heq⟩ | ⟨_, hnone, -⟩ |
      ⟨hnone, -⟩
    · rw [hbound'] at ha'
      cases ha'
      rw [heq, if_pos htype]
    · rw [hbound'] at hnone
      cases hnone
    · rw [hbound'] at hnone
      cases hnone

end Results

/-! ## Loading a document -/

section Load

variable [∀ i, DecidableEq (T i)]

/-- The texts that the document has for a name, in the order of the document; the empty name has
none. -/
def texts (dump : Node → Text) (root : Node) (name : Text) : List String :=
  if name = [] then []
  else ((listAllMember [] root).filter fun p => p.1 = name).map fun p => .ofList (text dump p.2)

variable (FromStr : ∀ i, String → Option (T i)) (dump : Node → Text)

/-- The values of the type that they convert to. -/
def values (root : Node) (name : Text) (i : ι) : List (T i) :=
  (texts dump root name).filterMap (FromStr i)

variable {FromStr dump} {r r' : Registry ι T} {a b : ℕ} {i : ι} {name name' : Text} {root : Node}

theorem loads_fixed (FromStr : ∀ i, String → Option (T i)) (r : Registry ι T)
    (calls : List (Text × ℕ × Text)) :
    (calls.foldl (fun r call => fromString FromStr r call.2.1 (.ofList call.2.2)) r).data = r.data ∧
    (calls.foldl (fun r call => fromString FromStr r call.2.1 (.ofList call.2.2)) r).funcId =
      r.funcId := by
  induction calls generalizing r with
  | nil => exact ⟨rfl, rfl⟩
  | cons c calls ih => exact ih (r.fromString FromStr c.2.1 (.ofList c.2.2))

/-- What the calls of `fromString` do to an object. -/
theorem getElem?_loads (r : Registry ι T) (calls : List (Text × ℕ × Text)) (a : ℕ) :
    (calls.foldl (fun r call => fromString FromStr r call.2.1 (.ofList call.2.2)) r).objects[a]? =
      (r.objects[a]?).map fun o => ⟨o.1, o.2.putAll
        (((calls.filter fun c => c.2.1 = a).map fun c => .ofList c.2.2).filterMap (FromStr o.1))⟩ := by
  induction calls generalizing r with
  | nil =>
    rw [List.foldl_nil]
    exact Option.map_id'.symm
  | cons c calls ih =>
    rw [List.foldl_cons, ih, fromString, getElem?_onVar, Option.map_map]
    refine Option.map_congr fun o _ => ?_
    by_cases hc : c.2.1 = a
    · rw [Function.comp_apply, if_pos hc, List.filter_cons_of_pos (by simpa using hc), List.map_cons]
      simp only [ConfigVar.fromString_eq]
      cases hconv : FromStr o.1 (.ofList c.2.2) with
      | none => rw [List.filterMap_cons_none hconv]; rfl
      | some v => rw [List.filterMap_cons_some hconv]; rfl
    · rw [Function.comp_apply, if_neg hc, List.filter_cons_of_neg (by simpa using hc)]

omit [∀ i, DecidableEq (T i)] in
/-- An object has one name. -/
theorem Inv.name_inj (h : Inv r) (ha : r.data.lookupBase name = some a)
    (ha' : r.data.lookupBase name' = some a) : name = name' := by
  have hmem : ∀ {n : Text}, r.data.lookupBase n = some a → (n, a) ∈ r.data.vars := by
    intro n hn
    obtain ⟨l₁, l₂, hvars, -⟩ := List.lookup_eq_some_iff.mp hn
    rw [hvars]
    simp
  have hnodup : (r.data.vars.map Prod.snd).Nodup := by
    show r.visit.Nodup
    rw [h.objects]
    exact List.nodup_reverse.mpr List.nodup_range
  exact congrArg Prod.fst (List.inj_on_of_nodup_map hnodup (hmem ha) (hmem ha') rfl)

omit [∀ i, DecidableEq (T i)] in
/-- An object has a name. -/
theorem Inv.exists_name (h : Inv r) (ha : a < r.objects.length) :
    ∃ name, r.data.lookupBase name = some a := by
  have hmem : a ∈ r.visit := by
    rw [h.objects, List.mem_reverse]
    exact List.mem_range.mpr ha
  obtain ⟨⟨name, b⟩, hp, rfl⟩ := List.mem_map.mp hmem
  cases hfound : r.data.lookupBase name with
  | none => exact absurd (List.lookup_eq_none_iff.mp hfound _ hp) (by simp)
  | some b' =>
    obtain ⟨l₁, l₂, hvars, -⟩ := List.lookup_eq_some_iff.mp hfound
    have hp' : (name, b') ∈ r.data.vars := by
      rw [hvars]
      simp
    cases List.inj_on_of_nodup_map h.names hp' hp rfl
    exact ⟨name, hfound⟩

omit [∀ i, DecidableEq (T i)] in
/-- **The texts of an object** are those of its name. -/
theorem Inv.texts_eq (h : Inv r) (ha : r.data.lookupBase name = some a) :
    (((Config.loadFromYaml dump r.data root).filter fun c => c.2.1 = a).map
      fun c => String.ofList c.2.2) = texts dump root name := by
  have hvalid : ∀ p ∈ listAllMember [] root, validName p.1 = true := by
    intro p hp
    obtain ⟨_, _, _, hv⟩ := mem_listAllMember.mp hp
    exact hv
  have htexts : texts dump root name =
      ((listAllMember [] root).filter fun p => p.1 = name ∧ p.1 ≠ []).map
        fun p => .ofList (text dump p.2) := by
    rw [texts]
    split_ifs with hname
    · rw [List.filter_eq_nil_iff.mpr fun p _ => by simp [hname], List.map_nil]
    · refine congrArg _ (List.filter_congr fun p _ => ?_)
      by_cases hp : p.1 = name
      · simp [hp, hname]
      · simp [hp]
  rw [htexts, Config.loadFromYaml]
  generalize listAllMember [] root = l at hvalid
  induction l with
  | nil => rfl
  | cons p l ih =>
    have hrest := ih fun q hq => hvalid q (List.mem_cons_of_mem p hq)
    have hlower := tolower_of_validName (hvalid p List.mem_cons_self)
    by_cases hp : p.1 = name ∧ p.1 ≠ []
    · obtain ⟨rfl, hne⟩ := hp
      rw [List.filterMap_cons_some (b := (p.1, a, text dump p.2)) (by
        rw [if_neg (by simpa using hne), hlower, ha]; rfl), List.filter_cons_of_pos (by simp),
        List.filter_cons_of_pos (by simpa using hne), List.map_cons, List.map_cons, hrest]
    · rw [List.filter_cons_of_neg (by simpa using hp), ← hrest]
      -- the call is one of another object, if there is one
      by_cases hne : p.1 = []
      · rw [List.filterMap_cons_none (by rw [if_pos (by simpa using hne)])]
      · cases hfound : r.data.lookupBase p.1 with
        | none =>
          rw [List.filterMap_cons_none (by rw [if_neg (by simpa using hne), hlower, hfound]; rfl)]
        | some b =>
          have hb : b ≠ a := by
            rintro rfl
            exact hp ⟨h.name_inj hfound ha, hne⟩
          rw [List.filterMap_cons_some (b := (p.1, b, text dump p.2)) (by
            rw [if_neg (by simpa using hne), hlower, hfound]; rfl),
            List.filter_cons_of_neg (by simpa using hb)]

/-- **What a document does to an object**. -/
theorem Inv.getElem?_loadFromYaml (h : Inv r) (ha : r.data.lookupBase name = some a) :
    (r.loadFromYaml FromStr dump root).objects[a]? =
      (r.objects[a]?).map fun o => ⟨o.1, o.2.putAll (values FromStr dump root name o.1)⟩ := by
  rw [loadFromYaml, getElem?_loads]
  simp only [h.texts_eq ha]
  rfl

/-- The document is loaded again. -/
theorem Inv.load_again (h : Inv r) :
    (r.loadFromYaml FromStr dump root).loadFromYaml FromStr dump root =
        r.loadFromYaml FromStr dump root ↔
      ∀ name a i s, r.data.lookupBase name = some a → r.objects[a]? = some ⟨i, s⟩ →
        s.func.keys = [] ∨ ∀ v ∈ values FromStr dump root name i,
          ∀ w ∈ values FromStr dump root name i, v = w := by
  obtain ⟨hdata, hfunc⟩ : (r.loadFromYaml FromStr dump root).data = r.data ∧
      (r.loadFromYaml FromStr dump root).funcId = r.funcId := loads_fixed FromStr r _
  have hinv : Inv (r.loadFromYaml FromStr dump root) := h.loads _
  -- an object after one document, and after two
  have hone : ∀ {name a i s}, r.data.lookupBase name = some a → r.objects[a]? = some ⟨i, s⟩ →
      (r.loadFromYaml FromStr dump root).objects[a]? =
        some ⟨i, s.putAll (values FromStr dump root name i)⟩ := by
    intro name a i s ha hs
    rw [h.getElem?_loadFromYaml ha, hs]
    rfl
  have htwo : ∀ {name a i s}, r.data.lookupBase name = some a → r.objects[a]? = some ⟨i, s⟩ →
      ((r.loadFromYaml FromStr dump root).loadFromYaml FromStr dump root).objects[a]? =
        some ⟨i, (s.putAll (values FromStr dump root name i)).putAll
          (values FromStr dump root name i)⟩ := by
    intro name a i s ha hs
    rw [hinv.getElem?_loadFromYaml (hdata ▸ ha), hone ha hs]
    rfl
  refine ⟨fun heq name a i s ha hs => ?_, fun hall => ?_⟩
  · have hsame := htwo ha hs
    rw [heq, hone ha hs] at hsame
    have hput := eq_of_heq (Sigma.mk.inj (Option.some.inj hsame)).2
    exact (s.putAll_again _).mp hput.symm
  · obtain ⟨hdata', hfunc'⟩ := loads_fixed FromStr (r.loadFromYaml FromStr dump root)
      (Config.loadFromYaml dump (r.loadFromYaml FromStr dump root).data root)
    have hobjects : ((r.loadFromYaml FromStr dump root).loadFromYaml FromStr dump root).objects =
        (r.loadFromYaml FromStr dump root).objects := by
      refine List.ext_getElem? fun a => ?_
      by_cases hlt : a < r.objects.length
      · obtain ⟨name, ha⟩ := h.exists_name hlt
        obtain ⟨⟨i, s⟩, hs⟩ : ∃ o, r.objects[a]? = some o := ⟨_, List.getElem?_eq_getElem hlt⟩
        rw [htwo ha hs, hone ha hs, (s.putAll_again _).mpr (hall name a i s ha hs)]
      · have hnone : r.objects[a]? = none := List.getElem?_eq_none (Nat.le_of_not_lt hlt)
        rw [loadFromYaml, getElem?_loads, loadFromYaml, getElem?_loads, hnone]
        rfl
    exact Registry.ext hdata' hobjects hfunc'

/-- **Loading a document**, all listeners returning: a variable gets the last value that the document has
for its name and that converts, and keeps its own if there is none; and loading the document again
changes nothing and tells nobody, exactly when no variable with a listener is given two values by it. -/
theorem load_again_iff [DecidableEq ι] (FromStr : ∀ i, String → Option (T i)) (dump : Node → Text)
    (before : List (Call T)) (root : Node) :
    ∃ r r₁ : Registry ι T, run FromStr dump empty before = r ∧
      r.loadFromYaml FromStr dump root = r₁ ∧
      (∀ name a i s, r.data.lookupBase name = some a → r.objects[a]? = some ⟨i, s⟩ →
        ∃ s', r₁.objects[a]? = some ⟨i, s'⟩ ∧ s'.func = s.func ∧
          s'.value = (values FromStr dump root name i).getLastD s.value) ∧
      (r₁.loadFromYaml FromStr dump root = r₁ ↔
        ∀ name a i s, r.data.lookupBase name = some a → r.objects[a]? = some ⟨i, s⟩ →
          s.func.keys = [] ∨ ∀ v ∈ values FromStr dump root name i,
            ∀ w ∈ values FromStr dump root name i, v = w) := by
  have hinv : Inv (run FromStr dump (empty : Registry ι T) before) := inv_run before
  refine ⟨_, _, rfl, rfl, fun name a i s ha hs => ?_, hinv.load_again⟩
  refine ⟨_, ?_, s.putAll_func _, s.putAll_value _⟩
  rw [hinv.getElem?_loadFromYaml ha, hs]
  rfl

end Load

end Registry

end MengSen.Config

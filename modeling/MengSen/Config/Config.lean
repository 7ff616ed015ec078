import Mathlib.Data.List.Basic

/-!
# Config.Config — the registry of variables and `LoadFromYaml`

`Config` of `config/config.cpp`.  A `std::string` is the list of its characters, `::tolower` is
`Char.toLower` (the C locale), and a variable is a value of `V`.  `loadFromYaml` returns the calls of
`fromString` in their order, each with the name under which the variable is registered.  How a node
that is no scalar is written out is the parameter `dump`.
-/

/-- The characters of a `std::string`. -/
abbrev Text := List Char

/-- A `YAML::Node` whose maps have scalar keys. -/
inductive Node
  | null
  | scalar (text : Text)
  | sequence (items : List Node)
  | map (entries : List (Text × Node))

namespace MengSen.Config

/-! ## Names -/

/-- The alphabet of `Lookup` and `ListAllMember`. -/
def alphabet : Text := "abcdefghikjlmnopqrstuvwxyz._012345678".toList

/-- `name.find_first_not_of(...) == npos`. -/
def validName (name : Text) : Bool := name.all fun c => alphabet.contains c

inductive Fault
  /-- `std::invalid_argument` -/
  | invalidArgument
  deriving DecidableEq

/-- `_data`, which `Lookup` fills with valid names. -/
structure ConfigVarMap (V : Type) where
  vars : List (Text × V)
  valid : ∀ p ∈ vars, validName p.1 = true

variable {V : Type}

namespace ConfigVarMap

def empty : ConfigVarMap V := ⟨[], nofun⟩

def lookupBase (data : ConfigVarMap V) (name : Text) : Option V := data.vars.lookup name

/-- `Lookup` with a default value: `var` is the new variable, `sameType` the `dynamic_pointer_cast`
to its type. -/
def lookup (data : ConfigVarMap V) (name : Text) (var : V) (sameType : V → Bool) :
    Except Fault (ConfigVarMap V × Option V) :=
  match data.lookupBase name with
  | some found => .ok (data, if sameType found then some found else none)
  | none =>
    if h : validName name = true then
      .ok (⟨(name, var) :: data.vars, List.forall_mem_cons.mpr ⟨h, data.valid⟩⟩, some var)
    else .error .invalidArgument

/-- A registered name is a valid one. -/
theorem validName_of_lookupBase {data : ConfigVarMap V} {name : Text} {var : V}
    (h : data.lookupBase name = some var) : validName name = true := by
  obtain ⟨l₁, l₂, hvars, -⟩ := List.lookup_eq_some_iff.mp h
  refine data.valid (name, var) ?_
  rw [hvars]
  exact List.mem_append_right _ List.mem_cons_self

end ConfigVarMap

/-! ## Loading -/

/-- The prefix of an entry. -/
def extend (pre key : Text) : Text := if pre.isEmpty then key else pre ++ '.' :: key

mutual

/-- What `ListAllMember` appends to `output`. -/
def listAllMember (pre : Text) : Node → List (Text × Node)
  | .map entries =>
    if validName pre then (pre, .map entries) :: listEntries pre entries else []
  | node => if validName pre then [(pre, node)] else []

/-- The loop over the entries of a map. -/
def listEntries (pre : Text) : List (Text × Node) → List (Text × Node)
  | [] => []
  | entry :: entries => listEntry pre entry ++ listEntries pre entries

def listEntry (pre : Text) : Text × Node → List (Text × Node)
  | (key, node) => listAllMember (extend pre key) node

end

/-- What `fromString` is called with. -/
def text (dump : Node → Text) : Node → Text
  | .scalar s => s
  | node => dump node

def tolower (key : Text) : Text := key.map Char.toLower

def loadFromYaml (dump : Node → Text) (data : ConfigVarMap V) (root : Node) :
    List (Text × V × Text) :=
  (listAllMember [] root).filterMap fun i =>
    if i.1.isEmpty then none
    else (data.lookupBase (tolower i.1)).map fun var => (tolower i.1, var, text dump i.2)

/-! ## Paths -/

/-- `n` is at the end of the path of keys. -/
inductive At : Node → List Text → Node → Prop
  | here {n : Node} : At n [] n
  | entry {entries : List (Text × Node)} {key : Text} {child n : Node} {keys : List Text} :
    (key, child) ∈ entries → At child keys n → At (.map entries) (key :: keys) n

/-- The dotted path of the keys. -/
def dotted (keys : List Text) : Text := List.intercalate ['.'] keys

/-- The prefix with which `ListAllMember` gets to the end of a path. -/
def spell : Text → List Text → Text
  | pre, [] => pre
  | pre, key :: keys => spell (extend pre key) keys

theorem spell_of_ne_nil {pre : Text} (hpre : pre ≠ []) (keys : List Text) :
    spell pre keys = pre ++ keys.flatMap ('.' :: ·) := by
  induction keys generalizing pre with
  | nil => simp [spell]
  | cons key keys ih =>
    have hext : extend pre key = pre ++ '.' :: key := if_neg (by simpa using hpre)
    rw [spell, hext, ih (by simp), List.flatMap_cons, List.append_assoc]

theorem dotted_cons (key : Text) (keys : List Text) :
    dotted (key :: keys) = key ++ keys.flatMap ('.' :: ·) := by
  induction keys generalizing key with
  | nil => simp [dotted]
  | cons key' keys ih =>
    have htail := ih key'
    simp only [dotted] at htail ⊢
    rw [List.intercalate_cons_cons, htail, List.flatMap_cons, List.append_assoc]
    rfl

/-- Along non-empty keys, the prefix is the dotted path. -/
theorem spell_eq_dotted {keys : List Text} (hkeys : ∀ k ∈ keys, k ≠ []) :
    spell [] keys = dotted keys := by
  rcases keys with _ | ⟨key, keys⟩
  · rfl
  · have hkey : key ≠ [] := hkeys key List.mem_cons_self
    rw [dotted_cons, ← spell_of_ne_nil hkey]
    rfl

/-! ## What is listed -/

/-- A prefix of a valid path is valid. -/
theorem validName_of_spell {pre : Text} {keys : List Text}
    (h : validName (spell pre keys) = true) : validName pre = true := by
  by_cases hpre : pre = []
  · rw [hpre]
    rfl
  · rw [spell_of_ne_nil hpre, validName, List.all_append, Bool.and_eq_true] at h
    exact h.1

/-- The entries of a map, none for other nodes. -/
def Node.entries : Node → List (Text × Node)
  | .map entries => entries
  | _ => []

theorem listAllMember_eq (pre : Text) (node : Node) :
    listAllMember pre node =
      if validName pre then (pre, node) :: listEntries pre (Node.entries node) else [] := by
  cases node <;> simp [listAllMember, Node.entries, listEntries]

theorem mem_listEntries {pre : Text} {entries : List (Text × Node)} {x : Text × Node} :
    x ∈ listEntries pre entries ↔
      ∃ e ∈ entries, x ∈ listAllMember (extend pre e.1) e.2 := by
  induction entries with
  | nil => simp [listEntries]
  | cons e entries ih =>
    have hentry : listEntry pre e = listAllMember (extend pre e.1) e.2 := by
      obtain ⟨key, node⟩ := e
      rw [listEntry]
    rw [listEntries, List.mem_append, hentry, ih]
    simp only [List.mem_cons, exists_eq_or_imp]

/-- `ListAllMember` appends the nodes that valid paths lead to. -/
theorem mem_of_at {pre : Text} {keys : List Text} {node n : Node} (hat : At node keys n)
    (hv : validName (spell pre keys) = true) :
    (spell pre keys, n) ∈ listAllMember pre node := by
  induction hat generalizing pre with
  | here =>
    have hpre : validName pre = true := hv
    rw [listAllMember_eq, if_pos hpre]
    exact List.mem_cons_self
  | @entry entries key child n keys hmem _ ih =>
    have hspell : validName (spell pre (key :: keys)) = true := hv
    have hpre : validName pre = true := validName_of_spell hspell
    rw [listAllMember_eq, if_pos hpre]
    exact List.mem_cons_of_mem _ (mem_listEntries.mpr ⟨(key, child), hmem, ih hv⟩)

mutual

/-- `ListAllMember` appends nothing else. -/
theorem at_of_mem {key : Text} {n : Node} (pre : Text) :
    ∀ node, (key, n) ∈ listAllMember pre node →
      ∃ keys, At node keys n ∧ spell pre keys = key ∧ validName key = true
  | .map entries, h => by
    rw [listAllMember_eq] at h
    split at h
    · next hpre =>
      rcases List.mem_cons.mp h with heq | h
      · cases heq
        exact ⟨[], .here, rfl, hpre⟩
      · obtain ⟨e, he, keys, hat, hspell, hv⟩ := at_of_mem_entries pre entries h
        exact ⟨e.1 :: keys, .entry he hat, hspell, hv⟩
    · cases h
  | .null, h | .scalar _, h | .sequence _, h => by
    rw [listAllMember_eq] at h
    split at h
    · next hpre =>
      rcases List.mem_cons.mp h with heq | h
      · cases heq
        exact ⟨[], .here, rfl, hpre⟩
      · cases h
    · cases h

theorem at_of_mem_entries {key : Text} {n : Node} (pre : Text) :
    ∀ entries, (key, n) ∈ listEntries pre entries →
      ∃ e ∈ entries, ∃ keys, At e.2 keys n ∧ spell (extend pre e.1) keys = key ∧
        validName key = true
  | [], h => by cases h
  | e :: entries, h => by
    rcases List.mem_append.mp h with h | h
    · exact ⟨e, List.mem_cons_self, at_of_mem_entry pre e h⟩
    · obtain ⟨e', he', hrest⟩ := at_of_mem_entries pre entries h
      exact ⟨e', List.mem_cons_of_mem e he', hrest⟩

theorem at_of_mem_entry {key : Text} {n : Node} (pre : Text) :
    ∀ e : Text × Node, (key, n) ∈ listEntry pre e →
      ∃ keys, At e.2 keys n ∧ spell (extend pre e.1) keys = key ∧ validName key = true
  | (k, node), h => at_of_mem (extend pre k) node h

end

theorem mem_listAllMember {pre key : Text} {node n : Node} :
    (key, n) ∈ listAllMember pre node ↔
      ∃ keys, At node keys n ∧ spell pre keys = key ∧ validName key = true := by
  refine ⟨at_of_mem pre node, ?_⟩
  rintro ⟨keys, hat, rfl, hv⟩
  exact mem_of_at hat hv

/-! ## What is loaded -/

theorem toLower_alphabet : alphabet.all (fun c => c.toLower == c) = true := by rfl

/-- Lower-casing leaves a valid name alone. -/
theorem tolower_of_validName {name : Text} (h : validName name = true) : tolower name = name := by
  refine (List.map_congr_left fun c hc => ?_).trans (List.map_id name)
  have hmem : c ∈ alphabet := List.contains_iff_mem.mp (List.all_eq_true.mp h c hc)
  exact eq_of_beq (List.all_eq_true.mp toLower_alphabet c hmem)

variable {dump : Node → Text} {data : ConfigVarMap V} {root n : Node} {var : V} {name txt : Text}

/-- The variables called are those registered under the name of a valid path. -/
theorem mem_loadFromYaml :
    (name, var, txt) ∈ loadFromYaml dump data root ↔
      ∃ keys n, At root keys n ∧ spell [] keys = name ∧ name ≠ [] ∧
        data.lookupBase name = some var ∧ text dump n = txt := by
  simp only [loadFromYaml, List.mem_filterMap, Prod.exists]
  refine ⟨?_, ?_⟩
  · rintro ⟨key, n, hmem, hcall⟩
    obtain ⟨keys, hat, hspell, hv⟩ := mem_listAllMember.mp hmem
    split at hcall
    · cases hcall
    · next hne =>
      rw [tolower_of_validName hv] at hcall
      obtain ⟨var', hvar, heq⟩ := Option.map_eq_some_iff.mp hcall
      cases heq
      exact ⟨keys, n, hat, hspell, by simpa using hne, hvar, rfl⟩
  · rintro ⟨keys, n, hat, rfl, hne, hvar, rfl⟩
    have hv := ConfigVarMap.validName_of_lookupBase hvar
    refine ⟨spell [] keys, n, mem_of_at hat hv, ?_⟩
    rw [if_neg (by simpa using hne), tolower_of_validName hv, hvar]
    rfl

/-- **A path reaches its variable only in lower case**: the variable that is registered under the
lower-cased path is called with the text of its node if and only if the document has a path that is
spelled like the registered name, without lower-casing, and leads to a node with this text. -/
theorem loaded_iff {keys : List Text} (hat : At root keys n) (hne : keys ≠ [])
    (hkeys : ∀ k ∈ keys, k ≠ []) (hvar : data.lookupBase (tolower (dotted keys)) = some var) :
    (tolower (dotted keys), var, text dump n) ∈ loadFromYaml dump data root ↔
      dotted keys = tolower (dotted keys) ∨
        ∃ keys' n', At root keys' n' ∧ spell [] keys' = tolower (dotted keys) ∧
          text dump n' = text dump n := by
  have hname : tolower (dotted keys) ≠ [] := by
    obtain ⟨key, rest, rfl⟩ := List.exists_cons_of_ne_nil hne
    rw [dotted_cons, tolower, List.map_append]
    have hkey := hkeys key List.mem_cons_self
    simp [hkey]
  rw [mem_loadFromYaml]
  refine ⟨?_, ?_⟩
  · rintro ⟨keys', n', hat', hspell, -, -, htext⟩
    exact .inr ⟨keys', n', hat', hspell, htext⟩
  · rintro (hlower | ⟨keys', n', hat', hspell, htext⟩)
    · exact ⟨keys, n, hat, (spell_eq_dotted hkeys).trans hlower, hname, hvar, rfl⟩
    · exact ⟨keys', n', hat', hspell, hname, hvar, htext⟩

/-- `a.b` is registered. -/
def oneVar : ConfigVarMap ℕ := ⟨[("a.b".toList, 7)], by simp; decide⟩

/-- `{a: {b: 10}}`. -/
def lowerDoc : Node := .map [("a".toList, .map [("b".toList, .scalar "10".toList)])]

theorem loaded_iff_lowerDoc :
    ("a.b".toList, 7, "10".toList) ∈ loadFromYaml (fun _ => []) oneVar lowerDoc := by
  have hat : At lowerDoc ["a".toList, "b".toList] (.scalar "10".toList) :=
    .entry List.mem_cons_self (.entry List.mem_cons_self .here)
  have hvar : oneVar.lookupBase (tolower (dotted ["a".toList, "b".toList])) = some 7 := rfl
  exact (loaded_iff hat (by decide) (by decide) hvar).mpr (.inl rfl)

/-- `{A: {B: 10}}`, the document of the comment at `ListAllMember`. -/
def upperDoc : Node := .map [("A".toList, .map [("B".toList, .scalar "10".toList)])]

/-- The path `A.B` is in the document, `a.b` is registered, and no variable is called. -/
theorem upper_not_loaded :
    At upperDoc ["A".toList, "B".toList] (.scalar "10".toList) ∧
      oneVar.lookupBase (tolower (dotted ["A".toList, "B".toList])) = some 7 ∧
      loadFromYaml (fun _ => []) oneVar upperDoc = [] :=
  ⟨.entry List.mem_cons_self (.entry List.mem_cons_self .here), rfl, rfl⟩

end MengSen.Config

import MengSen.Lib.Layout
import MengSen.Log.LogLineEncode

/-!
# Log.LogLineStringify — what a log line prints

A record is read where it was written, and moves `start` behind itself: `stringify` stays aligned with
the insertions (`stringifyFrom_records`).  A C string ends at its first NUL, so that a `std::string`
with a NUL leaves `start` inside its own record, where the next byte is read as a type
(`exists_tag_inside`).
-/

namespace MengSen.LogLine

open Load (result Yields Keeps yields_pure yields_bind yields_modify keeps_pure keeps_throw keeps_modify)
open Layout (At)

/-! ## The texts -/

section Texts

variable (H : Host)

/-- What `os << arg` prints. -/
def Arg.text : Arg → List UInt8
  | .char v => [v]
  | .uint32 v => detail.decimal v.toNat
  | .uint64 v => detail.decimal v.toNat
  | .int32 v => detail.decimal v.toInt
  | .int64 v => detail.decimal v.toInt
  | .double v => H.double v
  | .cstring none => []
  | .cstring (some v) => MengSen.cstring v.ptr
  | .string v => v

/-- No NUL in a `std::string`. -/
def Arg.Clean : Arg → Prop
  | .string v => 0 ∉ v
  | _ => True

/-- Where the records of `args` begin, the first at `start`. -/
def recordStarts (start : ℕ) : List Arg → List ℕ
  | [] => []
  | arg :: args =>
    (if arg.record H = [] then [] else [start]) ++
      recordStarts (start + (arg.record H).length) args

variable {H}

/-- What is printed before the message. -/
def Header.text (C : Clock) (header : Header H) : List UInt8 :=
  Timestamp.text (C.gmtime.gmtime (Timestamp.to_time_t header.timestamp.toNat))
      header.timestamp.toNat .microsecond ++
    (detail.literal " " ++ detail.decimal header.threadid.toInt ++ detail.literal " " ++
      LogLevel.toString (some header.loglevel) ++ detail.literal " ")

/-- What is printed after it. -/
def Header.suffix (header : Header H) : List UInt8 :=
  detail.literal " - " ++ header.file.text ++ detail.literal " " ++ header.function.text ++
    detail.literal ": " ++ detail.decimal header.line.toNat ++ [10]

end Texts

/-! ## Decoding -/

section Decode

variable {H : Host} {mem d : List UInt8} {b k n start stop fuel : ℕ} {s t : Output}

theorem yields_read (hat : At mem b (H.order.store k n)) (hn : n < 256 ^ k) :
    Yields (read H mem b k) s n s := by
  have hle := hat.length_le
  have htake := hat.take_drop
  rw [Bytes.Order.length_store] at hle htake
  rw [read, Mem.read?_of_le hle, Mem.slice, htake]
  exact yields_pure.mpr ⟨(H.order.load_store hn).symm, rfl⟩

theorem yields_write (text : List UInt8) :
    Yields (write text) s PUnit.unit { s with os := s.os ++ text } := yields_modify.mpr rfl

theorem yields_decodeObject (hat : At mem b (H.order.store k n)) (hn : n < 256 ^ k)
    (text : ℕ → List UInt8) :
    Yields (decodeObject H mem b k text) s k { s with os := s.os ++ text n } :=
  yields_bind.mpr ⟨_, _, yields_read hat hn,
    yields_bind.mpr ⟨_, _, yields_write _, yields_pure.mpr ⟨rfl, rfl⟩⟩⟩

/-- **A C string** is printed up to its first NUL. -/
theorem yields_decodeCharPtr {text : List UInt8} (h : 0 ∉ text) (rest : List UInt8) :
    Yields (decodeCharPtr (text ++ 0 :: rest)) s (text.length + 1) { s with os := s.os ++ text } := by
  induction text generalizing s with
  | nil =>
    rw [List.append_nil]
    exact yields_pure.mpr ⟨rfl, rfl⟩
  | cons c text ih =>
    rw [List.mem_cons, not_or] at h
    rw [List.cons_append, decodeCharPtr, if_neg (Ne.symm h.1)]
    have hrest := ih (s := { s with os := s.os ++ [c] }) h.2
    rw [List.append_assoc] at hrest
    exact yields_bind.mpr ⟨_, _, yields_write _, yields_bind.mpr ⟨_, _, hrest,
      yields_pure.mpr ⟨rfl, rfl⟩⟩⟩

/-- The characters of a record from its type on, when the first NUL is behind `text`. -/
theorem yields_decode_charPtr {text rest : List UInt8} (hat : At mem b (text ++ 0 :: rest))
    (h : 0 ∉ text) :
    Yields (decode H mem b .charPtr) s (text.length + 1) { s with os := s.os ++ text } := by
  obtain ⟨back, hback⟩ := hat.drop
  rw [decode, hback, List.append_assoc, List.cons_append]
  exact yields_decodeCharPtr h _

/-- **A clean argument** is decoded from its record. -/
theorem Arg.decodes {arg : Arg} (hclean : arg.Clean) (hne : arg.record H ≠ []) :
    ∃ T d, arg.record H = typed T d ∧ ∀ {mem b s}, At mem b d →
      Yields (decode H mem b T) s d.length { s with os := s.os ++ arg.text H } := by
  have hcstring : ∀ text : List UInt8, 0 ∉ text → charPtrRecord text ≠ [] →
      ∃ T d, charPtrRecord text = typed T d ∧ ∀ {mem b s}, At mem b d →
        Yields (decode H mem b T) s d.length { s with os := s.os ++ text } := by
    intro text h0 hne
    have hnil : text ≠ [] := fun h => hne (if_pos h)
    refine ⟨_, _, if_neg hnil, fun hat => ?_⟩
    rw [List.length_append]
    exact yields_decode_charPtr hat h0
  have hobject : ∀ (T : SupportedType) (k n : ℕ) (f : ℕ → List UInt8) (text : List UInt8),
      (∀ mem b, decode H mem b T = decodeObject H mem b k f) → n < 256 ^ k → f n = text →
      ∃ T' d, typed T (H.order.store k n) = typed T' d ∧ ∀ {mem b s}, At mem b d →
        Yields (decode H mem b T') s d.length { s with os := s.os ++ text } := by
    intro T k n f text hdecode hn htext
    refine ⟨_, _, rfl, fun hat => ?_⟩
    rw [hdecode, Bytes.Order.length_store, ← htext]
    exact yields_decodeObject hat hn f
  cases arg with
  | char v => exact hobject .char 1 _ _ _ (fun _ _ => rfl) v.toNat_lt (by simp [Arg.text])
  | uint32 v => exact hobject .uint32 4 _ _ _ (fun _ _ => rfl) v.toNat_lt rfl
  | uint64 v => exact hobject .uint64 8 _ _ _ (fun _ _ => rfl) v.toNat_lt rfl
  | int32 v => exact hobject .int32 4 _ _ _ (fun _ _ => rfl) v.toUInt32.toNat_lt (by simp [Arg.text])
  | int64 v => exact hobject .int64 8 _ _ _ (fun _ _ => rfl) v.toUInt64.toNat_lt (by simp [Arg.text])
  | double v => exact hobject .double 8 _ _ _ (fun _ _ => rfl) v.toNat_lt (by simp [Arg.text])
  | cstring v =>
    rcases v with _ | v
    · exact absurd rfl hne
    · exact hcstring _ (zero_notMem_cstring v.ptr) hne
  | string v => exact hcstring v hclean hne

/-! ## The recursion -/

theorem tupleElement_tupleIndex (T : SupportedType) : tupleElement (tupleIndex T) = some T := by
  cases T <;> rfl

theorem store_one (o : Bytes.Order) (c : UInt8) : o.store 1 c.toNat = [c] := by
  cases o <;> simp [Bytes.Order.store, Bytes.encode]

theorem stringifyFrom_stop (fuel : ℕ) :
    result (stringifyFrom H mem stop fuel stop) s = (.ok .atEnd, s) := by
  cases fuel <;> exact congrArg (fun x => result x s) (if_pos rfl)

/-- The byte at `start` is read as a type. -/
theorem yields_typeId {c : UInt8} (hat : At mem start [c]) : Yields (read H mem start 1) s c.toNat s :=
  yields_read (by rwa [store_one]) c.toNat_lt

/-- **One record**: its type is read at its first byte. -/
theorem stringifyFrom_typed {T : SupportedType} (hlt : start < stop) (hat : At mem start (typed T d))
    (hdecode : Yields (decode H mem (start + 1) T) { s with tags := s.tags ++ [start] } n t) :
    result (stringifyFrom H mem stop (fuel + 1) start) s =
      result (stringifyFrom H mem stop fuel (start + 1 + n)) t := by
  have hid : At mem start ([tupleIndex T] ++ d) := hat
  rw [stringifyFrom, if_neg hlt.ne, (yields_typeId hid.left).result_bind,
    ((yields_modify (a := PUnit.unit)).mpr rfl).result_bind]
  simp only [UInt8.ofNat_toNat, tupleElement_tupleIndex]
  exact hdecode.result_bind _

/-- An argument without a record prints nothing. -/
theorem Arg.text_eq_nil {arg : Arg} (h : arg.record H = []) : arg.text H = [] := by
  have hcstring : ∀ text : List UInt8, charPtrRecord text = [] → text = [] := by
    intro text hrecord
    by_contra hne
    rw [charPtrRecord, if_neg hne] at hrecord
    cases hrecord
  cases arg with
  | cstring v =>
    rcases v with _ | v
    · rfl
    · exact hcstring _ h
  | string v => exact hcstring v h
  | _ => cases h

/-- **A clean argument is printed**, and its type is read where its record begins. -/
theorem stringifyFrom_arg {arg : Arg} (hclean : arg.Clean) (hat : At mem start (arg.record H))
    (hstop : start + (arg.record H).length ≤ stop) (hfuel : stop ≤ start + fuel) :
    ∃ fuel', stop ≤ start + (arg.record H).length + fuel' ∧
      result (stringifyFrom H mem stop fuel start) s =
        result (stringifyFrom H mem stop fuel' (start + (arg.record H).length))
          ⟨s.os ++ arg.text H, s.tags ++ if arg.record H = [] then [] else [start]⟩ := by
  by_cases hnil : arg.record H = []
  · refine ⟨fuel, hfuel.trans (Nat.add_le_add_right (Nat.le_add_right _ _) _), ?_⟩
    rw [if_pos hnil, Arg.text_eq_nil hnil, hnil, List.append_nil, List.append_nil]
    rfl
  · have hpos : 0 < (arg.record H).length := List.length_pos_iff.mpr hnil
    obtain ⟨fuel, rfl⟩ : ∃ m, fuel = m + 1 := ⟨fuel - 1, by omega⟩
    obtain ⟨T, d, hrecord, hdecode⟩ := arg.decodes hclean hnil
    have hlen : (arg.record H).length = 1 + d.length := by
      rw [hrecord, typed, List.length_cons, Nat.add_comm]
    rw [hrecord] at hat
    have hpayload : At mem (start + 1) d := At.skip (d := [tupleIndex T]) hat rfl
    refine ⟨fuel, by omega, ?_⟩
    rw [stringifyFrom_typed (by omega) hat (hdecode hpayload), if_neg hnil, hlen, Nat.add_assoc]

/-- **Clean arguments are printed one after the other**, and `start` comes to the end of their
records. -/
theorem stringifyFrom_records {args : List Arg} (hclean : ∀ arg ∈ args, arg.Clean)
    (hat : At mem start (args.flatMap (Arg.record H)))
    (hstop : start + (args.flatMap (Arg.record H)).length ≤ stop) (hfuel : stop ≤ start + fuel) :
    ∃ fuel', result (stringifyFrom H mem stop fuel start) s =
      result (stringifyFrom H mem stop fuel' (start + (args.flatMap (Arg.record H)).length))
        ⟨s.os ++ args.flatMap (Arg.text H), s.tags ++ recordStarts H start args⟩ := by
  induction args generalizing start fuel s with
  | nil => exact ⟨fuel, by simp [recordStarts]⟩
  | cons arg args ih =>
    rw [List.flatMap_cons] at hat hstop ⊢
    rw [List.length_append, ← Nat.add_assoc] at hstop
    obtain ⟨fuel₁, hfuel₁, harg⟩ := stringifyFrom_arg (s := s) (hclean arg List.mem_cons_self)
      hat.left (Nat.le_of_add_right_le hstop) hfuel
    obtain ⟨fuel₂, hargs⟩ := ih (fun a ha => hclean a (List.mem_cons_of_mem arg ha))
      (hat.skip rfl) hstop hfuel₁
    refine ⟨fuel₂, ?_⟩
    rw [harg, hargs, List.flatMap_cons, recordStarts, List.length_append, ← List.append_assoc,
      ← List.append_assoc, ← Nat.add_assoc]

/-! ## A NUL inside a string -/

/-- Types that have been read stay read. -/
def More (s t : Output) : Prop := s.tags <+: t.tags

instance : Std.Refl More := ⟨fun _ => List.prefix_rfl⟩

instance : IsTrans Output More := ⟨fun _ _ _ => List.IsPrefix.trans⟩

theorem keeps_read (b size : ℕ) : Keeps More (read H mem b size) := by
  rw [read]
  split
  · exact keeps_pure _
  · exact keeps_throw _

theorem keeps_write (text : List UInt8) : Keeps More (write text) :=
  keeps_modify fun _ => List.prefix_rfl

theorem keeps_literalAt (p : ℕ) : Keeps More (literalAt H p) := by
  rw [literalAt]
  split
  · exact keeps_pure _
  · exact keeps_throw _

theorem keeps_decodeObject (b size : ℕ) (text : ℕ → List UInt8) :
    Keeps More (decodeObject H mem b size text) :=
  (keeps_read b size).bind fun _ => (keeps_write _).bind fun _ => keeps_pure _

theorem keeps_decodeCharPtr (m : List UInt8) : Keeps More (decodeCharPtr m) := by
  induction m with
  | nil => exact keeps_throw _
  | cons c m ih =>
    rw [decodeCharPtr]
    split
    · exact keeps_pure _
    · exact (keeps_write _).bind fun _ => ih.bind fun _ => keeps_pure _

theorem keeps_decode (b : ℕ) (T : SupportedType) : Keeps More (decode H mem b T) := by
  cases T with
  | stringLiteral =>
    exact (keeps_read b 8).bind fun _ => (keeps_literalAt _).bind fun _ =>
      (keeps_write _).bind fun _ => keeps_pure _
  | charPtr => exact keeps_decodeCharPtr _
  | _ => exact keeps_decodeObject b _ _

theorem keeps_tag (start : ℕ) : Keeps More
    (modify fun s => { s with tags := s.tags ++ [start] } : Load Fault Output PUnit) :=
  keeps_modify fun _ => List.prefix_append _ _

theorem keeps_stringifyFrom (stop fuel start : ℕ) :
    Keeps More (stringifyFrom H mem stop fuel start) := by
  induction fuel generalizing start with
  | zero =>
    rw [stringifyFrom]
    split
    · exact keeps_pure _
    · exact keeps_throw _
  | succ fuel ih =>
    rw [stringifyFrom]
    split
    · exact keeps_pure _
    · refine (keeps_read start 1).bind fun typeId => (keeps_tag start).bind fun _ => ?_
      split
      · exact (keeps_decode _ _).bind fun n => ih _
      · exact keeps_pure _

theorem mem_tags_of_keeps {α : Type} {m : Load Fault Output α} (h : Keeps More m) {p : ℕ}
    (hp : p ∈ s.tags) : p ∈ (result m s).2.tags := (h s).subset hp

/-- **Before the end a type is read**, whatever comes of it. -/
theorem mem_tags (hlt : start < stop) (hstop : stop ≤ mem.length) (fuel : ℕ) :
    start ∈ (result (stringifyFrom H mem stop (fuel + 1) start) s).2.tags := by
  have hlen : start + 1 ≤ mem.length := by omega
  obtain ⟨typeId, hread⟩ : ∃ n, Yields (read H mem start 1) s n s :=
    ⟨_, by rw [read, Mem.read?_of_le hlen]; exact yields_pure.mpr ⟨rfl, rfl⟩⟩
  have hmodify : Yields (modify fun s => { s with tags := s.tags ++ [start] } : Load Fault Output PUnit)
      s PUnit.unit { s with tags := s.tags ++ [start] } := yields_modify.mpr rfl
  rw [stringifyFrom, if_neg hlt.ne, hread.result_bind, hmodify.result_bind]
  refine mem_tags_of_keeps ?_ (List.mem_append_right _ List.mem_cons_self)
  split
  · exact (keeps_decode _ _).bind fun n => keeps_stringifyFrom _ _ _
  · exact keeps_pure _

theorem le_of_mem_recordStarts {args : List Arg} {p : ℕ} (h : p ∈ recordStarts H start args) :
    start ≤ p := by
  induction args generalizing start with
  | nil => cases h
  | cons arg args ih =>
    rcases List.mem_append.mp h with hhere | hthere
    · split at hhere
      · cases hhere
      · exact (List.mem_singleton.mp hhere).ge
    · exact Nat.le_of_add_right_le (ih hthere)

/-- **A NUL inside a string** ends the C string early: a type is read at the byte behind it. -/
theorem stringifyFrom_string {v : List UInt8} (h : 0 ∈ v) (hat : At mem start (charPtrRecord v))
    (hstop : start + (charPtrRecord v).length ≤ stop) (hmem : stop ≤ mem.length)
    (hfuel : stop ≤ start + fuel) :
    ∃ p ∈ (result (stringifyFrom H mem stop fuel start) s).2.tags,
      start < p ∧ p < start + (charPtrRecord v).length := by
  obtain ⟨w, hv⟩ := exists_eq_cstring h
  obtain ⟨u, hu, rfl⟩ : ∃ u, 0 ∉ u ∧ v = u ++ 0 :: w := ⟨_, zero_notMem_cstring v, hv⟩
  have hrecord : charPtrRecord (u ++ 0 :: w) = typed .charPtr (u ++ 0 :: (w ++ [0])) := by
    rw [charPtrRecord, if_neg (List.append_ne_nil_of_right_ne_nil u (List.cons_ne_nil 0 w)),
      List.append_assoc, List.cons_append]
  have hlen : (charPtrRecord (u ++ 0 :: w)).length = u.length + w.length + 3 := by
    rw [hrecord, typed]
    simp only [List.length_cons, List.length_append, List.length_nil]
    omega
  rw [hrecord] at hat
  have hpayload : At mem (start + 1) (u ++ 0 :: (w ++ [0])) :=
    At.skip (d := [tupleIndex .charPtr]) hat rfl
  obtain ⟨fuel, rfl⟩ : ∃ m, fuel = m + 2 := ⟨fuel - 2, by omega⟩
  refine ⟨start + 1 + (u.length + 1), ?_, by omega, by omega⟩
  rw [stringifyFrom_typed (by omega) hat (yields_decode_charPtr hpayload hu)]
  exact mem_tags (by omega) hmem fuel

/-- The first string with a NUL is reached, and a type is read inside its record. -/
theorem exists_tag_inside {args : List Arg} (hdirty : ¬ ∀ arg ∈ args, arg.Clean)
    (hat : At mem start (args.flatMap (Arg.record H)))
    (hstop : start + (args.flatMap (Arg.record H)).length ≤ stop) (hmem : stop ≤ mem.length)
    (hfuel : stop ≤ start + fuel) :
    ∃ p ∈ (result (stringifyFrom H mem stop fuel start) s).2.tags,
      start < p ∧ p ∉ recordStarts H start args := by
  induction args generalizing start fuel s with
  | nil => exact absurd (fun arg h => absurd h List.not_mem_nil) hdirty
  | cons arg args ih =>
    rw [List.flatMap_cons] at hat hstop
    rw [List.length_append, ← Nat.add_assoc] at hstop
    have hfirst : ∀ {p}, start < p → p ∉ recordStarts H (start + (arg.record H).length) args →
        p ∉ recordStarts H start (arg :: args) := by
      intro p hlt hp hmem
      rcases List.mem_append.mp hmem with hhere | hthere
      · split at hhere
        · cases hhere
        · exact absurd (List.mem_singleton.mp hhere) hlt.ne'
      · exact hp hthere
    by_cases hclean : arg.Clean
    · -- the argument is passed, and the string is further behind
      obtain ⟨fuel₁, hfuel₁, harg⟩ := stringifyFrom_arg (s := s) hclean hat.left
        (Nat.le_of_add_right_le hstop) hfuel
      obtain ⟨p, hp, hlt, hnot⟩ := ih (s := ⟨s.os ++ arg.text H,
        s.tags ++ if arg.record H = [] then [] else [start]⟩)
        (fun h => hdirty (List.forall_mem_cons.mpr ⟨hclean, h⟩)) (hat.skip rfl) hstop hfuel₁
      exact ⟨p, harg ▸ hp, by omega, hfirst (by omega) hnot⟩
    · -- the argument is the string
      cases arg with
      | string v =>
        obtain ⟨p, hp, hlt, hinside⟩ := stringifyFrom_string (s := s) (not_not.mp hclean) hat.left
          (Nat.le_of_add_right_le hstop) hmem hfuel
        exact ⟨p, hp, hlt, hfirst hlt fun h => absurd (le_of_mem_recordStarts h) (not_le.mpr hinside)⟩
      | _ => exact absurd trivial hclean

end Decode

end MengSen.LogLine

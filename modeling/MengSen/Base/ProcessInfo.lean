import MengSen.Base.ReadSmallFile
import MengSen.Base.StringPiece
import MengSen.Lib.Find

/-!
# Base.ProcessInfo — the name of the process

`ProcessInfo::procname` of `base/ProcessInfo.cpp`: the name is between the first `'('` and the last `')'`
of `/proc/self/stat`.  The kernel writes the number of the process before the name and its state behind
it; the name is what the process chose and may have both of these characters.
-/

namespace MengSen

/-- `FileUtil::readFile`, with what `open` answers. -/
def FileUtil.readFile (answer : ℕ → Except ℕ ℕ) (mem : List UInt8) (opened : Except ℕ (List UInt8))
    (maxSize : Int32) (fstat : Option (Except ℕ Stat)) :
    Except ReadSmallFile.Fault ReadSmallFile.Result := do
  let (r, _) ← (ReadSmallFile.ofOpen mem opened).readToString answer maxSize fstat
  return r

namespace ProcessInfo

/-- `procname(stat)` of a text of less than `2 ^ 31` bytes. -/
def procname (stat : List UInt8) : StringPiece :=
  match stat.findIdx? (· = 40), Find.findLast? (· = 41) stat with
  | some lp, some rp =>
    if lp < rp then .ofBytes (Mem.slice stat (lp + 1) (rp - lp - 1)) else .ofBytes []
  | _, _ => .ofBytes []

section Model

variable (answer : ℕ → Except ℕ ℕ) (mem : List UInt8) (opened : Except ℕ (List UInt8))

def procStat : Except ReadSmallFile.Fault (List UInt8) := do
  let r ← FileUtil.readFile answer mem opened 65536 none
  return r.content.getD []

/-- `procname()`, as a string. -/
def currentProcname : Except ReadSmallFile.Fault (List UInt8) := do
  let stat ← procStat answer mem opened
  return (procname stat).bytes

end Model

/-- What the kernel writes: the name `comm` in parentheses. -/
def statText (pid comm rest : List UInt8) : List UInt8 := pid ++ 40 :: (comm ++ 41 :: rest)

/-! ## The name in a front of the text -/

section Name

variable {pid comm rest d e : List UInt8}

theorem bytes_ofBytes (l : List UInt8) : (StringPiece.ofBytes l).bytes = l := List.take_length

theorem find_eq_none {c : UInt8} {l : List UInt8} (h : c ∉ l) : l.findIdx? (· = c) = none := by
  rw [List.findIdx?_eq_none_iff]
  intro x hx
  exact decide_eq_false fun hc => h (hc ▸ hx)

theorem find_append_cons {c : UInt8} {l : List UInt8} (h : c ∉ l) :
    (l ++ c :: e).findIdx? (· = c) = some l.length := by
  rw [List.findIdx?_append, find_eq_none h, List.findIdx?_cons, if_pos (decide_eq_true rfl),
    Option.none_or, Option.map_some, Nat.zero_add]

/-- No parenthesis is open. -/
theorem procname_of_notMem (h : 40 ∉ d) : (procname d).bytes = [] := by
  rw [procname, find_eq_none h]
  rfl

/-- A text that ends in the name. -/
theorem procname_open (hpid : 40 ∉ pid) (he : 41 ∉ e) : (procname (pid ++ 40 :: e)).bytes = [] := by
  rw [procname, find_append_cons hpid]
  by_cases hmem : (41 : UInt8) ∈ pid
  · -- the last one is before the name
    obtain ⟨a, b, rfl, hb⟩ := Find.split_last hmem
    have hlast : Find.findLast? (· = 41) (a ++ 41 :: b ++ 40 :: e) = some a.length := by
      rw [List.append_assoc, List.cons_append]
      refine Find.findLast?_append_cons (decide_eq_true rfl) fun y hy => decide_eq_false ?_
      rintro rfl
      rcases List.mem_append.mp hy with hy | hy
      · exact hb hy
      · rcases List.mem_cons.mp hy with hy | hy
        · cases hy
        · exact he hy
    simp only [hlast]
    rw [if_neg (by rw [List.length_append]; omega)]
    rfl
  · have hlast : Find.findLast? (· = 41) (pid ++ 40 :: e) = none := by
      refine Find.findLast?_eq_none fun y hy => decide_eq_false ?_
      rintro rfl
      rcases List.mem_append.mp hy with hy | hy
      · exact hmem hy
      · rcases List.mem_cons.mp hy with hy | hy
        · cases hy
        · exact he hy
    simp only [hlast]
    rfl

/-- A text with a closed parenthesis behind the open one. -/
theorem procname_closed {a b : List UInt8} (hpid : 40 ∉ pid) (hb : 41 ∉ b) :
    (procname (pid ++ 40 :: (a ++ 41 :: b))).bytes = a := by
  have hsplit : pid ++ 40 :: (a ++ 41 :: b) = (pid ++ 40 :: a) ++ 41 :: b := by
    rw [List.append_assoc, List.cons_append]
  have hlast : Find.findLast? (· = 41) (pid ++ 40 :: (a ++ 41 :: b)) =
      some (pid.length + 1 + a.length) := by
    have hnot : ∀ y ∈ b, decide (y = 41) = false := fun y hy => decide_eq_false fun h => hb (h ▸ hy)
    rw [hsplit, Find.findLast?_append_cons (p := (decide <| · = 41)) (decide_eq_true rfl) hnot,
      List.length_append, List.length_cons, Nat.add_assoc, Nat.add_comm 1]
  have hlen : pid.length + 1 + a.length - pid.length - 1 = a.length := by omega
  have hdrop : (pid ++ 40 :: (a ++ 41 :: b)).drop (pid.length + 1) = a ++ 41 :: b := by
    rw [List.drop_append, List.drop_of_length_le (Nat.le_succ _), Nat.add_sub_cancel_left]
    rfl
  rw [procname, find_append_cons hpid]
  simp only [hlast]
  rw [if_pos (by omega), bytes_ofBytes, hlen, Mem.slice, hdrop, List.take_left]

/-- A front that goes beyond the first `x`. -/
theorem prefix_beyond {x : UInt8} {p l : List UInt8} (hd : x ∈ d) (hp : x ∉ p) (h : d <+: p ++ x :: l) :
    ∃ e, d = p ++ x :: e ∧ e <+: l := by
  rcases List.prefix_or_prefix_of_prefix h (List.prefix_append p (x :: l)) with hdp | ⟨e, rfl⟩
  · exact absurd (hdp.subset hd) hp
  · rcases List.prefix_cons_iff.mp ((List.prefix_append_right_inj p).mp h) with rfl | ⟨e, rfl, he⟩
    · rw [List.append_nil] at hd
      exact absurd hd hp
    · exact ⟨e, rfl, he⟩

/-- Nothing before the last `x` is behind it. -/
theorem prefix_of_last {x : UInt8} {a b c l : List UInt8} (hl : x ∉ l)
    (h : a ++ x :: b <+: c ++ x :: l) : a <+: c := by
  have ha : a <+: c ++ x :: l := (List.prefix_append a (x :: b)).trans h
  rcases List.prefix_or_prefix_of_prefix ha (List.prefix_append c (x :: l)) with hac | ⟨t, rfl⟩
  · exact hac
  · rw [List.append_assoc, List.prefix_append_right_inj] at h
    cases t with
    | nil => rw [List.append_nil]
    | cons y t =>
      have hmem : x ∈ t ++ x :: b := List.mem_append_right t List.mem_cons_self
      exact absurd ((List.cons_prefix_cons.mp h).2.subset hmem) hl

/-- **The name that a front of the text gives** is a front of the name. -/
theorem procname_prefix (hpid : 40 ∉ pid) (hrest : 41 ∉ rest) (h : d <+: statText pid comm rest) :
    (procname d).bytes <+: comm := by
  by_cases hopen : (40 : UInt8) ∈ d
  · obtain ⟨e, rfl, he⟩ := prefix_beyond hopen hpid h
    by_cases hclosed : (41 : UInt8) ∈ e
    · obtain ⟨a, b, rfl, hb⟩ := Find.split_last hclosed
      rw [procname_closed hpid hb]
      exact prefix_of_last hrest he
    · rw [procname_open hpid hclosed]
      exact List.nil_prefix
  · rw [procname_of_notMem hopen]
    exact List.nil_prefix

end Name

/-- **The name of the process**, which may have parentheses.  Short reads do not change it, and when a read
fails there is a front of it. -/
theorem currentProcname_eq {answer : ℕ → Except ℕ ℕ} {mem pid comm rest : List UInt8}
    (hmem : mem.length = ReadSmallFile.kBufferSize) (hpid : 40 ∉ pid) (hrest : 41 ∉ rest)
    (hlen : (statText pid comm rest).length ≤ 65536) :
    ∃ name, currentProcname answer mem (.ok (statText pid comm rest)) = .ok name ∧ name <+: comm ∧
      ((∀ k e, answer k ≠ .error e) → name = comm) := by
  have hbuf : (ReadSmallFile.ofOpen mem (.ok (statText pid comm rest))).buf_.length =
      ReadSmallFile.kBufferSize := by rw [ReadSmallFile.ofOpen, List.length_set, hmem]
  obtain ⟨errno, d, f', hloop, h⟩ :=
    ReadSmallFile.readLoop_reads answer hbuf (ReadSmallFile.sizeOf 65536) []
  have hthrows : (ReadSmallFile.Call.readToString 65536 none).throws = false := rfl
  obtain ⟨r, hr, hcontent, -⟩ := ReadSmallFile.readToString_eq rfl hthrows hloop
  have hname : currentProcname answer mem (.ok (statText pid comm rest)) = .ok (procname d).bytes := by
    simp only [currentProcname, procStat, FileUtil.readFile, hr, hcontent, bind, Except.bind, pure,
      Except.pure, Option.getD_some, List.nil_append]
  refine ⟨_, hname, procname_prefix hpid hrest h.front, fun hanswer => ?_⟩
  cases errno with
  | some e =>
    obtain ⟨k, hk⟩ := h.failed e rfl
    exact absurd hk (hanswer k e)
  | none =>
    -- the whole text is read
    have hd : d = statText pid comm rest := by
      rw [h.whole rfl]
      exact List.take_of_length_le hlen
    rw [hd, statText, procname_closed hpid hrest]

/-- The process `7` with the name `a) (b`, read byte by byte. -/
theorem currentProcname_eq_parens :
    ∃ name, currentProcname (fun _ => .ok 0) (List.replicate ReadSmallFile.kBufferSize 0)
        (.ok (statText [55, 32] [97, 41, 32, 40, 98] [32, 83])) = .ok name ∧
      name <+: [97, 41, 32, 40, 98] ∧
      ((∀ (_ : ℕ) (e : ℕ), (.ok 0 : Except ℕ ℕ) ≠ .error e) → name = [97, 41, 32, 40, 98]) :=
  currentProcname_eq List.length_replicate (by decide) (by decide) (by decide)

end ProcessInfo

end MengSen

import MengSen.Base.LogFile
import MengSen.Base.TimestampConvert

/-!
# Base.LogFileName — the names of the log files

`getLogFileName` of `base/LogFile.cpp`: the base name, the time at which the file is opened, the host,
the process and `.log`.  With UTC times the names of a `LogFile` come in the order of bytes, so a
directory that is listed by name shows its files as they were opened, and no file is opened twice in
append mode.
-/

namespace MengSen

open detail (literal decimal)

/-- A time under `".%Y%m%d:%H%M%S."`. -/
def stampText (t : CivilTime) : List UInt8 :=
  literal "." ++ (decimal t.date.year ++ (digitsText 2 t.date.month ++ (digitsText 2 t.date.day ++
    (literal ":" ++ (digitsText 2 t.hour ++ (digitsText 2 t.min ++ (digitsText 2 t.sec ++
      literal ".")))))))

/-- What `getLogFileName` reads of its process. -/
structure LogFileEnv where
  gmtime_r : Gmtime
  localtime_r : ℤ → CivilTime
  g_logTimeZone : ℤ
  hostname : List UInt8
  pid : ℤ

namespace LogFile

/-- The name of a file that is opened at `now`. -/
def getLogFileName (E : LogFileEnv) (basename : List UInt8) (now : ℤ) : Option (List UInt8) := do
  let tm := if E.g_logTimeZone ≠ 0 then E.localtime_r now else E.gmtime_r.gmtime now
  let timebuf ← strftime (List.replicate 32 0) 0 32 (stampText tm)
  let filename := basename ++ cstring timebuf
  let filename := filename ++ E.hostname
  let pidbuf := (literal "." ++ decimal E.pid).take 31
  return filename ++ pidbuf ++ literal ".log"

/-! ## The stamps -/

section Stamp

variable {t u : CivilTime}

theorem length_stampText (h : FourDigits t) : (stampText t).length = 17 := by
  have hm := t.date.month_le
  have hd : t.date.day ≤ 31 := t.date.day_le.trans (GregorianDate.daysInMonth_le _ _)
  have hh := t.hour_lt
  have hmin := t.min_lt
  have hs := t.sec_lt
  obtain ⟨hlo, hhi⟩ := id h
  simp only [stampText, List.length_append, decimal_year h]
  rw [length_digitsText (by omega), length_digitsText (by omega), length_digitsText (by omega),
    length_digitsText (by omega), length_digitsText (by omega), length_digitsText (by omega)]
  rfl

/-- **The stamps are in the order of the times**. -/
theorem stampText_lt_iff (ht : FourDigits t) (hu : FourDigits u) :
    stampText t < stampText u ↔ t.seconds < u.seconds := by
  have hm := t.date.month_le
  have hm' := u.date.month_le
  have hd : t.date.day ≤ 31 := t.date.day_le.trans (GregorianDate.daysInMonth_le _ _)
  have hd' : u.date.day ≤ 31 := u.date.day_le.trans (GregorianDate.daysInMonth_le _ _)
  have hh := t.hour_lt
  have hh' := u.hour_lt
  have hmin := t.min_lt
  have hmin' := u.min_lt
  have hs := t.sec_lt
  have hs' := u.sec_lt
  obtain ⟨hlo, hhi⟩ := id ht
  obtain ⟨hlo', hhi'⟩ := id hu
  have hyear : t.date.year.natAbs < u.date.year.natAbs ↔ t.date.year < u.date.year := by omega
  have hyear' : t.date.year.natAbs = u.date.year.natAbs ↔ t.date.year = u.date.year := by omega
  simp only [stampText, decimal_year ht, decimal_year hu]
  rw [seconds_lt_iff, separator_lt_iff, field_lt_iff (by omega) (by omega),
    field_lt_iff (by omega) (by omega), field_lt_iff (by omega) (by omega), separator_lt_iff,
    field_lt_iff (by omega) (by omega), field_lt_iff (by omega) (by omega),
    field_lt_iff (by omega) (by omega), hyear, hyear']
  simp only [lt_irrefl, and_false, or_false]

theorem zero_notMem_stampText (h : FourDigits t) : 0 ∉ stampText t := by
  have hdot : (0 : UInt8) ∉ literal "." := by decide
  have hcolon : (0 : UInt8) ∉ literal ":" := by decide
  have hdigits : ∀ w n, (0 : UInt8) ∉ digitsText w n := fun w n h0 => ne_zero_of_mem_digitsText h0 rfl
  rw [stampText, decimal_year h]
  simp only [List.mem_append, hdot, hcolon, hdigits, or_self, not_false_eq_true]

end Stamp

/-- The first four-digit years end with 9999. -/
theorem fourDigits_of_seconds {t : CivilTime} (h : 0 ≤ t.seconds) (hend : t.seconds < 253402300800) :
    FourDigits t := by
  have hdays := t.seconds_ediv
  obtain ⟨hle, hlt⟩ := t.date.dayNumber_newYear
  have hfirst : (GregorianDate.newYear t.date.year).dayNumber =
      GregorianDate.daysBeforeYear t.date.year + 1 := by
    simp only [GregorianDate.dayNumber, GregorianDate.newYear, GregorianDate.daysBeforeMonth,
      daysInMonth]
    omega
  unfold CivilTime.days julianDay at hdays
  unfold GregorianDate.daysBeforeYear at hfirst
  unfold FourDigits
  omega

/-! ## The names -/

section Name

variable {E : LogFileEnv} {basename : List UInt8} {now now' : ℤ}

/-- What follows the stamp. -/
def nameEnd (E : LogFileEnv) : List UInt8 :=
  E.hostname ++ ((literal "." ++ decimal E.pid).take 31 ++ literal ".log")

/-- **A name** with a stamp in UTC. -/
theorem getLogFileName_eq (hzone : E.g_logTimeZone = 0) (h : FourDigits (E.gmtime_r.gmtime now)) :
    getLogFileName E basename now =
      some (basename ++ (stampText (E.gmtime_r.gmtime now) ++ nameEnd E)) := by
  have hlen := length_stampText h
  have hzero := zero_notMem_stampText h
  unfold getLogFileName
  rw [if_neg (not_not_intro hzone)]
  dsimp only
  generalize stampText (E.gmtime_r.gmtime now) = stamp at hlen hzero ⊢
  have hstore : strftime (List.replicate 32 0) 0 32 stamp =
      some (stamp ++ 0 :: List.replicate 14 0) := by
    rw [strftime, if_pos (by omega), Mem.store?_of_le (by
      rw [List.length_append, hlen, List.length_replicate]
      decide), Mem.store, List.length_append, hlen]
    simp
  rw [hstore, Option.bind_eq_bind, Option.bind_some, cstring_append_zero hzero]
  simp only [nameEnd, List.append_assoc]
  rfl

/-- Names are in the order of the times. -/
theorem name_lt_name {t u : CivilTime} (ht : FourDigits t) (hu : FourDigits u)
    (h : t.seconds < u.seconds) :
    basename ++ (stampText t ++ nameEnd E) < basename ++ (stampText u ++ nameEnd E) := by
  rw [separator_lt_iff,
    Lex.append_lt_append ((length_stampText ht).trans (length_stampText hu).symm)]
  exact .inl ((stampText_lt_iff ht hu).mpr h)

/-- The times that `gmtime_r` renders with four digits. -/
theorem gmtime_fourDigits (E : LogFileEnv) (hpos : 0 < now) (hend : now < 253402300800) :
    FourDigits (E.gmtime_r.gmtime now) ∧ (E.gmtime_r.gmtime now).seconds = now := by
  have hseconds := E.gmtime_r.seconds_eq now (by omega) (by omega)
  exact ⟨fourDigits_of_seconds (by omega) (by omega), hseconds⟩

end Name

/-! ## When the files are opened -/

section Opened

variable {P : LogFileParams} {clock : ℕ → ℤ} {answer : ℕ → ℕ → ℕ} {l l' : LogFile}

/-- Every file was opened at a reading of the clock. -/
def OpenedBy (clock : ℕ → ℤ) (l : LogFile) : Prop := ∀ t ∈ l.files.map LogPart.opened, ∃ n, t = clock n

theorem OpenedBy.congr (h : OpenedBy clock l)
    (hl : l'.files.map LogPart.opened = l.files.map LogPart.opened) : OpenedBy clock l' := by
  unfold OpenedBy
  rwa [hl]

theorem OpenedBy.rollFile (h : OpenedBy clock l) : OpenedBy clock (l.rollFile clock).2 := by
  unfold LogFile.rollFile
  dsimp only
  split
  · intro t ht
    simp only [files, Option.toList_some, List.map_append, List.map_singleton, List.mem_append,
      List.mem_singleton] at ht
    rcases ht with ht | rfl
    · exact h t (by simpa only [files, List.map_append, List.mem_append] using ht)
    · exact ⟨_, rfl⟩
  · exact h.congr rfl

theorem OpenedBy.call (h : OpenedBy clock l) {c : Call}
    (hc : l.call P clock answer c = some l') : OpenedBy clock l' := by
  cases c with
  | flush =>
    simp only [LogFile.call, Option.map_eq_some_iff] at hc
    obtain ⟨-, -, rfl⟩ := hc
    exact h
  | rollFile =>
    obtain rfl := Option.some.inj hc
    exact h.rollFile
  | append logline =>
    simp only [LogFile.call, append_unlocked, Option.bind_eq_bind, Option.bind_eq_some_iff] at hc
    obtain ⟨f, hf, hc⟩ := hc
    -- the line changes neither the files before nor the times
    have hpush : ∀ m : LogFile, m.older = l.older →
        m.file_ = some (LogPart.push f (answer l.older.length) logline) → OpenedBy clock m := by
      intro m holder hfile
      refine h.congr ?_
      simp only [files, holder, hfile, hf, Option.toList_some, List.map_append, List.map_singleton,
        LogPart.push]
    split at hc
    · obtain rfl := Option.some.inj hc
      exact OpenedBy.rollFile (hpush _ rfl rfl)
    · split at hc
      · split at hc
        · obtain rfl := Option.some.inj hc
          exact OpenedBy.rollFile (hpush _ rfl rfl)
        · split at hc
          · obtain rfl := Option.some.inj hc
            exact hpush _ rfl rfl
          · obtain rfl := Option.some.inj hc
            exact hpush _ rfl rfl
      · obtain rfl := Option.some.inj hc
        exact hpush _ rfl rfl

theorem OpenedBy.calls (h : OpenedBy clock l) {cs : List Call}
    (hc : cs.foldlM (LogFile.call P clock answer) l = some l') : OpenedBy clock l' := by
  induction cs generalizing l with
  | nil =>
    obtain rfl := Option.some.inj hc
    exact h
  | cons c cs ih =>
    rw [List.foldlM_cons, Option.bind_eq_bind, Option.bind_eq_some_iff] at hc
    obtain ⟨m, hm, hc⟩ := hc
    exact ih (h.call hm) hc

theorem make_openedBy : OpenedBy clock (make clock) :=
  OpenedBy.rollFile (l := ⟨0, 0, 0, 0, none, [], 0⟩) fun _ ht => absurd ht List.not_mem_nil

end Opened

/-! ## The directory -/

section Directory

/-- The contents of the files, `[]` where there is none. -/
abbrev Directory := List UInt8 → List UInt8

/-- The directory after the files of the names are opened with `"ae"` and written, one after the
other. -/
def writtenTo (dir : Directory) : List (List UInt8 × List UInt8) → Directory
  | [] => dir
  | (name, bytes) :: l => writtenTo (Function.update dir name (dir name ++ bytes)) l

theorem writtenTo_of_notMem {dir : Directory} {l : List (List UInt8 × List UInt8)} {name : List UInt8}
    (h : name ∉ l.map Prod.fst) : writtenTo dir l name = dir name := by
  induction l generalizing dir with
  | nil => rfl
  | cons p l ih =>
    rw [List.map_cons, List.mem_cons, not_or] at h
    rw [writtenTo, ih h.2, Function.update_of_ne h.1]

/-- Under names that differ from each other, every file holds what was written to it. -/
theorem map_writtenTo {dir : Directory} {l : List (List UInt8 × List UInt8)}
    (hnodup : (l.map Prod.fst).Nodup) (hdir : ∀ name ∈ l.map Prod.fst, dir name = []) :
    (l.map Prod.fst).map (writtenTo dir l) = l.map Prod.snd := by
  induction l generalizing dir with
  | nil => rfl
  | cons p l ih =>
    obtain ⟨name, bytes⟩ := p
    rw [List.map_cons, List.nodup_cons] at hnodup
    obtain ⟨hnew, hnodup⟩ := hnodup
    have hfirst : dir name = [] := hdir name (List.mem_cons_self ..)
    rw [List.map_cons, List.map_cons, List.map_cons, writtenTo, ih hnodup, writtenTo_of_notMem hnew,
      Function.update_self, hfirst, List.nil_append]
    intro name' hname'
    rw [Function.update_of_ne (ne_of_mem_of_not_mem hname' hnew)]
    exact hdir name' (List.mem_cons_of_mem _ hname')

end Directory

/-- **Listing the files by name gives the log**: in UTC, and before the year 10000, the names of the
files increase, and the files that were written in a directory without these names hold, in the order
of their names, all lines as they were appended. -/
theorem files_byName (P : LogFileParams) {E : LogFileEnv} {clock : ℕ → ℤ} {answer : ℕ → ℕ → ℕ}
    (basename : List UInt8) (hzone : E.g_logTimeZone = 0) (hmono : Monotone clock)
    (hpos : ∀ n, 0 < clock n) (hend : ∀ n, clock n < 253402300800) (calls : List Call)
    (hacc : ∀ logline ∈ appended calls, ∀ i k, logline.length ≤ answer i k) :
    ∃ l, ∃ names : List (List UInt8), run P clock answer calls = some l ∧
      (l.files.map fun f => getLogFileName E basename f.opened) = names.map some ∧
      names.Pairwise (· < ·) ∧ ∀ dir : Directory, (∀ name ∈ names, dir name = []) →
        (names.map (writtenTo dir (names.zip (l.files.map fun f => f.out.file)))).flatten =
          (appended calls).flatten := by
  obtain ⟨f₀, hmake, hopened⟩ := inv_make hpos
  obtain ⟨l, f, hrun, hinv, -⟩ := hmake.calls (P := P) (.inr hopened) hmono hpos calls hacc
  have hfiles : l.files = l.older ++ [f] := by rw [files, hinv.file, Option.toList_some]
  have hby : OpenedBy clock l := make_openedBy.calls hrun
  have htime : ∀ g ∈ l.files, FourDigits (E.gmtime_r.gmtime g.opened) ∧
      (E.gmtime_r.gmtime g.opened).seconds = g.opened := by
    intro g hg
    obtain ⟨n, hn⟩ := hby g.opened (List.mem_map_of_mem hg)
    rw [hn]
    exact gmtime_fourDigits E (hpos n) (hend n)
  obtain ⟨name, hname⟩ : ∃ name : LogPart → List UInt8, name = fun g =>
      basename ++ (stampText (E.gmtime_r.gmtime g.opened) ++ nameEnd E) := ⟨_, rfl⟩
  have hnames : (l.files.map name).Pairwise (· < ·) := by
    have hinc := hinv.increasing
    rw [← hfiles, List.pairwise_map] at hinc
    rw [List.pairwise_map, hname]
    refine hinc.imp_of_mem fun {g g'} hg hg' hlt => ?_
    obtain ⟨ht, hs⟩ := htime g hg
    obtain ⟨ht', hs'⟩ := htime g' hg'
    exact name_lt_name ht ht' (by rwa [hs, hs'])
  have hlen : (l.files.map name).length = (l.files.map fun g => g.out.file).length := by
    rw [List.length_map, List.length_map]
  refine ⟨l, l.files.map name, hrun, ?_, hnames, fun dir hdir => ?_⟩
  · rw [List.map_map]
    refine List.map_congr_left fun g hg => ?_
    rw [hname]
    exact getLogFileName_eq hzone (htime g hg).1
  · have hfst : ((l.files.map name).zip (l.files.map fun g => g.out.file)).map Prod.fst =
        l.files.map name := List.map_fst_zip hlen.le
    have hsnd : ((l.files.map name).zip (l.files.map fun g => g.out.file)).map Prod.snd =
        l.files.map fun g => g.out.file := List.map_snd_zip hlen.ge
    have hnodup : (l.files.map name).Nodup := hnames.imp ne_of_lt
    rw [← hfst] at hnodup hdir
    have hwritten := map_writtenTo hnodup hdir
    rw [hfst, hsnd] at hwritten
    have hwhole : (l.files.map fun g => g.out.file) = l.files.map fun g => g.lines.flatten :=
      List.map_congr_left fun g hg => hinv.whole g (hfiles ▸ hg)
    have hlines : appended calls = l.files.flatMap LogPart.lines := by
      rw [hfiles]
      exact hinv.inOrder.symm
    rw [hwritten, hwhole, hlines, List.flatMap_def, List.flatten_flatten, List.map_map]
    rfl

/-- Two lines in two files. -/
theorem files_byName_two : ∃ E : LogFileEnv, ∃ l, ∃ names : List (List UInt8),
    run ⟨2, 3, 1⟩ (fun n => 1700000000 + min n 9) (fun _ _ => 5)
      [.append [1, 2, 3], .append [4]] = some l ∧
      (l.files.map fun f => getLogFileName E (literal "app") f.opened) = names.map some ∧
      names.Pairwise (· < ·) := by
  obtain ⟨gmtime_r⟩ := nonempty_gmtime
  have hmono : Monotone fun n : ℕ => (1700000000 + min n 9 : ℤ) := by
    intro n m h
    show (1700000000 + min n 9 : ℤ) ≤ 1700000000 + min m 9
    omega
  obtain ⟨l, names, hrun, hnames, hlt, -⟩ := files_byName ⟨2, 3, 1⟩
    (E := ⟨gmtime_r, gmtime_r.gmtime, 0, literal "host", 42⟩) (literal "app") rfl hmono
    (fun n => by omega) (fun n => by omega) [.append [1, 2, 3], .append [4]]
    (fun x hx _ _ => by
      show x.length ≤ 5
      simp only [appended, List.mem_cons, List.not_mem_nil, or_false] at hx
      rcases hx with rfl | rfl <;> decide)
  exact ⟨_, l, names, hrun, hnames, hlt⟩

end LogFile

end MengSen

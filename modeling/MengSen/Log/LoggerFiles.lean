import MengSen.Log.FileWriter
import MengSen.Log.LoggerDestroyed

/-!
# Log.LoggerFiles — from `add` to the files

The guaranteed logger with its `FileWriter`: what its pop thread writes is the calls of `write` of one
thread, so that the files are those of `FileWriter.run`.  `render` is the `LogLine` that a producer has
made, and `text` what it prints.
-/

namespace MengSen.Log.Logger

open FileWriter (Prints Directory Files)

variable {τ α : Type} [DecidableEq τ] {garbage : Option ℕ}

/-- The buffer of a guaranteed logger. -/
abbrev queueOf (s : State (QueueBuffer.base τ α garbage)) : QueueBuffer.State τ α := s.buffer

variable {s : State (QueueBuffer.base τ α garbage)}

/-- **What is written** was popped, in that order. -/
theorem written_front (h : (machine (QueueBuffer.base τ α garbage)).Reach Flushes s) :
    ∃ ls, ls <+: (queueOf s).popped ∧ s.written = ls.map some := by
  have hinv := reach_inv (QueueBuffer.base_lawful garbage) h
  have hfront : s.written <+: (QueueBuffer.out (queueOf s)).map some := by
    by_cases hw : ∃ d, s.pop = .writing d
    · -- the line that is being written is the last one
      obtain ⟨d, hd⟩ := hw
      obtain ⟨x, hx⟩ := hinv.taken d hd
      show s.written <+: (QueueBuffer.base τ α garbage).out s.buffer
      rw [hx]
      exact List.prefix_append _ _
    · rw [← hinv.through fun d hd => hw ⟨d, hd⟩]
      exact List.prefix_rfl
  have hout : QueueBuffer.out (queueOf s) <+: (queueOf s).popped := by
    rw [QueueBuffer.out]
    split_ifs
    · exact List.dropLast_prefix _
    · exact List.prefix_rfl
  obtain ⟨ls, hls, hwritten⟩ := List.prefix_map_iff.mp hfront
  exact ⟨ls, hls.trans hout, hwritten⟩

/-- **From `add` to the files**: as long as the files open and take what is written, they hold whole
lines, cut at the roll size, each at most once and those of each producer in the order of its calls; and
once the logger is destroyed they hold every line whose `add` had returned when `~Logger` began. -/
theorem added_in_files (h : (machine (QueueBuffer.base τ α garbage)).Reach Flushes s) (H : Host)
    (C : Clock) (render : LogLine τ α → MengSen.LogLine) {text : LogLine τ α → List UInt8}
    (hprints : ∀ l, Prints H C (render l) (text l)) (logDirectorary logFileName : List UInt8)
    (mb : UInt32) (before : Directory) :
    ∃ (ls : List (LogLine τ α)) (w : FileWriter) (p : Rolling.Parts (List UInt8)),
      s.written = ls.map some ∧ ls.Nodup ∧
      (∀ q, ls.filter (fun l => l.producer = q) <+: (queueOf s).history.calls q) ∧
      (s.owner = .finished → ∀ l, s.due l → l ∈ ls) ∧
      FileWriter.run (fun _ => true) H C
        (.make (fun _ => true) logDirectorary logFileName mb before)
        (ls.map fun l => (render l, none)) = .ok w ∧
      Rolling.IsCut List.length (mb.toNat * 2 ^ 20 % 2 ^ 32) (ls.map text) p ∧
      Files (logDirectorary ++ logFileName) before w.directory
        (p.closed.map List.flatten ++ [p.last.flatten]) := by
  obtain ⟨ls, hls, hwritten⟩ := written_front h
  obtain ⟨f, e, hqueue⟩ := QueueBuffer.reach_inv
    (reach_inv (QueueBuffer.base_lawful garbage) h).reach
  have hguarantee : QueueBuffer.Guarantee (queueOf s) := hqueue.guarantee
  have hflushed := flushed_of_reach (QueueBuffer.base_lawful garbage) h
  have hcalls : List.Forall₂ (fun call text => Prints H C call.1 text)
      (ls.map fun l => (render l, (none : Option ℕ))) (ls.map text) := by
    rw [List.forall₂_map_left_iff, List.forall₂_map_right_iff, List.forall₂_same]
    exact fun l _ => hprints l
  have hmake := FileWriter.make_inv (fun _ => true) logDirectorary logFileName mb before
  obtain ⟨w, hrun, hname, hsize, sent, p, hinv⟩ := hmake.run hcalls
  have hlines : [] ++ (ls.map text).zip ((ls.map fun l => (render l, (none : Option ℕ))).map Prod.snd) =
      (ls.map text).map (·, none) := by
    rw [List.nil_append, List.map_map, List.zip_map', List.map_map]
    rfl
  rw [hlines] at hinv
  rcases hinv with ⟨hsent, hworking⟩ | ⟨lost, tail, hsent, hstuck⟩
  · obtain rfl : ls.map text = sent :=
      List.map_injective_iff.mpr (Prod.mk_left_injective none) hsent
    refine ⟨ls, w, p, hwritten, hls.sublist.nodup hguarantee.once,
      fun q => (hls.filter _).trans (hguarantee.ordered q), fun ho l hl => ?_, hrun, ?_, ?_⟩
    · rcases hflushed.written ho l hl with hin | hover
      · rw [hwritten] at hin
        exact (List.mem_map_of_injective (Option.some_injective _)).mp hin
      · exact absurd hover not_false
    · have hcut := hworking.cut
      rw [FileWriter.Cut, hsize] at hcut
      rw [← FileWriter.rollSize_eq mb]
      exact hcut
    · have hfiles := hworking.files
      rwa [show w.name = logDirectorary ++ logFileName from hname] at hfiles
  -- no file and no line fails
  · rcases hstuck.failed.exists_failure with ⟨k, hk⟩ | ⟨line, hline, hfails⟩
    · cases hk
    · obtain ⟨text, -, rfl⟩ := List.mem_map.mp (hsent.symm ▸ List.mem_append_right _ hline)
      cases hfails

/-- Two lines are added, and written before and after `~Logger` has begun. -/
def queueFiles : List (Action queue) :=
  queuePush ++ queuePush ++
    [.load, .load, .tryPop QueueBuffer.Action.tryPop, .tryPop QueueBuffer.Action.fetch,
      .tryPop QueueBuffer.Action.look, .tryPop QueueBuffer.Action.move, .write, .shutdown, .load,
      .tryPop QueueBuffer.Action.tryPop, .tryPop QueueBuffer.Action.look,
      .tryPop QueueBuffer.Action.move, .write, .destroyThread, .destroyFileWriter,
      .tryPop QueueBuffer.Action.tryPop]

/-- With a roll size of 4096 megabytes each line has a file of its own. -/
theorem added_in_files_destroyed : ∃ (s : State queue) (C : Clock)
    (render : LogLine Unit Unit → MengSen.LogLine) (text : LogLine Unit Unit → List UInt8)
    (w : FileWriter),
      (∀ l, Prints LogLine.emptyLiterals C (render l) (text l)) ∧
      (machine queue).Reach Flushes s ∧ s.owner = .finished ∧
      s.due ⟨(), 0, ()⟩ ∧ s.due ⟨(), 1, ()⟩ ∧
      FileWriter.run (fun _ => true) LogLine.emptyLiterals C
        (.make (fun _ => true) (detail.literal "/tmp/") (detail.literal "log") 4096 fun _ => none)
        [(render ⟨(), 0, ()⟩, none), (render ⟨(), 1, ()⟩, none)] = .ok w ∧
      Files (detail.literal "/tmp/log") (fun _ => none) w.directory
        [text ⟨(), 0, ()⟩, text ⟨(), 1, ()⟩, []] := by
  obtain ⟨s, t, u, hs, hempty, ht, hdone, hu, howner, hdue, hwritten⟩ : ∃ s t u : State queue,
      (machine queue).exec Goes (init (QueueBuffer.init none)) queueFiles = some s ∧
        Flushes s (.tryPop QueueBuffer.Action.look) ∧
        (machine queue).Step s (.tryPop QueueBuffer.Action.look) t ∧
        Flushes t .destroyBufferBase ∧ (machine queue).Step t .destroyBufferBase u ∧
          u.owner = .finished ∧ (u.due ⟨(), 0, ()⟩ ∧ u.due ⟨(), 1, ()⟩) ∧
            u.written = [some ⟨(), 0, ()⟩, some ⟨(), 1, ()⟩] := by
    refine ⟨_, _, _, rfl, ⟨⟨⟩, nofun, fun _ _ l _ => ?_⟩, rfl, rfl, rfl, rfl, ⟨?_, ?_⟩, rfl⟩
    · rintro ⟨b, hb, -, i, hw, hitem⟩
      obtain rfl : b = 0 := List.mem_singleton.mp hb
      by_cases hi : i = 1
      · subst hi
        cases hitem
      by_cases hi' : i = 0
      · subst hi'
        cases hitem
      · have hfree : Function.update (Function.update (fun _ => false) 0 true) 1 true i = true := hw
        rw [Function.update_of_ne hi, Function.update_of_ne hi'] at hfree
        cases hfree
    · exact ⟨(), .head _, nofun⟩
    · exact ⟨(), .tail _ (.head _), nofun⟩
  have hr : (machine queue).Reach Flushes u :=
    ((Goes.reach (.of_exec (.init ⟨_, rfl, rfl⟩) hs)).step hempty ht).step hdone hu
  obtain ⟨C⟩ := LogLine.nonempty_clock
  -- the argument of each line is its number
  choose render hrender hprints using fun l : LogLine Unit Unit =>
    FileWriter.prints_of_clean C MengSen.LogLine.emptyHeader [.uint64 (.ofNat l.number)]
      (List.forall_mem_singleton.mpr trivial)
  obtain ⟨text, hprints⟩ : ∃ text : LogLine Unit Unit → List UInt8,
      ∀ l, Prints MengSen.LogLine.emptyLiterals C (render l) (text l) := ⟨_, hprints⟩
  obtain ⟨ls, w, p, hls, -, -, -, hrun, hcut, hfiles⟩ := added_in_files hr
    MengSen.LogLine.emptyLiterals C render hprints (detail.literal "/tmp/") (detail.literal "log") 4096
    fun _ => none
  obtain rfl : ls = [⟨(), 0, ()⟩, ⟨(), 1, ()⟩] :=
    List.map_injective_iff.mpr (Option.some_injective _) (hls.symm.trans hwritten)
  obtain ⟨hclosed, hlast⟩ := hcut.singletons fun x hx => by
    obtain ⟨l, -, rfl⟩ := List.mem_map.mp hx
    exact List.length_pos_iff.mpr (hprints l).ne_nil
  rw [hclosed, hlast] at hfiles
  refine ⟨u, C, render, text, w, hprints, hr, howner, hdue.1, hdue.2, hrun, ?_⟩
  show Files (detail.literal "/tmp/" ++ detail.literal "log") _ _ _
  simpa using hfiles

end MengSen.Log.Logger

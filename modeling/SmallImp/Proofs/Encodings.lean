import SmallImp.Proofs.CodePoints
import SmallImp.Proofs.Computation
import SmallImp.Proofs.Congruences

/-!
# Streams that refuse texts

A stream that encodes what it takes refuses a text with a surrogate, and the run that wrote it fails.
Whether this happens to a run can be told from the run of the same program on streams that take every
text: if all that is written there can be encoded, then both runs are the same, and otherwise the run
on the encoding streams fails.

* `Log.Fits` — output that streams take;
* `Restricted` — a computation does what another one does, as long as the output fits;
* `restrictedCongruence` — expressions, statements and calls on streams that refuse texts;
* `Interpreter.freeLog`, `Interpreter.run_eq_or_unencodable` — whole runs.
-/

namespace SmallImp

/-! ### Output that streams take -/

theorem Encoding.takes_append (stream : Encoding) (text text' : Codes) :
    stream.takes (text ++ text') = (stream.takes text && stream.takes text') := by
  cases stream with
  | any => rfl
  | utf8 => exact Codes.isPlain_append text text'

/-- The streams take all that was printed and traced. -/
structure Log.Fits (streams : Streams) (log : Log) : Prop where
  out : streams.out.takes log.out = true
  trace : ∀ line ∈ log.trace, streams.trace.takes line = true

section

variable {streams : Streams} {log : Log}

theorem Log.fits_empty : Log.empty.Fits streams := by
  refine ⟨?_, by simp [Log.empty]⟩
  cases streams.out with
  | any => rfl
  | utf8 => rfl

theorem Log.fits_write {text : Codes} :
    (log.write text).Fits streams ↔ log.Fits streams ∧ streams.out.takes text = true := by
  constructor
  · rintro ⟨hout, htrace⟩
    rw [Log.write, Encoding.takes_append, Bool.and_eq_true] at hout
    exact ⟨⟨hout.1, htrace⟩, hout.2⟩
  · rintro ⟨⟨hout, htrace⟩, htext⟩
    refine ⟨?_, htrace⟩
    rw [Log.write, Encoding.takes_append, hout, htext]
    rfl

theorem Log.fits_note {line : Codes} :
    (log.note line).Fits streams ↔ log.Fits streams ∧ streams.trace.takes line = true := by
  constructor
  · rintro ⟨hout, htrace⟩
    exact ⟨⟨hout, fun l hl => htrace l (Array.mem_push.mpr (.inl hl))⟩,
      htrace line (Array.mem_push.mpr (.inr rfl))⟩
  · rintro ⟨⟨hout, htrace⟩, hline⟩
    refine ⟨hout, fun l hl => ?_⟩
    rcases Array.mem_push.mp hl with hl | rfl
    · exact htrace l hl
    · exact hline

end

/-! ### Computations that may be refused a text -/

variable {ε σ α β : Type}

/-- The state in which a computation ends, whether it fails or not. -/
def finalState : EStateM.Result ε σ α → σ
  | .ok _ st => st
  | .error _ st => st

/-- The first computation does what the second one does, if what the second one writes fits. It fails
to encode a text otherwise, as nothing that was written is taken back. -/
structure Restricted (Fits : σ → Prop) (x y : EStateM Failure σ α) : Prop where
  keeps : ∀ st, ¬Fits st → ¬Fits (finalState (y st))
  same : ∀ st, Fits (finalState (y st)) → x st = y st
  refused : ∀ st, Fits st → ¬Fits (finalState (y st)) → ∃ st', x st = .error .unencodable st'

namespace Restricted

variable {Fits : σ → Prop}

/-- A computation that writes nothing. -/
theorem silent {x : EStateM Failure σ α} (h : ∀ st, Fits (finalState (x st)) ↔ Fits st) :
    Restricted Fits x x where
  keeps st hst hfinal := hst ((h st).mp hfinal)
  same _ _ := rfl
  refused st hst hfinal := absurd ((h st).mpr hst) hfinal

theorem pure (a : α) : Restricted Fits (Pure.pure a) (Pure.pure a) := silent fun _ => Iff.rfl

theorem throw (e : Failure) : Restricted (α := α) Fits (throw e) (throw e) := silent fun _ => Iff.rfl

theorem bind {x y : EStateM Failure σ α} {f g : α → EStateM Failure σ β} (h : Restricted Fits x y)
    (hf : ∀ a, Restricted Fits (f a) (g a)) : Restricted Fits (x >>= f) (y >>= g) := by
  refine ⟨fun st hst => ?_, fun st hfinal => ?_, fun st hst hfinal => ?_⟩
  · have hy := h.keeps st hst
    cases hx : y st with
    | ok a st' =>
      rw [hx] at hy
      rw [bind_of_ok hx]
      exact (hf a).keeps st' hy
    | error e st' =>
      rw [hx] at hy
      rw [bind_of_error hx]
      exact hy
  · cases hy : y st with
    | ok a st' =>
      rw [bind_of_ok hy] at hfinal ⊢
      have hst' : Fits (finalState (y st)) := by
        rw [hy]
        exact Classical.byContradiction fun hst' => (hf a).keeps st' hst' hfinal
      rw [bind_of_ok ((h.same st hst').trans hy)]
      exact (hf a).same st' hfinal
    | error e st' =>
      rw [bind_of_error hy] at hfinal ⊢
      rw [bind_of_error ((h.same st (by rw [hy]; exact hfinal)).trans hy)]
  · by_cases hst' : Fits (finalState (y st))
    · cases hy : y st with
      | ok a st' =>
        rw [bind_of_ok hy] at hfinal
        rw [bind_of_ok ((h.same st hst').trans hy)]
        rw [hy] at hst'
        exact (hf a).refused st' hst' hfinal
      | error e st' =>
        rw [bind_of_error hy] at hfinal
        rw [hy] at hst'
        exact absurd hst' hfinal
    · obtain ⟨st', hx⟩ := h.refused st hst hst'
      exact ⟨st', bind_of_error hx⟩

/-- A text that is written to a stream that may refuse it. -/
theorem written {text : Codes} {stream : Encoding} {write : σ → σ}
    (h : ∀ st, Fits (write st) ↔ Fits st ∧ stream.takes text = true) :
    Restricted Fits (if stream.takes text then modify write else MonadExcept.throw Failure.unencodable)
      (modify write : EStateM Failure σ Unit) where
  keeps st hst hfinal := hst ((h st).mp hfinal).1
  same st hfinal := by rw [if_pos ((h st).mp hfinal).2]
  refused st hst hfinal := by
    rw [if_neg fun htakes => hfinal ((h st).mpr ⟨hst, htakes⟩)]
    exact ⟨st, rfl⟩

end Restricted

/-! ### Expressions, statements and calls -/

/-- A setting with the same builtins, functions and limits, on streams that take every text. -/
def Setting.free {streams : Streams} (s : Setting streams) : Setting :=
  ⟨s.builtins, s.functions, s.verbosity, s.turns⟩

section

variable {streams : Streams}

theorem Eval.write_restricted (text : Codes) :
    Restricted (Log.Fits streams) (Eval.write streams.out text) (Eval.write .any text) :=
  .written fun _ => Log.fits_write

theorem Eval.note_restricted (verbosity level : Nat) (line : Codes) :
    Restricted (Log.Fits streams) (Eval.note streams.trace verbosity level line)
      (Eval.note .any verbosity level line) := by
  unfold Eval.note
  split
  · exact .written fun _ => Log.fits_note
  · exact .pure ()

theorem Exec.note_restricted (verbosity level : Nat) (line : Codes) :
    Restricted (fun st : Store => st.log.Fits streams) (Exec.note streams.trace verbosity level line)
      (Exec.note .any verbosity level line) := by
  unfold Exec.note
  split
  · exact .written fun _ => Log.fits_note
  · exact .pure ()

theorem finalState_ofEval (f : Scope → Eval α) (st : Store) :
    (finalState (Exec.ofEval f st)).log = finalState (f st.scope st.log) := by
  rw [Exec.ofEval]
  cases f st.scope st.log <;> rfl

theorem Exec.ofEval_restricted {f g : Scope → Eval α}
    (h : ∀ scope, Restricted (Log.Fits streams) (f scope) (g scope)) :
    Restricted (fun st : Store => st.log.Fits streams) (Exec.ofEval f) (Exec.ofEval g) where
  keeps st hst := by
    rw [finalState_ofEval]
    exact (h st.scope).keeps st.log hst
  same st hfinal := by
    rw [finalState_ofEval] at hfinal
    rw [Exec.ofEval, Exec.ofEval, (h st.scope).same st.log hfinal]
  refused st hst hfinal := by
    rw [finalState_ofEval] at hfinal
    obtain ⟨log, hlog⟩ := (h st.scope).refused st.log hst hfinal
    exact ⟨{ st with log }, by rw [Exec.ofEval, hlog]⟩

theorem Exec.update_restricted (f : Scope → Except Failure Scope) :
    Restricted (fun st : Store => st.log.Fits streams) (Exec.update f) (Exec.update f) := by
  refine .silent fun st => ?_
  rw [Exec.update]
  cases f st.scope <;> exact Iff.rfl

/-- The turns of a loop, by induction on how many it may take. -/
theorem repeatTurns_restricted {Fits : Store → Prop} {turn turn' : Exec (Option Completion)}
    (h : Restricted Fits turn turn') :
    ∀ turns, Restricted Fits (repeatTurns turn turns) (repeatTurns turn' turns) := by
  intro turns
  induction turns with
  | zero => exact .throw _
  | succ turns ih =>
    refine h.bind fun next => ?_
    cases next with
    | some c => exact .pure c
    | none => exact ih

theorem finalState_runBody (s : Setting streams) (call : Caller) (f : FuncDecl) (scope : Scope)
    (log : Log) : finalState (runBody s call f scope log) =
      (finalState (execBlock s call f.body ⟨scope, log⟩)).log := by
  rw [runBody]
  cases execBlock s call f.body ⟨scope, log⟩ with
  | ok c st => cases c <;> rfl
  | error e st => rfl

theorem runBody_restricted {s : Setting streams} {s' : Setting} {call call' : Caller} {f : FuncDecl}
    (h : Restricted (fun st : Store => st.log.Fits streams) (execBlock s call f.body)
      (execBlock s' call' f.body)) (scope : Scope) :
    Restricted (Log.Fits streams) (runBody s call f scope) (runBody s' call' f scope) where
  keeps log hlog := by
    rw [finalState_runBody]
    exact h.keeps ⟨scope, log⟩ hlog
  same log hfinal := by
    rw [finalState_runBody] at hfinal
    rw [runBody, runBody, h.same ⟨scope, log⟩ hfinal]
  refused log hlog hfinal := by
    rw [finalState_runBody] at hfinal
    obtain ⟨st, hst⟩ := h.refused ⟨scope, log⟩ hlog hfinal
    exact ⟨st.log, by rw [runBody, hst]⟩

/-- A run on streams that refuse texts does what a run on free streams does, as long as its output
fits. -/
def restrictedCongruence (s : Setting streams) : Congruence s s.free where
  OnEval := Restricted (Log.Fits streams)
  OnExec := Restricted fun st => st.log.Fits streams
  callee_eq _ _ := rfl
  evalPure := .pure
  evalThrow := .throw
  evalBind := .bind
  write := Eval.write_restricted
  evalNote _ := Eval.note_restricted _ _
  execPure := .pure
  execThrow := .throw
  execBind := .bind
  ofEval := Exec.ofEval_restricted
  update := Exec.update_restricted
  execNote _ := Exec.note_restricted _ _
  turns h := repeatTurns_restricted h s.turns
  body := runBody_restricted

end

/-! ### Runs -/

namespace Interpreter

variable {streams : Streams} (i : Interpreter streams)

/-- The streams take all that a run has written. -/
abbrev FitsIn (streams : Streams) (w : World) : Prop := w.log.Fits streams

theorem note_restricted (line : Codes) :
    Restricted (FitsIn streams) (i.note line) ((i.on .free).note line) := by
  have hverbosity : (i.on .free).verbosity = i.verbosity := rfl
  rw [note, note, hverbosity]
  split
  · exact .written fun _ => Log.fits_note
  · exact .pure ()

theorem write_restricted (text : Codes) :
    Restricted (FitsIn streams) (write streams text) (write .free text) :=
  .written fun _ => Log.fits_write

theorem register_restricted (func : Func) :
    Restricted (FitsIn streams) (i.register func) ((i.on .free).register func) := by
  rw [register, register]
  cases func.name? with
  | none => exact .throw _
  | some name =>
    dsimp only
    cases name.key with
    | error e => exact .throw e
    | ok key =>
      refine .bind (.silent fun _ => Iff.rfl) fun w => .bind (i.note_restricted _) fun _ => ?_
      exact .silent fun _ => Iff.rfl

theorem registerAll_restricted (functions : List Func) :
    Restricted (FitsIn streams) (i.registerAll functions) ((i.on .free).registerAll functions) := by
  induction functions with
  | nil => exact .pure ()
  | cons func rest ih => exact .bind (i.register_restricted func) fun _ => ih

theorem finalState_inScope (f : Setting streams → Caller → Exec α) (w : World) :
    (finalState (i.inScope f w)).log =
      (finalState (f (i.setting w.functions) (i.caller w.functions) ⟨w.scope, w.log⟩)).log := by
  rw [inScope]
  cases f (i.setting w.functions) (i.caller w.functions) ⟨w.scope, w.log⟩ <;> rfl

theorem execBlock_restricted (block : Block) :
    Restricted (FitsIn streams) (i.execBlock block) ((i.on .free).execBlock block) := by
  have hblock : ∀ functions, Restricted (fun st : Store => st.log.Fits streams)
      (SmallImp.execBlock (i.setting functions) (i.caller functions) block)
      (SmallImp.execBlock ((i.on .free).setting functions) ((i.on .free).caller functions) block) := by
    intro functions
    exact (restrictedCongruence (i.setting functions)).execBlock
      ((restrictedCongruence (i.setting functions)).callWithin i.budget.calls) block
  refine ⟨fun w hw => ?_, fun w hfinal => ?_, fun w hw hfinal => ?_⟩
  · rw [FitsIn, execBlock, finalState_inScope]
    exact (hblock w.functions).keeps _ hw
  · rw [FitsIn, execBlock, finalState_inScope] at hfinal
    rw [execBlock, execBlock, inScope, inScope, (hblock w.functions).same _ hfinal]
  · rw [FitsIn, execBlock, finalState_inScope] at hfinal
    obtain ⟨st, hst⟩ := (hblock w.functions).refused ⟨w.scope, w.log⟩ hw hfinal
    exact ⟨⟨w.functions, st.scope, st.log⟩, by rw [execBlock, inScope, hst]⟩

theorem reportAll_restricted (values : List (Name × Value)) :
    Restricted (FitsIn streams) (reportAll streams values) (reportAll .free values) := by
  induction values with
  | nil => exact .pure ()
  | cons entry rest ih => exact .bind (write_restricted _) fun _ => ih

theorem reportState_restricted :
    Restricted (FitsIn streams) (reportState streams) (reportState .free) := by
  refine .bind (write_restricted _) fun _ => .bind (.silent fun _ => Iff.rfl) fun w => ?_
  exact reportAll_restricted w.scope.values

theorem runMain_restricted (block : Block) :
    Restricted (FitsIn streams) (i.runMain block) ((i.on .free).runMain block) := by
  have hpresent : Restricted (FitsIn streams)
      (i.execBlock block >>= fun _ => if i.report then reportState streams else pure ())
      ((i.on .free).execBlock block >>= fun _ => if i.report then reportState .free else pure ()) := by
    refine .bind (i.execBlock_restricted block) fun _ => ?_
    split
    · exact reportState_restricted
    · exact .pure ()
  cases block with
  | absent => exact .pure ()
  | _ => exact hpresent

theorem finalState_run (p : Program) (w : World) :
    finalState (i.run p w) = finalState (i.runParts p w) := by
  rw [run]
  cases i.runParts p w <;> rfl

/-- **A run on streams that refuse texts does what a run on free streams does, as long as its output
fits.** -/
theorem run_restricted (p : Program) :
    Restricted (FitsIn streams) (i.run p) ((i.on .free).run p) := by
  have hparts : Restricted (FitsIn streams) (i.runParts p) ((i.on .free).runParts p) :=
    .bind (i.registerAll_restricted p.functions) fun _ => i.runMain_restricted p.main
  refine ⟨fun w hw => ?_, fun w hfinal => ?_, fun w hw hfinal => ?_⟩
  · rw [finalState_run]
    exact hparts.keeps w hw
  · rw [finalState_run] at hfinal
    rw [run, run, hparts.same w hfinal]
  · rw [finalState_run] at hfinal
    obtain ⟨w', hw'⟩ := hparts.refused w hw hfinal
    exact ⟨w', by rw [run, hw']; rfl⟩

/-- What the run of a program on free streams writes. -/
def freeLog (p : Program) : Log := (finalState ((i.on .free).run p .empty)).log

theorem run_of_fits {i : Interpreter streams} {p : Program} (h : (i.freeLog p).Fits streams) :
    i.run p .empty = (i.on .free).run p .empty :=
  (i.run_restricted p).same .empty h

/-- A run is the one on free streams if the streams take what this one writes, and fails to encode a text
otherwise. -/
theorem run_eq_or_unencodable (p : Program) :
    ((i.freeLog p).Fits streams ∧ i.run p .empty = (i.on .free).run p .empty) ∨
      (¬(i.freeLog p).Fits streams ∧ ∃ w, i.run p .empty = .error .unencodable w) := by
  by_cases h : (i.freeLog p).Fits streams
  · exact .inl ⟨h, run_of_fits h⟩
  · exact .inr ⟨h, (i.run_restricted p).refused .empty Log.fits_empty h⟩

end Interpreter

end SmallImp

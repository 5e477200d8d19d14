import SmallImp.Proofs.Computation
import SmallImp.Proofs.Congruences
import SmallImp.Proofs.Rules

/-!
# Budgets

A run is limited in the nesting of its calls and in the turns of each loop. A larger budget changes
nothing in a run that did not run out of the smaller one.

* `Task.perform` — carrying out a task within a budget;
* `cutShortCongruence`, `callWithin_cutShort` — what a smaller budget does to expressions, statements
  and calls;
* `Task.perform_cutShort` — what it does to any task.
-/

namespace SmallImp

/-- Carries out a task, with calls nested up to a depth. -/
def Task.perform (s : Setting) (depth : Nat) : Task → Exec Outcome
  | .eval e => Outcome.value <$> Exec.ofEval fun scope => SmallImp.eval s (callWithin s depth) scope e
  | .evalAll args =>
    Outcome.values <$> Exec.ofEval fun scope => SmallImp.evalAll s (callWithin s depth) scope args
  | .print args =>
    Outcome.value <$> Exec.ofEval fun scope => printAll s (callWithin s depth) scope args
  | .call f args => Outcome.value <$> Exec.ofEval fun _ => callWithin s depth f args
  | .exec stmt => Outcome.completed <$> SmallImp.exec s (callWithin s depth) stmt
  | .execAll body => Outcome.completed <$> SmallImp.execAll s (callWithin s depth) body

/-! ### Expressions, statements and calls -/

/-- More turns of a loop change nothing, unless the fewer were not enough. -/
theorem repeatTurns_cutShort {turn turn' : Exec (Option Completion)} (h : CutShort turn turn') :
    ∀ {turns turns' : Nat}, turns ≤ turns' →
      CutShort (repeatTurns turn turns) (repeatTurns turn' turns') := by
  intro turns
  induction turns with
  | zero =>
    intro turns' _
    exact .exhausted .turns _
  | succ turns ih =>
    intro turns' hle
    obtain ⟨rest, rfl⟩ : ∃ rest, turns' = rest + 1 := ⟨turns' - 1, by omega⟩
    refine h.bind fun completion => ?_
    cases completion with
    | some c => exact .refl _
    | none => exact ih (by omega)

theorem runBody_cutShort {s s' : Setting} {call call' : Caller} {f : FuncDecl}
    (h : CutShort (execBlock s call f.body) (execBlock s' call' f.body)) (scope : Scope) :
    CutShort (runBody s call f scope) (runBody s' call' f scope) := by
  intro log
  rcases h ⟨scope, log⟩ with ⟨resource, st, h⟩ | h
  · exact .inl ⟨resource, st.log, by rw [runBody, h]⟩
  · exact .inr (by rw [runBody, runBody, h])

/-- The setting in which loops take another number of turns at most. -/
abbrev Setting.within (s : Setting) (turns : Nat) : Setting := { s with turns }

/-- A run with fewer turns is cut short. -/
def cutShortCongruence (s : Setting) {turns turns' : Nat} (hturns : turns ≤ turns') :
    Congruence (s.within turns) (s.within turns') where
  OnEval := CutShort
  OnExec := CutShort
  callee_eq _ _ := rfl
  evalPure _ := .refl _
  evalThrow _ := .refl _
  evalBind := .bind
  write _ := .refl _
  evalNote _ _ := .refl _
  execPure _ := .refl _
  execThrow _ := .refl _
  execBind := .bind
  ofEval := .ofEval
  update _ := .refl _
  execNote _ _ := .refl _
  turns h := repeatTurns_cutShort h hturns
  body := runBody_cutShort

variable {s : Setting} {turns turns' : Nat}

/-- More nesting of calls changes nothing, unless the less was not enough. -/
theorem callWithin_cutShort (hturns : turns ≤ turns') : ∀ {depth depth' : Nat}, depth ≤ depth' →
    (cutShortCongruence s hturns).OnCalls (callWithin (s.within turns) depth)
      (callWithin (s.within turns') depth') := by
  intro depth
  induction depth with
  | zero =>
    intro depth' _ f args
    exact CutShort.exhausted .calls _
  | succ depth ih =>
    intro depth' hle
    obtain ⟨rest, rfl⟩ : ∃ rest, depth' = rest + 1 := ⟨depth' - 1, by omega⟩
    exact (cutShortCongruence s hturns).callWith (ih (by omega))

/-! ### Tasks -/

/-- **A larger budget changes nothing in what did not run out of the smaller one.** -/
theorem Task.perform_cutShort (task : Task) (hturns : turns ≤ turns') {depth depth' : Nat}
    (hdepth : depth ≤ depth') : CutShort (task.perform (s.within turns) depth)
      (task.perform (s.within turns') depth') := by
  have hcall := callWithin_cutShort (s := s) hturns hdepth
  cases task with
  | eval e => exact .map _ (.ofEval fun scope => (cutShortCongruence s hturns).eval hcall scope e)
  | evalAll args =>
    exact .map _ (.ofEval fun scope => (cutShortCongruence s hturns).evalAll hcall scope args)
  | print args =>
    exact .map _ (.ofEval fun scope => (cutShortCongruence s hturns).printAll hcall scope args)
  | call f args => exact .map _ (.ofEval fun _ => hcall f args)
  | exec stmt => exact .map _ ((cutShortCongruence s hturns).exec hcall stmt)
  | execAll body => exact .map _ ((cutShortCongruence s hturns).execAll hcall body)

end SmallImp

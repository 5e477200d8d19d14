import SmallImp.Proofs.Congruences
import SmallImp.Proofs.Isolation

/-!
# Two runs in step

Nothing that a run does depends on what has been printed or traced before. Two runs of a program that
start with the same functions and variables go step by step alike: each reads, writes and fails as the
other does. So a relation between their outputs holds at the end if it held at the start, provided that
printing and tracing keep it.

* `InStep` — two computations that end alike when they start alike;
* `Log.Kept` — relations between outputs that printing and tracing keep;
* `Store.Linked`, `World.Linked` — states of two runs that differ in their outputs only;
* `inStepCongruence` — expressions, statements and calls of two runs;
* `Interpreter.run_linked` — two runs of a program.
-/

namespace SmallImp

theorem SameEnding.mono {ε σ α : Type} {R R' : σ → σ → Prop} {r r' : EStateM.Result ε σ α}
    (h : SameEnding R r r') (hR : ∀ st st', R st st' → R' st st') : SameEnding R' r r' := by
  cases h with
  | ok h => exact .ok (hR _ _ h)
  | error h => exact .error (hR _ _ h)

/-- From states that are related, two computations end in the same way, in states that are related. -/
def InStep {ε σ α : Type} (R : σ → σ → Prop) (x y : EStateM ε σ α) : Prop :=
  ∀ st st', R st st' → SameEnding R (x st) (y st')

namespace InStep

variable {ε σ α β : Type} {R : σ → σ → Prop}

theorem pure (a : α) : InStep R (Pure.pure a : EStateM ε σ α) (Pure.pure a) := fun _ _ h => .ok h

theorem throw (e : ε) : InStep R (throw e : EStateM ε σ α) (throw e) := fun _ _ h => .error h

theorem bind {x y : EStateM ε σ α} {f g : α → EStateM ε σ β} (h : InStep R x y)
    (hf : ∀ a, InStep R (f a) (g a)) : InStep R (x >>= f) (y >>= g) :=
  fun st st' hst => (h st st' hst).bind fun a st₁ st₂ hst => hf a st₁ st₂ hst

end InStep

/-! ### Outputs -/

/-- A line as it is traced by a run of the given verbosity. -/
def Log.noteAt (verbosity level : Nat) (line : Codes) (log : Log) : Log :=
  if level ≤ verbosity then log.note line else log

/-- A relation between the outputs of two runs of the given verbosities that is kept when both print
the same text, and when both come to a line of one of the three levels. -/
structure Log.Kept (d d' : Nat) (R : Log → Log → Prop) : Prop where
  write : ∀ {log log' : Log}, R log log' → ∀ text, R (log.write text) (log'.write text)
  note : ∀ {log log' : Log}, R log log' → ∀ {level : Nat}, level ≤ 3 → ∀ line,
    R (log.noteAt d level line) (log'.noteAt d' level line)

/-- The stores of two runs. -/
structure Store.Linked (R : Log → Log → Prop) (st st' : Store) : Prop where
  scope : st.scope = st'.scope
  log : R st.log st'.log

/-- The worlds of two runs. -/
structure World.Linked (R : Log → Log → Prop) (w w' : World) : Prop where
  functions : w.functions = w'.functions
  scope : w.scope = w'.scope
  log : R w.log w'.log

section

variable {d d' : Nat} {R : Log → Log → Prop} {α : Type}

theorem Eval.write_inStep (hR : Log.Kept d d' R) (text : Codes) :
    InStep R (Eval.write .any text) (Eval.write .any text) :=
  fun _ _ h => .ok (hR.write h text)

theorem Eval.note_eq (verbosity level : Nat) (line : Codes) (log : Log) :
    Eval.note .any verbosity level line log = .ok () (log.noteAt verbosity level line) := by
  rw [Eval.note, Log.noteAt]
  split <;> rfl

theorem Eval.note_inStep (hR : Log.Kept d d' R) {level : Nat} (hlevel : level ≤ 3) (line : Codes) :
    InStep R (Eval.note .any d level line) (Eval.note .any d' level line) := by
  intro log log' h
  rw [Eval.note_eq, Eval.note_eq]
  exact .ok (hR.note h hlevel line)

theorem Exec.ofEval_inStep {f g : Scope → Eval α} (h : ∀ scope, InStep R (f scope) (g scope)) :
    InStep (Store.Linked R) (Exec.ofEval f) (Exec.ofEval g) := by
  rintro ⟨scope, log⟩ ⟨_, log'⟩ ⟨⟨rfl⟩, hlog⟩
  have hend := h scope log log' hlog
  simp only [Exec.ofEval]
  generalize f scope log = r, g scope log' = r' at hend
  cases hend with
  | ok hlog => exact .ok ⟨rfl, hlog⟩
  | error hlog => exact .error ⟨rfl, hlog⟩

theorem Exec.update_inStep (f : Scope → Except Failure Scope) :
    InStep (Store.Linked R) (Exec.update f) (Exec.update f) := by
  rintro ⟨scope, log⟩ ⟨_, log'⟩ ⟨⟨rfl⟩, hlog⟩
  simp only [Exec.update]
  cases f scope with
  | ok scope' => exact .ok ⟨rfl, hlog⟩
  | error e => exact .error ⟨rfl, hlog⟩

theorem Exec.note_inStep (hR : Log.Kept d d' R) {level : Nat} (hlevel : level ≤ 3) (line : Codes) :
    InStep (Store.Linked R) (Exec.note .any d level line) (Exec.note .any d' level line) := by
  have hnote : ∀ (verbosity : Nat) (st : Store), Exec.note .any verbosity level line st =
      .ok () { st with log := st.log.noteAt verbosity level line } := by
    intro verbosity st
    rw [Exec.note, Log.noteAt]
    split <;> rfl
  intro st st' h
  rw [hnote, hnote]
  exact .ok ⟨h.scope, hR.note h.log hlevel line⟩

end

/-! ### Expressions, statements and calls -/

/-- The turns of two loops, by induction on how many they may take. -/
theorem repeatTurns_inStep {R : Store → Store → Prop} {turn turn' : Exec (Option Completion)}
    (h : InStep R turn turn') :
    ∀ turns, InStep R (repeatTurns turn turns) (repeatTurns turn' turns) := by
  intro turns
  induction turns with
  | zero => exact .throw _
  | succ turns ih =>
    refine h.bind fun next => ?_
    cases next with
    | some c => exact .pure c
    | none => exact ih

theorem runBody_inStep {R : Log → Log → Prop} {s s' : Setting} {call call' : Caller} {f : FuncDecl}
    (h : InStep (Store.Linked R) (execBlock s call f.body) (execBlock s' call' f.body))
    (scope : Scope) : InStep R (runBody s call f scope) (runBody s' call' f scope) := by
  intro log log' hlog
  have hend := h ⟨scope, log⟩ ⟨scope, log'⟩ ⟨rfl, hlog⟩
  simp only [runBody]
  generalize execBlock s call f.body ⟨scope, log⟩ = r,
    execBlock s' call' f.body ⟨scope, log'⟩ = r' at hend
  cases hend with
  | @ok c st st' hst =>
    cases c with
    | normal => exact .error hst.log
    | returned value => exact .ok hst.log
  | error hst => exact .error hst.log

/-- The setting of another verbosity. -/
abbrev Setting.tracing (s : Setting) (verbosity : Nat) : Setting := { s with verbosity }

/-- Two runs of different verbosities go in step. -/
def inStepCongruence {R : Log → Log → Prop} {s : Setting} {d' : Nat}
    (hR : Log.Kept s.verbosity d' R) : Congruence s (s.tracing d') where
  OnEval := InStep R
  OnExec := InStep (Store.Linked R)
  callee_eq _ _ := rfl
  evalPure := .pure
  evalThrow := .throw
  evalBind := .bind
  write := Eval.write_inStep hR
  evalNote := Eval.note_inStep hR
  execPure := .pure
  execThrow := .throw
  execBind := .bind
  ofEval := Exec.ofEval_inStep
  update := Exec.update_inStep
  execNote := Exec.note_inStep hR
  turns h := repeatTurns_inStep h s.turns
  body := runBody_inStep

/-! ### Runs -/

namespace Interpreter

theorem inScope_inStep {α : Type} {R : Log → Log → Prop} {i i' : Interpreter}
    {f : Setting → Caller → Exec α}
    (h : ∀ functions, InStep (Store.Linked R) (f (i.setting functions) (i.caller functions))
      (f (i'.setting functions) (i'.caller functions))) :
    InStep (World.Linked R) (i.inScope f) (i'.inScope f) := by
  rintro ⟨functions, scope, log⟩ ⟨_, _, log'⟩ ⟨⟨rfl⟩, ⟨rfl⟩, hlog⟩
  have hend := h functions ⟨scope, log⟩ ⟨scope, log'⟩ ⟨rfl, hlog⟩
  simp only [inScope]
  generalize f (i.setting functions) (i.caller functions) ⟨scope, log⟩ = r,
    f (i'.setting functions) (i'.caller functions) ⟨scope, log'⟩ = r' at hend
  cases hend with
  | ok h => exact .ok ⟨rfl, h.scope, h.log⟩
  | error h => exact .error ⟨rfl, h.scope, h.log⟩

/-- The report is the same for the same variables. -/
theorem reportState_inStep {d d' : Nat} {R : Log → Log → Prop} (hR : Log.Kept d d' R) :
    InStep (World.Linked R) (reportState .free) (reportState .free) := by
  intro w w' h
  rw [reportState_free, reportState_free, h.scope]
  exact .ok ⟨h.functions, rfl, hR.write h.log _⟩

/-- The same interpreter in another verbosity. -/
abbrev tracing (i : Interpreter) (verbosity : Nat) : Interpreter := { i with verbosity }

variable {i : Interpreter} {d' : Nat} {R : Log → Log → Prop} (hR : Log.Kept i.verbosity d' R)

include hR

theorem note_inStep (line : Codes) :
    InStep (World.Linked R) (i.note line) (note (i.tracing d') line) := by
  have hnote : ∀ (j : Interpreter) (w : World), j.note line w =
      .ok () { w with log := w.log.noteAt j.verbosity 1 line } := by
    intro j w
    rw [note, Log.noteAt]
    split <;> rfl
  intro w w' h
  rw [hnote, hnote]
  exact .ok ⟨h.functions, h.scope, hR.note h.log (by decide) line⟩

theorem register_inStep (func : Func) :
    InStep (World.Linked R) (i.register func) (register (i.tracing d') func) := by
  rw [register, register]
  cases func.name? with
  | none => exact .throw _
  | some name =>
    dsimp only
    cases name.key with
    | error e => exact .throw e
    | ok key =>
      rintro ⟨functions, scope, log⟩ ⟨_, _, log'⟩ ⟨⟨rfl⟩, ⟨rfl⟩, hlog⟩
      refine ((note_inStep hR _).bind fun _ => ?_) _ _ ⟨rfl, rfl, hlog⟩
      exact fun w w' h =>
        .ok ⟨congrArg (FunctionTable.define · key name func) h.functions, h.scope, h.log⟩

theorem registerAll_inStep (functions : List Func) : InStep (World.Linked R)
    (i.registerAll functions) (registerAll (i.tracing d') functions) := by
  induction functions with
  | nil => exact .pure ()
  | cons func rest ih => exact (register_inStep hR func).bind fun _ => ih

theorem execBlock_inStep (block : Block) :
    InStep (World.Linked R) (i.execBlock block) (execBlock (i.tracing d') block) := by
  refine inScope_inStep fun functions => ?_
  exact (inStepCongruence hR).execBlock ((inStepCongruence hR).callWithin i.budget.calls) block

theorem runMain_inStep (block : Block) :
    InStep (World.Linked R) (i.runMain block) (runMain (i.tracing d') block) := by
  have hpresent : InStep (World.Linked R)
      (i.execBlock block >>= fun _ => if i.report then reportState .free else pure ())
      (execBlock (i.tracing d') block >>= fun _ => if i.report then reportState .free else pure ()) := by
    refine (execBlock_inStep hR block).bind fun _ => ?_
    split
    · exact reportState_inStep hR
    · exact .pure ()
  cases block with
  | absent => exact .pure ()
  | _ => exact hpresent

/-- **Two runs of a program that start with the same functions and variables go alike**, and a relation
between their outputs that printing and tracing keep holds to the end. -/
theorem run_linked (p : Program) : InStep (World.Linked R) (i.run p) (run (i.tracing d') p) := by
  intro w w' h
  have hparts : InStep (World.Linked R) (i.runParts p) (runParts (i.tracing d') p) :=
    (registerAll_inStep hR p.functions).bind fun _ => runMain_inStep hR p.main
  have hend := hparts w w' h
  rw [run, run]
  generalize i.runParts p w = r, runParts (i.tracing d') p w' = r' at hend
  cases hend with
  | ok h => exact .ok h
  | error h => exact .error h

end Interpreter

end SmallImp

import SmallImp.Machine.Exec

/-!
# Runs of programs

A run registers the functions of a program, executes its main block in a scope, and reports the
variables of that scope.

* `Budget` — how deep calls may be nested and how many turns a loop may take;
* `World` — what a run changes;
* `Interpreter` — what stays fixed over several runs;
* `Interpreter.fresh` — a new interpreter;
* `Interpreter.run` — a whole run.
-/

namespace SmallImp

/-- The limits of a run. -/
structure Budget where
  calls : Nat
  turns : Nat

/-- Calls nested five thousand deep, and more turns than any loop will take. -/
def Budget.standard : Budget := ⟨5000, 1000000000000000000⟩

/-- What a run changes: the function table, the top-level scope, and the output. -/
structure World where
  functions : FunctionTable
  scope : Scope
  log : Log

/-- A world without functions, variables and output. -/
def World.empty : World := ⟨.empty, .empty, .empty⟩

/-- Computations of a whole run. -/
abbrev Run := EStateM Failure World

/-- What stays fixed over the runs of an interpreter. Unless others are named, its streams take every
text. -/
structure Interpreter (streams : Streams := .free) where
  builtins : BuiltinTable
  verbosity : Nat
  report : Bool
  budget : Budget

namespace Interpreter

variable {streams : Streams}

/-- A new interpreter: it has the standard builtins. -/
def fresh (verbosity : Nat) (report : Bool) (budget : Budget) (streams : Streams := .free) :
    Interpreter streams :=
  ⟨.standard, verbosity, report, budget⟩

/-- The same interpreter on other streams. -/
def on (i : Interpreter streams) (others : Streams) : Interpreter others :=
  ⟨i.builtins, i.verbosity, i.report, i.budget⟩

/-- The setting in which expressions and statements run, given the function table. -/
def setting (i : Interpreter streams) (functions : FunctionTable) : Setting streams :=
  ⟨i.builtins, functions, i.verbosity, i.budget.turns⟩

/-- How functions are called, given the function table. -/
def caller (i : Interpreter streams) (functions : FunctionTable) : Caller :=
  callWithin (i.setting functions) i.budget.calls

/-- Traces a line whenever anything is traced. -/
def note (i : Interpreter streams) (line : Codes) : Run Unit :=
  if 1 ≤ i.verbosity then
    if streams.trace.takes line then modify (fun w => { w with log := w.log.note line })
    else throw .unencodable
  else pure ()

/-- Prints a text at the top level. -/
def write (streams : Streams) (text : Codes) : Run Unit :=
  if streams.out.takes text then modify (fun w => { w with log := w.log.write text })
  else throw .unencodable

/-- Registers a function. -/
def register (i : Interpreter streams) (func : Func) : Run Unit := do
  match func.name? with
  | none => throw (.defect .missingField)
  | some name =>
    match name.key with
    | .error e => throw e
    | .ok key =>
      let w ← get
      i.note ((if (w.functions.find? key).isSome then "redefine" else "define") ++ " function "
        ++ name.text)
      modify fun w => { w with functions := FunctionTable.define w.functions key name func }

/-- Registers functions in order. -/
def registerAll (i : Interpreter streams) : List Func → Run Unit
  | [] => pure ()
  | func :: rest => do
    i.register func
    registerAll i rest

/-- An execution in the top-level scope. -/
def inScope {α : Type} (i : Interpreter streams) (f : Setting streams → Caller → Exec α) :
    Run α := fun w =>
  match f (i.setting w.functions) (i.caller w.functions) ⟨w.scope, w.log⟩ with
  | .ok a st => .ok a ⟨w.functions, st.scope, st.log⟩
  | .error e st => .error e ⟨w.functions, st.scope, st.log⟩

/-- Executes a block at the top level. -/
def execBlock (i : Interpreter streams) (block : Block) : Run Completion :=
  i.inScope fun s call => SmallImp.execBlock s call block

/-- Executes a statement at the top level. -/
def exec (i : Interpreter streams) (stmt : Stmt) : Run Completion :=
  i.inScope fun s call => SmallImp.exec s call stmt

/-- Evaluates an expression at the top level. -/
def eval (i : Interpreter streams) (e : Expr) : Run Value :=
  i.inScope fun s call => Exec.ofEval fun scope => SmallImp.eval s call scope e

/-- The line that reports a variable. -/
def reportLine (name : Name) (value : Value) : Codes := name.text ++ " = " ++ value.display ++ "\n"

/-- Prints a line for each variable. -/
def reportAll (streams : Streams) : List (Name × Value) → Run Unit
  | [] => pure ()
  | (name, value) :: rest => do
    write streams (reportLine name value)
    reportAll streams rest

/-- Prints the variables of the top-level scope below a title. -/
def reportState (streams : Streams) : Run Unit := do
  write streams "\n=== Program State ===\n"
  reportAll streams (← get).scope.values

/-- Runs the main block, if there is one, and reports the variables. -/
def runMain (i : Interpreter streams) : Block → Run Unit
  | .absent => pure ()
  | block => do
    let _ ← i.execBlock block
    if i.report then reportState streams

/-- Registers the functions of a program and runs its main block. -/
def runParts (i : Interpreter streams) (p : Program) : Run Unit := do
  i.registerAll p.functions
  i.runMain p.main

/-- The failure of a whole run: calls nested too deeply are an error of the language. -/
def runFailure : Failure → Failure
  | .exhausted .calls => .error .callDepth
  | failure => failure

/-- Runs a program. -/
def run (i : Interpreter streams) (p : Program) : Run Unit := fun w =>
  match i.runParts p w with
  | .ok () w => .ok () w
  | .error e w => .error (runFailure e) w

/-- Runs a tree; only a program node can be run. -/
def runNode (i : Interpreter streams) (node : Node) : Run Unit :=
  match Program.ofNode? node with
  | some p => i.run p
  | none => throw (.defect .missingField)

end Interpreter

end SmallImp

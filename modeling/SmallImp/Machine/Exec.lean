import SmallImp.Machine.Eval

/-!
# Execution of statements

A statement completes normally or returns a value; a returned value ends every enclosing block and
loop. A statement that fails leaves the scope as far as it got.

* `Store` — the scope and the output of a run;
* `Completion` — how a statement completes;
* `exec`, `execBlock`, `execAll` — statements, blocks and lists of statements;
* `callWithin` — calls nested up to a depth.
-/

namespace SmallImp

/-- The variables in scope and the output so far. -/
structure Store where
  scope : Scope
  log : Log

/-- How a statement completes. -/
inductive Completion where
  | normal
  | returned (value : Value)
deriving DecidableEq

/-- Computations that change variables. -/
abbrev Exec := EStateM Failure Store

namespace Exec

/-- An evaluation in the current scope. -/
def ofEval {α : Type} (f : Scope → Eval α) : Exec α := fun st =>
  match f st.scope st.log with
  | .ok a log => .ok a { st with log }
  | .error e log => .error e { st with log }

/-- A change of the current scope that may be refused. -/
def update (f : Scope → Except Failure Scope) : Exec Unit := fun st =>
  match f st.scope with
  | .ok scope => .ok () { st with scope }
  | .error e => .error e st

/-- Traces a line to a stream that may refuse it, if the verbosity reaches a level. -/
@[macro_inline]
def note (stream : Encoding) (verbosity level : Nat) (line : Codes) : Exec Unit :=
  if level ≤ verbosity then
    if stream.takes line then modify (fun st => { st with log := st.log.note line })
    else throw .unencodable
  else pure ()

end Exec

variable {streams : Streams}

/-- Takes turn after turn until one of them completes the loop. -/
def repeatTurns (turn : Exec (Option Completion)) : Nat → Exec Completion
  | 0 => throw (.exhausted .turns)
  | turns + 1 => do
    match ← turn with
    | some completion => return completion
    | none => repeatTurns turn turns

/-- The condition of the named statement. -/
def condition (s : Setting streams) (call : Caller) (statement : String) (e : Expr) : Exec Bool := do
  let value ← Exec.ofEval fun scope => eval s call scope e
  let holds ← Exec.ofEval fun _ => Eval.ofExcept (value.condition statement)
  Exec.note streams.trace s.verbosity 3 (statement ++ " condition -> " ++ (Value.bool holds).display)
  return holds

/-- One turn of a loop: nothing if it has to go on. -/
def loopTurn (test : Exec Bool) (body : Exec Completion) : Exec (Option Completion) := do
  if ← test then
    match ← body with
    | .normal => return none
    | .returned value => return some (.returned value)
  else return some .normal

/-- The start value of a declaration; without one the variable has the absent value. -/
def startValue (s : Setting streams) (call : Caller) (scope : Scope) : Option Expr → Eval Value
  | some e => eval s call scope e
  | none => pure .null

mutual

/-- Executes a statement. -/
def exec (s : Setting streams) (call : Caller) : Stmt → Exec Completion
  | .declare tag name start => do
    let value ← Exec.ofEval fun scope => startValue s call scope start
    Exec.update fun scope => scope.declare tag name value
    Exec.note streams.trace s.verbosity 2
      ("declare " ++ tag.text ++ " " ++ name.text ++ " = " ++ value.display)
    return .normal
  | .assign name e => do
    let value ← Exec.ofEval fun scope => eval s call scope e
    Exec.update fun scope => scope.assign name value
    Exec.note streams.trace s.verbosity 2 ("assign " ++ name.text ++ " = " ++ value.display)
    return .normal
  | .branch test yes no => do
    if ← condition s call "if" test then execBlock s call yes
    else execElse s call no
  | .loop test body =>
    repeatTurns (loopTurn (condition s call "while" test) (execBlock s call body)) s.turns
  | .ret e => do
    let value ← Exec.ofEval fun scope => eval s call scope e
    Exec.note streams.trace s.verbosity 2 ("return " ++ value.display)
    return .returned value
  | .expr e => do
    let _ ← Exec.ofEval fun scope => eval s call scope e
    return .normal
  | .block body => execAll s call body
  | .misfit node => throw (.defect (.notStatement node.className))

/-- Executes a block that has to be there. -/
def execBlock (s : Setting streams) (call : Caller) : Block → Exec Completion
  | .stmts body => execAll s call body
  | .main body => execAll s call body
  | .absent => throw (.defect .missingField)
  | .misfit _ => throw (.defect .missingField)

/-- Executes the block of an `else`, which may be missing. -/
def execElse (s : Setting streams) (call : Caller) : Block → Exec Completion
  | .stmts body => execAll s call body
  | .main body => execAll s call body
  | .absent => pure .normal
  | .misfit _ => throw (.defect .missingField)

/-- Executes statements until one of them returns. -/
def execAll (s : Setting streams) (call : Caller) : List Stmt → Exec Completion
  | [] => pure .normal
  | stmt :: rest => do
    match ← exec s call stmt with
    | .normal => execAll s call rest
    | .returned value => return .returned value

end

/-! ### Calls -/

/-- The scope of a call: each parameter with its argument. -/
def bindParams : Scope → List Param → List Value → Except Failure Scope
  | scope, p :: params, value :: values => do
    match p.binding? with
    | some (tag, name) => bindParams (← scope.declare tag name value) params values
    | none => throw (.defect .missingField)
  | scope, _, _ => return scope

/-- Runs the body of a function in a scope of its own, which is forgotten afterwards. -/
def runBody (s : Setting streams) (call : Caller) (f : FuncDecl) (scope : Scope) :
    Eval Value := fun log =>
  match execBlock s call f.body ⟨scope, log⟩ with
  | .ok (.returned value) st => .ok value st.log
  | .ok .normal st => .error (.error (.noReturn f.name)) st.log
  | .error e st => .error e st.log

/-- Calls a function, its body making further calls by `call`. -/
def callWith (s : Setting streams) (call : Caller) : Caller := fun f args => do
  let scope ← Eval.ofExcept (bindParams .empty f.params args)
  runBody s call f scope

/-- Calls that may be nested up to a depth. -/
def callWithin (s : Setting streams) : Nat → Caller
  | 0 => fun _ _ => throw (.exhausted .calls)
  | depth + 1 => callWith s (callWithin s depth)

end SmallImp

import SmallImp.Machine.Run
import SmallImp.Problem
import SmallImp.Source.Parser

/-!
# Sessions

A session is one interpreter with several top-level scopes. A new scope has a function table of its
own or shares that of another scope. What is traced goes to the trace file until the first run that
starts; that run closes the file, and from then on traced lines go to the error output.

* `Session` — the state of a session;
* `Step`, `Answer` — what can be asked, and the answers;
* `Session.step` — carrying out a step in a scope.
-/

namespace SmallImp

/-- A scope and the number of the function table that belongs to it. -/
structure Place where
  scope : Scope
  table : Nat
deriving Inhabited

/-- The state of a session. -/
structure Session where
  interpreter : Interpreter
  /-- Whether the trace file is still open. -/
  tracing : Bool
  /-- The content of the trace file. -/
  traceFile : Codes
  tables : Array FunctionTable
  places : Array Place

/-- What a step can ask for. Programs and trees are given as texts. -/
inductive Step where
  | run (source : String)
  | runTree (text : String)
  | exec (source : String)
  | eval (source : String)
  | execTree (text : String)
  | evalTree (text : String)
  | declare (name : Name) (tag : TypeTag) (value : Value)
  | assign (name : Name) (value : Value)
  | read (name : Name)
  | snapshot
  | define (source : String)
  | function (name : Name)
  | newScope (share : Bool)
  | report
  | debug (line : String)
  | builtin (name : String) (arity : Option Int)

/-- What a step answers. -/
inductive Answer where
  | done
  | bindings (values : List (Name × Value))
  | completion (c : Completion)
  | value (v : Value)
  | tree (node : Node)
  | scope (number : Nat)

/-- What a step answers or why it was not carried out, and what it wrote. -/
structure Reply where
  result : Except Problem Answer
  out : Codes
  err : Codes

namespace Session

/-- A session with one empty scope. -/
def new (interpreter : Interpreter) : Session :=
  ⟨interpreter, true, [], #[.empty], #[⟨.empty, 0⟩]⟩

/-- The world of a scope. -/
def world (s : Session) (number : Nat) : World :=
  let place := s.places.getD number default
  ⟨s.tables.getD place.table default, place.scope, .empty⟩

/-- Puts a world back into its scope. -/
def putWorld (s : Session) (number : Nat) (w : World) : Session :=
  let place := s.places.getD number default
  { s with
    tables := s.tables.setIfInBounds place.table w.functions,
    places := s.places.setIfInBounds number ⟨w.scope, place.table⟩ }

/-- The streams of a session: what is printed is collected, and the trace file is encoded as long as
it is open. -/
def streams (s : Session) : Streams := ⟨.any, if s.tracing then .utf8 else .any⟩

/-- The interpreter on the streams of the session. -/
def machine (s : Session) : Interpreter s.streams := s.interpreter.on s.streams

/-- Sends traced text to where it belongs; the answer is the part for the error output. -/
def route (s : Session) (text : Codes) : Codes × Session :=
  if s.tracing then ([], { s with traceFile := s.traceFile ++ text }) else (text, s)

/-- Carries out a computation in the world of a scope. -/
def perform (s : Session) (number : Nat) (action : Run Answer) : Reply × Session :=
  let (result, w) : Except Problem Answer × World :=
    match action (s.world number) with
    | .ok answer w => (.ok answer, w)
    | .error e w => (.error (.run e), w)
  let (err, s) := (s.putWorld number w).route w.log.traceText
  (⟨result, w.log.out, err⟩, s)

/-- A step that fails before anything is run. -/
def refuse (s : Session) (problem : Problem) : Reply × Session := (⟨.error problem, [], []⟩, s)

/-- A step that answers at once. -/
def reply (s : Session) (answer : Answer) : Reply × Session := (⟨.ok answer, [], []⟩, s)

/-- A step on the program of a text. -/
def withSource [Host] (s : Session) (source : String) (f : Program → Reply × Session) :
    Reply × Session :=
  match Source.parse source with
  | .ok p => f p
  | .error fault => s.refuse (.source fault)

/-- A step on the tree of a text. -/
def withTree [Host] (s : Session) (text : String) (f : Node → Reply × Session) : Reply × Session :=
  match Node.ofText text with
  | .ok node => f node
  | .error problem => s.refuse problem

/-- The variables of the world. -/
def currentBindings : Run Answer := return .bindings (← get).scope.values

/-- Starts a run; afterwards the trace file is closed. -/
def start (s : Session) (number : Nat) (action : Run Unit) : Reply × Session :=
  let (reply, s) := s.perform number (do action; currentBindings)
  (reply, { s with tracing := false })

/-- The expression of the first statement of a block, if that statement has one. -/
def firstExpr : Block → Except Failure Expr
  | .main (.expr e :: _) => .ok e
  | .main (.declare _ _ (some e) :: _) => .ok e
  | .main (.declare _ _ none :: _) => .ok (.misfit .absent)
  | .main [] => .error (.defect .noStatement)
  | _ => .error (.defect .missingField)

/-- Evaluates an expression. -/
def evaluate (s : Session) (number : Nat) (e : Expr) : Reply × Session :=
  s.perform number (return .value (← s.machine.eval e))

/-- Registers functions without tracing it. -/
def defineAll : List Func → Run Unit
  | [] => pure ()
  | func :: rest => do
    match func.name? with
    | none => throw (.defect .missingField)
    | some name =>
      match name.key with
      | .error e => throw e
      | .ok key => modify fun w => { w with functions := FunctionTable.define w.functions key name func }
    defineAll rest

/-- A change of the scope of a world. -/
def updateScope (f : Scope → Except Failure Scope) : Run Answer := do
  let w ← get
  match f w.scope with
  | .ok scope =>
    set { w with scope }
    return .done
  | .error e => throw e

/-- The value of a variable. -/
def readVariable (name : Name) : Run Answer := do
  match (← get).scope.read name with
  | .ok value => return .value value
  | .error e => throw e

/-- The tree of a registered function; it is absent if there is none. -/
def functionTree (name : Name) : Run Answer := do
  match name.key with
  | .ok key =>
    match (← get).functions.find? key with
    | some r => return .tree r.func.toNode
    | none => return .tree .absent
  | .error e => throw e

/-- Adds a scope, with the function table of another scope or with a new one. -/
def addScope (s : Session) (number : Nat) (share : Bool) : Reply × Session :=
  let answer := Answer.scope s.places.size
  if share then
    let place := s.places.getD number default
    { s with places := s.places.push ⟨.empty, place.table⟩ }.reply answer
  else
    { s with
      tables := s.tables.push .empty,
      places := s.places.push ⟨.empty, s.tables.size⟩ }.reply answer

/-- Provides a builtin that evaluates its arguments and gives the value of the last one. -/
def addBuiltin (s : Session) (name : String) (arity : Option Int) : Session :=
  { s with
    interpreter :=
      { s.interpreter with builtins := s.interpreter.builtins.provide ⟨name, arity, .last⟩ } }

/-- Carries out a step in the scope of the given number. -/
def step [Host] (s : Session) (number : Nat) : Step → Reply × Session
  | .run source => s.withSource source fun p => s.start number (s.machine.run p)
  | .runTree text => s.withTree text fun node => s.start number (s.machine.runNode node)
  | .exec source =>
    s.withSource ("main \x7b" ++ source ++ "\n\x7d") fun p =>
      s.perform number (return .completion (← s.machine.execBlock p.main))
  | .eval source =>
    s.withSource ("main \x7b" ++ source ++ ";\n\x7d") fun p =>
      match firstExpr p.main with
      | .ok e => s.evaluate number e
      | .error e => s.refuse (.run e)
  | .execTree text =>
    s.withTree text fun node =>
      s.perform number (return .completion (← s.machine.exec (.ofNode node)))
  | .evalTree text => s.withTree text fun node => s.evaluate number (.ofNode node)
  | .declare name tag value => s.perform number (updateScope (·.declare tag name value))
  | .assign name value => s.perform number (updateScope (·.assign name value))
  | .read name => s.perform number (readVariable name)
  | .snapshot => s.perform number currentBindings
  | .define source =>
    s.withSource source fun p =>
      s.perform number (do
        defineAll p.functions
        return .done)
  | .function name => s.perform number (functionTree name)
  | .newScope share => s.addScope number share
  | .report =>
    s.perform number (do
      Interpreter.reportState s.streams
      return .done)
  | .debug line =>
    s.perform number (do
      s.machine.note line
      return .done)
  | .builtin name arity => (s.addBuiltin name arity).reply .done

end Session

end SmallImp

import SmallImp.Machine.Log
import SmallImp.Scope

/-!
# Evaluation of expressions

Both operands of an operator are evaluated, the left one first. A call looks for a builtin, then for
a registered function; the number of arguments is checked before any of them is evaluated. An
expression reads its scope and never changes it.

* `Setting` — what stays fixed while a program runs on given streams;
* `Caller` — how the body of a function is run;
* `eval` — the value of an expression.
-/

namespace SmallImp

/-- What stays fixed while a program runs: the builtins, the registered functions, how much is
traced, and how many turns a loop may take. Unless others are named, the streams of the run take
every text. -/
structure Setting (streams : Streams := .free) where
  builtins : BuiltinTable
  functions : FunctionTable
  verbosity : Nat
  turns : Nat

variable {streams : Streams}

/-- Runs the body of a function on its arguments. -/
abbrev Caller := FuncDecl → List Value → Eval Value

/-- Whether a builtin takes this number of arguments. -/
def Builtin.takes (b : Builtin) (count : Nat) : Bool :=
  match b.arity with
  | some arity => arity = count
  | none => true

/-- The line traced for a call. -/
def callLine (name : Name) (args : List Value) : Codes :=
  "call " ++ name.text ++ "(" ++ (Codes.ofString ", ").intercalate (args.map Value.display) ++ ")"

/-- What a call refers to. -/
inductive Callee where
  | builtin (b : Builtin)
  | func (f : FuncDecl)

/-- What a call of a name with a number of arguments refers to. -/
def Setting.callee (s : Setting streams) (name : Name) (count : Nat) : Except Failure Callee := do
  let key ← name.key
  match s.builtins.find? key with
  | some b =>
    if b.takes count then return .builtin b
    else throw (.error (.builtinArguments b.name (b.arity.getD 0)))
  | none =>
    match s.functions.find? key with
    | none => throw (.error (.unknownFunction name))
    | some ⟨_, .misfit _⟩ => throw (.defect .missingField)
    | some ⟨_, .decl f⟩ =>
      if count = f.params.length then return .func f
      else throw (.error (.arguments f.name f.params.length count))

mutual

/-- The value of an expression. -/
def eval (s : Setting streams) (call : Caller) (scope : Scope) : Expr → Eval Value
  | .lit value => pure value.value
  | .var name => Eval.ofExcept (scope.read name)
  | .binary left op right => do
    let a ← eval s call scope left
    let b ← eval s call scope right
    Eval.ofExcept (op.apply a b)
  | .unary op operand => do
    let a ← eval s call scope operand
    Eval.ofExcept (op.apply a)
  | .call name args => do
    match ← Eval.ofExcept (s.callee name args.length) with
    | .builtin b =>
      match b.action with
      | .print => printAll s call scope args
      | .last => evalLast s call scope .null args
    | .func f => do
      let values ← evalAll s call scope args
      Eval.note streams.trace s.verbosity 1 (callLine f.name values)
      call f values
  | .misfit node => throw (.defect (.notExpression node.className))

/-- The values of expressions, from left to right. -/
def evalAll (s : Setting streams) (call : Caller) (scope : Scope) : List Expr → Eval (List Value)
  | [] => pure []
  | e :: rest => do
    let value ← eval s call scope e
    let values ← evalAll s call scope rest
    return value :: values

/-- Prints expressions on one line, each as soon as it is evaluated. -/
def printAll (s : Setting streams) (call : Caller) (scope : Scope) : List Expr → Eval Value
  | [] => do
    Eval.write streams.out "\n"
    return .null
  | [e] => do
    let value ← eval s call scope e
    Eval.write streams.out value.display
    Eval.write streams.out "\n"
    return .null
  | e :: next :: rest => do
    let value ← eval s call scope e
    Eval.write streams.out value.display
    Eval.write streams.out " "
    printAll s call scope (next :: rest)

/-- The value of the last expression, or the given value if there is none. -/
def evalLast (s : Setting streams) (call : Caller) (scope : Scope) (last : Value) :
    List Expr → Eval Value
  | [] => pure last
  | e :: rest => do
    let value ← eval s call scope e
    evalLast s call scope value rest

end

end SmallImp

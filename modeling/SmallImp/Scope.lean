import SmallImp.Failure
import SmallImp.Program
import SmallImp.Table

/-!
# Scopes and function tables

A scope holds the variables of one function call or of the top level. Scopes have no parent: a
called function sees its parameters and the function table only.

* `Scope.read`, `Scope.assign`, `Scope.declare` — the variables of a scope;
* `FunctionTable.define` — registering a function;
* `Builtin`, `BuiltinTable` — functions that the host provides.
-/

namespace SmallImp

/-- A variable: its name as it was first declared, the type it was last declared with, and its
value. -/
structure Binding where
  name : Name
  tag : TypeTag
  value : Value

/-- The variables of one function call or of the top level, in the order of first declaration. -/
abbrev Scope := Table Binding

namespace Scope

/-- The value of a variable. -/
def read (scope : Scope) (name : Name) : Except Failure Value := do
  let key ← name.key
  match scope.find? key with
  | some b => return b.value
  | none => throw (.error (.unbound name))

/-- Gives a new value to a variable that has been declared. -/
def assign (scope : Scope) (name : Name) (value : Value) : Except Failure Scope := do
  let key ← name.key
  match scope.find? key with
  | some b => return scope.upsert key fun _ => { b with value }
  | none => throw (.error (.unbound name))

/-- Declares a variable; one declared before keeps its place and takes the new type and value. -/
def declare (scope : Scope) (tag : TypeTag) (name : Name) (value : Value) :
    Except Failure Scope := do
  let key ← name.key
  return scope.upsert key fun
    | some b => { b with tag, value }
    | none => ⟨name, tag, value⟩

/-- The names and values of the variables. -/
def values (scope : Scope) : List (Name × Value) := scope.entries.map fun b => (b.name, b.value)

/-- The names and types of the variables. -/
def tags (scope : Scope) : List (Name × TypeTag) := scope.entries.map fun b => (b.name, b.tag)

end Scope

/-- A registered function under the name it was first registered with. -/
structure Registered where
  name : Name
  func : Func

/-- The registered functions, in the order of first registration. -/
abbrev FunctionTable := Table Registered

/-- Registers a function under a name; the last one registered under a key counts. -/
def FunctionTable.define (table : FunctionTable) (key : Key) (name : Name) (func : Func) :
    FunctionTable :=
  table.upsert key fun
    | some r => { r with func }
    | none => ⟨name, func⟩

/-- What a builtin does with its arguments. -/
inductive BuiltinAction where
  /-- Prints each argument as soon as it is evaluated; the value is absent. -/
  | print
  /-- Evaluates all arguments; the value is that of the last one. -/
  | last
deriving DecidableEq

/-- A function that the host provides. Without an arity it takes any number of arguments. -/
structure Builtin where
  name : String
  arity : Option Int
  action : BuiltinAction

/-- How a builtin is shown. -/
def Builtin.shown (name : String) : String := "<builtin " ++ name ++ ">"

/-- The builtins by their names. -/
abbrev BuiltinTable := Table Builtin

namespace BuiltinTable

/-- Provides a builtin under its name. -/
def provide (table : BuiltinTable) (b : Builtin) : BuiltinTable :=
  table.upsert (.str b.name) fun _ => b

/-- The builtins every program can call. -/
def standard : BuiltinTable := BuiltinTable.provide .empty ⟨"print", none, .print⟩

end BuiltinTable

end SmallImp

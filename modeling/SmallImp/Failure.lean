import SmallImp.Name

/-!
# Failures of a run

* `RuntimeError` — the errors of the language, each with its kind and its wording;
* `Defect` — what goes wrong only in a tree that no source text has;
* `Failure` — either of them, a text that cannot be written, or a budget that ran out.
-/

namespace SmallImp

/-- The kinds of runtime errors. -/
inductive ErrorKind where
  | undefinedVariable
  | undefinedFunction
  | arityMismatch
  | missingReturn
  | nullOperand
  | typeMismatch
  | divisionByZero
  | stackOverflow
deriving DecidableEq

/-- The name under which a kind is reported. -/
def ErrorKind.name : ErrorKind → String
  | .undefinedVariable => "UndefinedVariable"
  | .undefinedFunction => "UndefinedFunction"
  | .arityMismatch => "ArityMismatch"
  | .missingReturn => "MissingReturn"
  | .nullOperand => "NullOperand"
  | .typeMismatch => "TypeMismatch"
  | .divisionByZero => "DivisionByZero"
  | .stackOverflow => "StackOverflow"

/-- The errors of the language. -/
inductive RuntimeError where
  /-- A variable that its scope does not hold is read or assigned. -/
  | unbound (name : Name)
  /-- A function is called that is neither built in nor registered. -/
  | unknownFunction (name : Name)
  /-- A registered function is called with another number of arguments. -/
  | arguments (name : Name) (expected got : Nat)
  /-- A builtin is called with another number of arguments. -/
  | builtinArguments (name : String) (expected : Int)
  /-- The body of a function ended without a `return`. -/
  | noReturn (name : Name)
  /-- An operand is the absent value; both are shown. -/
  | absentOperand (symbol : String) (left right : Codes)
  /-- A value that is no number stands where a number is needed. -/
  | notNumber (type : String)
  /-- The condition of a statement is not a truth value. -/
  | condition (statement type : String)
  /-- The operand of `!` is not a truth value. -/
  | notOperand (type : String)
  /-- The operand of the unary `-` is not a number. -/
  | negOperand (type : String)
  /-- An operand of `&` or `||` is not a truth value. -/
  | logicOperands (symbol left right : String)
  /-- There is no such binary operator. -/
  | binarySymbol (symbol : String)
  /-- There is no such unary operator. -/
  | unarySymbol (symbol : String)
  /-- An integer is divided by zero. -/
  | zeroDivisor
  /-- Calls are nested more deeply than the budget allows. -/
  | callDepth

namespace RuntimeError

/-- The kind of an error. -/
def kind : RuntimeError → ErrorKind
  | .unbound _ => .undefinedVariable
  | .unknownFunction _ => .undefinedFunction
  | .arguments _ _ _ => .arityMismatch
  | .builtinArguments _ _ => .arityMismatch
  | .noReturn _ => .missingReturn
  | .absentOperand _ _ _ => .nullOperand
  | .notNumber _ => .typeMismatch
  | .condition _ _ => .typeMismatch
  | .notOperand _ => .typeMismatch
  | .negOperand _ => .typeMismatch
  | .logicOperands _ _ _ => .typeMismatch
  | .binarySymbol _ => .typeMismatch
  | .unarySymbol _ => .typeMismatch
  | .zeroDivisor => .divisionByZero
  | .callDepth => .stackOverflow

/-- The wording of an error, without its kind. -/
def message : RuntimeError → Codes
  | .unbound name => "undefined variable " ++ name.text
  | .unknownFunction name => "undefined function " ++ name.text
  | .arguments name expected got =>
    "function " ++ name.text ++ " expects " ++ toString expected ++ " arguments but got "
      ++ toString got
  | .builtinArguments name expected => name ++ " expects " ++ toString expected ++ " arguments"
  | .noReturn name => "function " ++ name.text ++ " did not return a value"
  | .absentOperand symbol left right =>
    "null operand in " ++ symbol ++ " operation: left=" ++ left ++ ", right=" ++ right
  | .notNumber type => "cannot convert " ++ type ++ " to double"
  | .condition statement type => statement ++ " condition must be bool, got " ++ type
  | .notOperand type => "operator ! expects bool, got " ++ type
  | .negOperand type => "unary - expects numeric, got " ++ type
  | .logicOperands symbol left right =>
    "operator " ++ symbol ++ " expects bool operands, got " ++ left ++ " and " ++ right
  | .binarySymbol symbol => "unknown operator " ++ symbol
  | .unarySymbol symbol => "unsupported unary operator " ++ symbol
  | .zeroDivisor => "division by zero"
  | .callDepth => "maximum call depth exceeded"

/-- An error as it is reported: its kind and its wording. -/
def report (e : RuntimeError) : Codes := e.kind.name ++ ": " ++ e.message

end RuntimeError

/-- What can go wrong only in a tree that no source text has, or with integers that no run
produces. -/
inductive Defect where
  /-- Something else stands in the place of an expression; its class is shown. -/
  | notExpression (found : String)
  /-- Something else stands in the place of a statement; its class is shown. -/
  | notStatement (found : String)
  /-- A part lacks a field that is needed. -/
  | missingField
  /-- A block has no first statement where one is needed. -/
  | noStatement
  /-- A list or an object is used as a name. -/
  | unusableName (shape : String)
  /-- An integer is too large for a float. -/
  | tooLarge
deriving DecidableEq

/-- The wording of a defect, where it has one. -/
def Defect.message? : Defect → Option String
  | .notExpression found => some ("evaluate: unexpected node type <class '" ++ found ++ "'>")
  | .notStatement found => some ("execute: unexpected node type <class '" ++ found ++ "'>")
  | .missingField => none
  | .noStatement => none
  | .unusableName shape => some ("unhashable type: '" ++ shape ++ "'")
  | .tooLarge => none

/-- What a run may run out of. -/
inductive Resource where
  /-- The nesting of function calls. -/
  | calls
  /-- The turns of a loop. -/
  | turns
deriving DecidableEq

/-- Why a run ended early. -/
inductive Failure where
  | error (e : RuntimeError)
  | defect (d : Defect)
  /-- A text with a surrogate is written to a stream that does not take it. -/
  | unencodable
  | exhausted (resource : Resource)

/-- The key of a name, which a list or an object does not have. -/
def Json.key (name : Name) : Except Failure Key :=
  match name.key? with
  | some key => .ok key
  | none => .error (.defect (.unusableName name.shape))

end SmallImp

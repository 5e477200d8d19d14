import SmallImp.Failure
import SmallImp.Value

/-!
# Operators

* `BinaryOp`, `UnaryOp` — the closed sets of operators and their symbols;
* `BinaryOp.apply`, `UnaryOp.apply` — what they compute.

Arithmetic on two integers stays within 64 bits; with a float on either side both operands are
floats. Comparisons always compare floats. `==` never converts, and `&` and `||` take truth values.
An absent operand is an error of its own, before anything else is looked at.
-/

namespace SmallImp

/-- The binary operators. -/
inductive BinaryOp where
  | add | sub | mul | div
  | gt | lt | ge | le
  | eq
  | and | or
deriving DecidableEq

/-- The unary operators. -/
inductive UnaryOp where
  | not | neg
deriving DecidableEq

namespace BinaryOp

/-- How an operator is written. -/
def symbol : BinaryOp → String
  | .add => "+"
  | .sub => "-"
  | .mul => "*"
  | .div => "/"
  | .gt => ">"
  | .lt => "<"
  | .ge => "=>"
  | .le => "=<"
  | .eq => "=="
  | .and => "&"
  | .or => "||"

/-- All binary operators. -/
def all : List BinaryOp := [.add, .sub, .mul, .div, .gt, .lt, .ge, .le, .eq, .and, .or]

/-- The binary operator that is written like this. -/
def ofSymbol? (s : String) : Option BinaryOp := all.find? fun op => op.symbol == s

end BinaryOp

namespace UnaryOp

/-- How an operator is written. -/
def symbol : UnaryOp → String
  | .not => "!"
  | .neg => "-"

/-- All unary operators. -/
def all : List UnaryOp := [.not, .neg]

/-- The unary operator that is written like this. -/
def ofSymbol? (s : String) : Option UnaryOp := all.find? fun op => op.symbol == s

end UnaryOp

/-- A number as a float. An integer takes the nearest float, and fails if all of them are too
small. -/
def Value.toFloat : Value → Except Failure Float
  | .int n =>
    let x := Binary64.ofInt n
    if Binary64.isInfinite x then .error (.defect .tooLarge) else .ok x
  | .float x => .ok x
  | v => .error (.error (.notNumber v.typeName))

/-- The quotient of the magnitudes of two integers, negated if just one of the two is negative. -/
def signedQuotient (a b : Int) : Int :=
  let q : Int := ↑(a.natAbs / b.natAbs)
  if a < 0 ↔ b < 0 then q else -q

/-- Division of integers, toward zero. -/
def divideInt (a b : Int) : Except Failure Int :=
  if b = 0 then .error (.error .zeroDivisor) else .ok (wrap64 (signedQuotient a b))

/-- The truth value of a condition of the named statement. -/
def Value.condition (statement : String) : Value → Except Failure Bool
  | .bool b => .ok b
  | v => .error (.error (.condition statement v.typeName))

namespace BinaryOp

/-- The arithmetic operators. -/
inductive Arithmetic where
  | add | sub | mul | div
deriving DecidableEq

/-- Arithmetic on integers, which stays within 64 bits. -/
def Arithmetic.onInts : Arithmetic → Int → Int → Except Failure Int
  | .add, a, b => .ok (wrap64 (a + b))
  | .sub, a, b => .ok (wrap64 (a - b))
  | .mul, a, b => .ok (wrap64 (a * b))
  | .div, a, b => divideInt a b

/-- Arithmetic on floats; a division by zero gives an infinity or NaN. -/
def Arithmetic.onFloats : Arithmetic → Float → Float → Float
  | .add, x, y => x + y
  | .sub, x, y => x - y
  | .mul, x, y => x * y
  | .div, x, y => x / y

/-- The operators that compare two numbers. -/
inductive Comparison where
  | gt | lt | ge | le
deriving DecidableEq

/-- Comparison of floats; none holds of NaN. -/
def Comparison.holds : Comparison → Float → Float → Bool
  | .gt, x, y => y < x
  | .lt, x, y => x < y
  | .ge, x, y => y ≤ x
  | .le, x, y => x ≤ y

/-- The logical connectives; both operands have been evaluated. -/
inductive Connective where
  | and | or
deriving DecidableEq

/-- What a connective makes of two truth values. -/
def Connective.holds : Connective → Bool → Bool → Bool
  | .and, a, b => a && b
  | .or, a, b => a || b

/-- The four families of binary operators. -/
inductive Family where
  | arithmetic (op : Arithmetic)
  | comparison (op : Comparison)
  | equality
  | connective (op : Connective)
deriving DecidableEq

/-- The family an operator belongs to. -/
def family : BinaryOp → Family
  | .add => .arithmetic .add
  | .sub => .arithmetic .sub
  | .mul => .arithmetic .mul
  | .div => .arithmetic .div
  | .gt => .comparison .gt
  | .lt => .comparison .lt
  | .ge => .comparison .ge
  | .le => .comparison .le
  | .eq => .equality
  | .and => .connective .and
  | .or => .connective .or

/-- Arithmetic: on two integers exact within 64 bits, otherwise on floats. -/
def arithmetic (op : Arithmetic) : Value → Value → Except Failure Value
  | .int a, .int b => (op.onInts a b).map .int
  | a, b => do
    let x ← a.toFloat
    let y ← b.toFloat
    return .float (op.onFloats x y)

/-- Comparison, always between floats. -/
def compare (op : Comparison) (a b : Value) : Except Failure Value := do
  let x ← a.toFloat
  let y ← b.toFloat
  return .bool (op.holds x y)

/-- The connectives take truth values only. -/
def connect (op : Connective) (symbol : String) : Value → Value → Except Failure Value
  | .bool a, .bool b => .ok (.bool (op.holds a b))
  | a, b => .error (.error (.logicOperands symbol a.typeName b.typeName))

/-- The operation of an operator on operands that are both present. -/
def applyPresent (op : BinaryOp) (a b : Value) : Except Failure Value :=
  match op.family with
  | .arithmetic f => arithmetic f a b
  | .comparison f => compare f a b
  | .equality => .ok (.bool (a.same b))
  | .connective f => connect f op.symbol a b

/-- The error of an absent operand of an operator. -/
def absent (symbol : String) (a b : Value) : Failure :=
  .error (.absentOperand symbol a.display b.display)

/-- What an operator computes. -/
def apply (op : BinaryOp) (a b : Value) : Except Failure Value :=
  if a = .null ∨ b = .null then .error (absent op.symbol a b) else op.applyPresent a b

/-- The operator of a symbol applied to two operands. -/
def applySymbol (symbol : String) (a b : Value) : Except Failure Value :=
  match ofSymbol? symbol with
  | some op => op.apply a b
  | none =>
    if a = .null ∨ b = .null then .error (absent symbol a b)
    else .error (.error (.binarySymbol symbol))

end BinaryOp

namespace UnaryOp

/-- What an operator computes. -/
def apply : UnaryOp → Value → Except Failure Value
  | .not, .bool b => .ok (.bool (!b))
  | .not, v => .error (.error (.notOperand v.typeName))
  | .neg, .int n => .ok (.int (wrap64 (-n)))
  | .neg, .float x => .ok (.float (-x))
  | .neg, v => .error (.error (.negOperand v.typeName))

/-- The operator of a symbol applied to an operand. -/
def applySymbol (symbol : String) (v : Value) : Except Failure Value :=
  match ofSymbol? symbol with
  | some op => op.apply v
  | none => .error (.error (.unarySymbol symbol))

end UnaryOp

end SmallImp

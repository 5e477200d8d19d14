import SmallImp.Json

/-!
# Values

* `Value` — what an expression evaluates to: nothing, a truth value, an integer, a float or a text;
* `Value.typeName`, `Value.display` — its type and its printed form;
* `Value.same` — the equality of the language;
* `wrap64`, `InRange` — the signed 64-bit integers.
-/

namespace SmallImp

/-- The least signed 64-bit integer, `-(2 ^ 63)`. -/
def minInt : Int := -0x8000000000000000

/-- The largest signed 64-bit integer, `2 ^ 63 - 1`. -/
def maxInt : Int := 0x7FFFFFFFFFFFFFFF

/-- The number of 64-bit integers, `2 ^ 64`. -/
def wordCount : Int := 0x10000000000000000

/-- An integer that fits in 64 bits with its sign. -/
def InRange (n : Int) : Prop := minInt ≤ n ∧ n ≤ maxInt

instance (n : Int) : Decidable (InRange n) := inferInstanceAs (Decidable (_ ∧ _))

/-- The integer in range that is equal to `n` modulo `2 ^ 64`. -/
def wrap64 (n : Int) : Int := (n - minInt) % wordCount + minInt

/-- The values of the language. -/
inductive Value where
  | null
  | bool (b : Bool)
  | int (n : Int)
  | float (x : Float)
  | str (s : Codes)
deriving Inhabited, DecidableEq

namespace Value

/-- The name of a value's type. -/
def typeName : Value → String
  | .null => "null"
  | .bool _ => "bool"
  | .int _ => "int"
  | .float _ => "float"
  | .str _ => "string"

/-- The printed form of a value. -/
def display : Value → Codes
  | .null => "null"
  | .bool b => if b then "true" else "false"
  | .int n => toString n
  | .float x => Decimal.display x
  | .str s => s

/-- A value as a JSON value. -/
def toJson : Value → Json
  | .null => .null
  | .bool b => .bool b
  | .int n => .int n
  | .float x => .float x
  | .str s => .str s

/-- The spelling of a value in messages, in which a text is quoted. -/
def literal (v : Value) : String := v.toJson.literal

/-- The equality of the language. Values of different types differ, and no number is converted;
a float is equal to itself only, which keeps the two zeros apart and makes NaN equal to NaN. -/
def same (a b : Value) : Bool := a = b

/-- Whether a value is an integer. -/
def isInt : Value → Bool
  | .int _ => true
  | _ => false

/-- Whether a value is a float. -/
def isFloat : Value → Bool
  | .float _ => true
  | _ => false

end Value

/-- The literals of the language. -/
inductive Literal where
  | int (n : Int)
  | float (x : Float)
  | bool (b : Bool)
  | str (s : Codes)
deriving Inhabited, DecidableEq

/-- The value a literal stands for. -/
def Literal.value : Literal → Value
  | .int n => .int n
  | .float x => .float x
  | .bool b => .bool b
  | .str s => .str s

end SmallImp

import SmallImp.Value.Operators

/-!
# Data of a host

A host may hand lists to the value operations. The language has no lists: they have a type name and
a printed form, they can be compared with each other, and every other operation refuses them.

* `Datum` — a value of the language or a list;
* `Datum.binary`, `Datum.unary`, `Datum.condition` — the operations of the language on data;
* `Datum.errorLiteral`, `Datum.signalLiteral`, `Datum.tree` — how a host shows errors, returned
  values and trees.
-/

namespace SmallImp

/-- A value of the language or a list of data. -/
inductive Datum where
  | value (v : Value)
  | list (items : List Datum)
deriving Inhabited

namespace Datum

mutual

/-- A datum as a JSON value. -/
def toJson : Datum → Json
  | .value v => v.toJson
  | .list items => .list (itemsToJson items)

/-- The items of a list as JSON values. -/
def itemsToJson : List Datum → List Json
  | [] => []
  | item :: rest => toJson item :: itemsToJson rest

end

/-- The name of a datum's type. -/
def typeName : Datum → String
  | .value v => v.typeName
  | .list _ => "list"

/-- The spelling of a datum in messages, in which a text is quoted. -/
def literal (d : Datum) : String := d.toJson.literal

/-- The printed form of a datum. -/
def display : Datum → Codes
  | .value v => v.display
  | d => d.literal

/-- Whether a datum is an integer. -/
def isInt : Datum → Bool
  | .value v => v.isInt
  | .list _ => false

/-- Whether a datum is a float. -/
def isFloat : Datum → Bool
  | .value v => v.isFloat
  | .list _ => false

/-- Whether a datum is the absent value. -/
def isNull : Datum → Bool
  | .value v => v = .null
  | .list _ => false

/-- Equality of values inside lists: the equality of names. Numbers are equal if their values are,
so the two zeros are, and NaN is equal to NaN. -/
def sameItem (a b : Value) : Bool := a.toJson.key? == b.toJson.key?

mutual

/-- Equality of lists: the same length, and equal items at each place. -/
def sameData : Datum → Datum → Bool
  | .value a, .value b => sameItem a b
  | .list a, .list b => sameItems a b
  | _, _ => false

/-- Equality of the items of two lists. -/
def sameItems : List Datum → List Datum → Bool
  | [], [] => true
  | a :: as, b :: bs => sameData a b && sameItems as bs
  | _, _ => false

end

/-- The equality of the language on data. -/
def same : Datum → Datum → Bool
  | .value a, .value b => a.same b
  | a, b => sameData a b

/-- A number as a float. -/
def toFloat : Datum → Except Failure Float
  | .value v => v.toFloat
  | d => .error (.error (.notNumber d.typeName))

/-- The truth value of a condition of the named statement. -/
def condition (statement : String) : Datum → Except Failure Bool
  | .value v => v.condition statement
  | d => .error (.error (.condition statement d.typeName))

/-- A binary operator on data that are not both values. -/
def binaryWithList (symbol : String) (a b : Datum) : Except Failure Value :=
  if a.isNull || b.isNull then .error (.error (.absentOperand symbol a.display b.display))
  else
    match (BinaryOp.ofSymbol? symbol).map BinaryOp.family with
    | none => .error (.error (.binarySymbol symbol))
    | some .equality => .ok (.bool (a.same b))
    | some (.connective _) => .error (.error (.logicOperands symbol a.typeName b.typeName))
    | some _ => do
      let _ ← a.toFloat
      let _ ← b.toFloat
      .error (.error (.notNumber "list"))

/-- The binary operator of a symbol. -/
def binary (symbol : String) : Datum → Datum → Except Failure Value
  | .value a, .value b => BinaryOp.applySymbol symbol a b
  | a, b => binaryWithList symbol a b

/-- The unary operator of a symbol. -/
def unary (symbol : String) : Datum → Except Failure Value
  | .value v => UnaryOp.applySymbol symbol v
  | d =>
    match UnaryOp.ofSymbol? symbol with
    | some .not => .error (.error (.notOperand d.typeName))
    | some .neg => .error (.error (.negOperand d.typeName))
    | none => .error (.error (.unarySymbol symbol))

/-! ### Shown forms -/

/-- How an error with a name and a message is shown. -/
def errorLiteral (name message : Datum) : String :=
  "Error(name=" ++ name.literal ++ ", message=" ++ message.literal ++ ")"

/-- How an error with a name and a message is reported. -/
def errorText (name message : Datum) : Codes := name.toJson.text ++ ": " ++ message.toJson.text

/-- How a returned value is shown. -/
def signalLiteral (d : Datum) : String := "ReturnSignal(" ++ d.literal ++ ")"

/-- A datum as a tree: the absent value is the absent tree, and no other datum is a tree. -/
def tree (d : Datum) : Except String Json :=
  if d.isNull then .ok .null
  else .error ("Unsupported node for serialization: " ++ d.toJson.shape)

end Datum

end SmallImp

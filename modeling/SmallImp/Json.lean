import SmallImp.Decimal.Layout
import SmallImp.Text.Quoted

/-!
# JSON values

Integers and floats are kept apart, and an object keeps its fields in the order of their first
mention.

* `Json` — the values;
* `Json.literal`, `Json.text` — how a value is spelled in messages;
* `Json.shape` — the name of a value's type in messages;
* `Json.field?` — a field of an object.
-/

namespace SmallImp

/-- A JSON value. -/
inductive Json where
  | null
  | bool (b : Bool)
  | int (n : Int)
  | float (x : Float)
  | str (s : Codes)
  | list (items : List Json)
  | object (fields : List (Codes × Json))
deriving Inhabited, BEq

namespace Json

mutual

/-- The spelling of a value in messages: text is quoted, and objects stand in braces. -/
def literal : Json → String
  | .null => "None"
  | .bool b => if b then "True" else "False"
  | .int n => toString n
  | .float x => Decimal.plainText Decimal.messageWords x
  | .str s => Text.quote s
  | .list items => "[" ++ ", ".intercalate (literals items) ++ "]"
  | .object fields => "\x7b" ++ ", ".intercalate (fieldLiterals fields) ++ "\x7d"

/-- The spellings of the items of a list. -/
def literals : List Json → List String
  | [] => []
  | item :: rest => literal item :: literals rest

/-- The spellings of the fields of an object. -/
def fieldLiterals : List (Codes × Json) → List String
  | [] => []
  | (key, value) :: rest => (Text.quote key ++ ": " ++ literal value) :: fieldLiterals rest

end

/-- A value inside running text: a text stands for itself, anything else is spelled out. -/
def text : Json → Codes
  | .str s => s
  | value => literal value

/-- The name of a value's type in messages. -/
def shape : Json → String
  | .null => "NoneType"
  | .bool _ => "bool"
  | .int _ => "int"
  | .float _ => "float"
  | .str _ => "str"
  | .list _ => "list"
  | .object _ => "dict"

/-- The value of a field in a list of fields. -/
def fieldIn? (fields : List (Codes × Json)) (key : Codes) : Option Json :=
  (fields.find? fun field => field.1 == key).map (·.2)

/-- Sets a field: a key met before keeps its place and takes the new value. -/
def setField (fields : List (Codes × Json)) (key : Codes) (value : Json) :
    List (Codes × Json) :=
  match fields with
  | [] => [(key, value)]
  | field :: rest =>
    if field.1 == key then (key, value) :: rest else field :: setField rest key value

end Json

end SmallImp

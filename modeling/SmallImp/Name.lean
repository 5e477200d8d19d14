import SmallImp.Json

/-!
# Names

Names of variables and functions are texts in every program that comes from source text. A tree read
from a document may hold any JSON value in their place, so a name is a JSON value here, and what it
is looked up by is its key.

* `Name`, `TypeTag` — what stands in the tree;
* `Key`, `Json.key?` — what a name is looked up by: numbers of equal value have equal keys, and
  lists and objects have none.
-/

namespace SmallImp

/-- The name of a variable or a function. -/
abbrev Name := Json

/-- The type written in a declaration; it is kept and shown, never checked. -/
abbrev TypeTag := Json

/-- What a name is looked up by. -/
inductive Key where
  | null
  | number (n : Int)
  | fraction (x : Float)
  | str (s : Codes)
deriving DecidableEq

/-- The integer that a float is equal to, if there is one. -/
def Binary64.toInt? (x : Float) : Option Int :=
  if Binary64.isNaN x || Binary64.isInfinite x then none
  else
    let (num, den) := Binary64.ratio x
    if num % den = 0 then
      let n : Int := num / den
      some (if Binary64.isNegative x then -n else n)
    else none

/-- The key of a name. Truth values count as the numbers zero and one. -/
def Json.key? : Json → Option Key
  | .null => some .null
  | .bool b => some (.number (if b then 1 else 0))
  | .int n => some (.number n)
  | .float x => some (match Binary64.toInt? x with | some n => .number n | none => .fraction x)
  | .str s => some (.str s)
  | .list _ => none
  | .object _ => none

end SmallImp

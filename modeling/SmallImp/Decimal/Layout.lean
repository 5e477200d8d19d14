import SmallImp.Decimal.Shortest

/-!
# Written forms of floats

Two layouts share the shortest digits.

* `Float` values of the language are shown by `Decimal.display`: plain between a thousandth and ten
  million, otherwise as `d.dddE<exp>`, always with two digits at least;
* floats in messages and documents are written by `Decimal.plainText`: plain while the leading
  digit stands for `10 ^ e` with `-4 ≤ e < 16`, otherwise as `d.ddde±XX`.
-/

namespace SmallImp.Decimal

/-- Plain notation for digits whose leading one stands for `10 ^ lead`. -/
def plain (digits : List Char) (lead : Int) : List Char :=
  if lead < 0 then
    ['0', '.'] ++ List.replicate (-lead - 1).toNat '0' ++ digits
  else
    let point := lead.toNat + 1
    if digits.length ≤ point then
      digits ++ List.replicate (point - digits.length) '0' ++ ['.', '0']
    else
      digits.take point ++ ['.'] ++ digits.drop point

/-- Digits for display: the shortest ones, but a single digit gives way to the closest decimal of
two digits. -/
def displayDigits (x : Float) : List Char × Int :=
  let d := shortest x
  let (digits, lead) := scientific d
  if digits.length = 1 then scientific (closestTwo x lead) else (digits, lead)

/-- The sign of a number, written only when negative. -/
def signText (x : Float) : String := if Binary64.isNegative x then "-" else ""

/-- `d.ddd` with at least one digit after the point. -/
def mantissaText : List Char → List Char
  | [] => []
  | [d] => [d, '.', '0']
  | d :: rest => d :: '.' :: rest

/-- The form in which the language shows a float. -/
def display (x : Float) : String :=
  if Binary64.isNaN x then "NaN"
  else if Binary64.isInfinite x then signText x ++ "Infinity"
  else
    let m := Binary64.magnitude x
    if m = 0.0 then signText x ++ "0.0"
    else
      let (digits, lead) := displayDigits m
      if 1e-3 ≤ m ∧ m < 1e7 then signText x ++ String.ofList (plain digits lead)
      else signText x ++ String.ofList (mantissaText digits) ++ "E" ++ toString lead

/-- An exponent with its sign and two digits at least. -/
def exponentText (e : Int) : String :=
  (if e < 0 then "-" else "+") ++ (if e.natAbs < 10 then "0" else "") ++ toString e.natAbs

/-- The words for the three floats that have no digits. -/
structure Words where
  nan : String
  infinity : String
  minusInfinity : String

/-- The form of a float in messages and documents, with the words given for the special ones. -/
def plainText (words : Words) (x : Float) : String :=
  if Binary64.isNaN x then words.nan
  else if Binary64.isInfinite x then
    if Binary64.isNegative x then words.minusInfinity else words.infinity
  else
    let m := Binary64.magnitude x
    if m = 0.0 then signText x ++ "0.0"
    else
      let (digits, lead) := scientific (shortest m)
      if -4 ≤ lead ∧ lead < 16 then signText x ++ String.ofList (plain digits lead)
      else
        let mantissa := if digits.length = 1 then digits else mantissaText digits
        signText x ++ String.ofList mantissa ++ "e" ++ exponentText lead

/-- The words used in messages. -/
def messageWords : Words := ⟨"nan", "inf", "-inf"⟩

/-- The words used in documents. -/
def documentWords : Words := ⟨"NaN", "Infinity", "-Infinity"⟩

end SmallImp.Decimal

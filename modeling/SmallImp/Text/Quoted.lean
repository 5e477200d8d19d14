import SmallImp.Text.Codes
import SmallImp.Text.Printable

/-!
# Quoted text

A text in a message stands between quotes: single ones, or double ones when it holds a single quote
and no double one. Within them the backslash and the quote in use are escaped, and a character that
is not printable is written by its code, as a surrogate is.

* `codeEscape` — the escape of a code point by its number;
* `quote` — the quoted form of a text.
-/

namespace SmallImp.Text

/-- The escape of a code point by its number, as short as the number allows. -/
def codeEscape (n : Nat) : List Char :=
  if n < 0x100 then '\\' :: 'x' :: hex 2 n
  else if n < 0x10000 then '\\' :: 'u' :: hex 4 n
  else '\\' :: 'U' :: hex 8 n

/-- One character within quotes of the given kind. -/
def quoteChar (mark c : Char) : List Char :=
  if c = mark ∨ c = '\\' then ['\\', c]
  else if c = '\n' then ['\\', 'n']
  else if c = '\r' then ['\\', 'r']
  else if c = '\t' then ['\\', 't']
  else if isPrintable c then [c]
  else codeEscape c.toNat

/-- One code point within quotes of the given kind. -/
def quoteCode (mark : Char) : Code → List Char
  | .char c => quoteChar mark c
  | .surrogate half => codeEscape (Code.surrogate half).toNat

/-- The quote that encloses a text. -/
def quoteMark (t : Codes) : Char :=
  if t.contains (.char '\x27') && !t.contains (.char '"') then '"' else '\x27'

/-- The quoted form of a text. -/
def quote (t : Codes) : String :=
  let mark := quoteMark t
  String.ofList (mark :: t.flatMap (quoteCode mark) ++ [mark])

end SmallImp.Text

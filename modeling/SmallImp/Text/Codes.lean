import SmallImp.Text.Hexadecimal

/-!
# Texts

A text is a row of code points. All but the surrogates are characters; a surrogate is one half of a
pair of code units, and a text that holds one cannot be encoded.

* `Code`, `Codes` — code points and texts;
* `Codes.ofString`, `Codes.characters` — texts of characters;
* `Codes.isPlain` — whether all code points of a text are characters;
* `Codes.escaped` — a text in which surrogates are written by their codes.
-/

namespace SmallImp

/-- A code point: a character or a surrogate. -/
inductive Code where
  | char (c : Char)
  | surrogate (half : Fin 0x800)
deriving DecidableEq

/-- A text. -/
abbrev Codes := List Code

namespace Code

/-- The number of a code point. -/
def toNat : Code → Nat
  | .char c => c.toNat
  | .surrogate half => 0xD800 + half

/-- The code point of a number that has one. -/
def ofNat (n : Nat) : Code :=
  if h : 0xD800 ≤ n ∧ n < 0xE000 then .surrogate ⟨n - 0xD800, by omega⟩ else .char (Char.ofNat n)

/-- The character that a code point is, unless it is a surrogate. -/
def char? : Code → Option Char
  | .char c => some c
  | .surrogate _ => none

/-- A code point inside a text that is encoded: a surrogate is written by its code. -/
def escaped : Code → List Char
  | .char c => [c]
  | .surrogate half => '\\' :: 'u' :: Text.hex 4 (0xD800 + half)

end Code

namespace Codes

/-- The text of some characters. -/
def ofChars (cs : List Char) : Codes := cs.map .char

/-- The text of a string. -/
def ofString (s : String) : Codes := ofChars s.toList

instance : Coe String Codes := ⟨ofString⟩

instance : LawfulBEq Codes := inferInstance

/-- Whether all code points of a text are characters. -/
def isPlain (t : Codes) : Bool := t.all (·.char?.isSome)

/-- The characters of a text. -/
def characters (t : Codes) : String := String.ofList (t.filterMap Code.char?)

/-- The string that a text is, if all its code points are characters. -/
def string? (t : Codes) : Option String := if isPlain t then some (characters t) else none

/-- A text in which surrogates are written by their codes. -/
def escaped (t : Codes) : String := String.ofList (t.flatMap Code.escaped)

end Codes

end SmallImp

import SmallImp.Host
import SmallImp.Source.Fault
import SmallImp.Value

/-!
# Values of literals

* `unescape` — the text that the characters between two quotes stand for;
* `LiteralRule.literal` — the literal that a rule of the grammar makes of its token.
-/

namespace SmallImp.Source

/-! ### Texts -/

/-- The value of an octal digit. -/
def octalValue? (c : Char) : Option Nat :=
  if '0' ≤ c ∧ c ≤ '7' then some (c.toNat - '0'.toNat) else none

/-- What has been read of an escape. -/
inductive Escape where
  /-- Outside of escapes. -/
  | none
  /-- After a backslash. -/
  | backslash
  /-- In an octal escape that may take some more digits. -/
  | octal (value more : Nat)
  /-- In a hexadecimal escape that has to take some more digits. -/
  | hex (value more : Nat)
  /-- After the letter that opens the name of a character. -/
  | letterN
  /-- In the name of a character; the last letter comes first. -/
  | name (letters : List Char)
deriving DecidableEq

/-- The characters that stand for another one after a backslash. -/
def simpleEscape? : Char → Option Char
  | '\\' => some '\\'
  | '\x27' => some '\x27'
  | '"' => some '"'
  | 'a' => some '\x07'
  | 'b' => some '\x08'
  | 'f' => some '\x0c'
  | 'n' => some '\n'
  | 'r' => some '\r'
  | 't' => some '\t'
  | 'v' => some '\x0b'
  | _ => .none

/-- The number of digits of the hexadecimal escape that a letter opens. -/
def hexLength? : Char → Option Nat
  | 'x' => some 2
  | 'u' => some 4
  | 'U' => some 8
  | _ => .none

/-- The code point of a number, unless it is too large. -/
def codePoint? (n : Nat) : Option Code := if 0x10FFFF < n then .none else some (.ofNat n)

/-- A character after a backslash: what is added to the text, and what comes next. An unknown
escape keeps its backslash, and a raw carriage return continues the text on the next line. -/
def afterBackslash (c : Char) : Option (Codes × Escape) :=
  match simpleEscape? c with
  | some d => some ([.char d], .none)
  | .none =>
    match hexLength? c with
    | some more => some ([], .hex 0 more)
    | .none =>
      match octalValue? c with
      | some value => some ([], .octal value 2)
      | .none =>
        if c = 'N' then some ([], .letterN)
        else if c = '\r' then some ([], .none)
        else some ([.char '\\', .char c], .none)

/-- A character outside of escapes. -/
def plainChar (c : Char) : Option (Codes × Escape) :=
  if c = '\\' then some ([], .backslash)
  else if c = '\r' then .none
  else some ([.char c], .none)

variable [Host]

/-- A character in the name of a character: what is added to the text, and what comes next. The name
ends at the closing brace. -/
def nameStep (letters : List Char) (c : Char) : Option (Codes × Escape) :=
  if c = '\x7d' then
    if letters.isEmpty then .none
    else (Host.named letters.reverse).map fun d => ([.char d], .none)
  else if c = '\r' then .none
  else some ([], .name (c :: letters))

/-- One character of a text literal: what is added to the text, and what comes next. -/
def unescapeStep (state : Escape) (c : Char) : Option (Codes × Escape) :=
  match state with
  | .none => plainChar c
  | .backslash => afterBackslash c
  | .octal value more =>
    match more, octalValue? c with
    | more + 1, some digit => some ([], .octal (8 * value + digit) more)
    | _, _ => do
      let d ← codePoint? value
      let (added, next) ← plainChar c
      return (d :: added, next)
  | .hex value more =>
    match Text.hexValue? c with
    | .none => .none
    | some digit =>
      let value := 16 * value + digit
      if more ≤ 1 then do
        let d ← codePoint? value
        return ([d], .none)
      else some ([], .hex value (more - 1))
  | .letterN => if c = '\x7b' then some ([], .name []) else .none
  | .name letters => nameStep letters c

/-- What is left to add at the end of a text literal. -/
def unescapeEnd : Escape → Option Codes
  | .none => some []
  | .octal value _ => (codePoint? value).map fun d => [d]
  | .backslash => .none
  | .hex _ _ => .none
  | .letterN => .none
  | .name _ => .none

/-- The text that the characters between two quotes stand for, from a state on. -/
def unescapeFrom (state : Escape) : List Char → Option Codes
  | [] => unescapeEnd state
  | c :: rest => do
    let (added, next) ← unescapeStep state c
    let body ← unescapeFrom next rest
    return added ++ body

/-- The text that the characters between two quotes stand for. -/
def unescape (body : List Char) : Except LiteralFault Codes :=
  if body.contains '\x00' then .error .nullCharacter
  else
    match unescapeFrom .none body with
    | some text => .ok text
    | .none => .error .malformedText

/-! ### Numbers -/

/-- The decimal that the text of a float stands for. -/
def decimalOf (text : List Char) : Decimal :=
  let whole := text.takeWhile Text.isDecimalDigit
  let rest := (text.dropWhile Text.isDecimalDigit).drop 1
  let fraction := rest.takeWhile Text.isDecimalDigit
  let mark := (rest.dropWhile Text.isDecimalDigit).drop 1
  let exponent : Int :=
    match mark with
    | '-' :: digits => -(Text.digitsValue digits : Int)
    | '+' :: digits => Text.digitsValue digits
    | digits => Text.digitsValue digits
  ⟨Text.digitsValue (whole ++ fraction), exponent - fraction.length⟩

/-- The value of an integer literal. Literals have no sign, so only the upper end is checked. -/
def intLiteral (t : Token) : Except LiteralFault Literal :=
  if Text.maxDigits < t.text.length then .error .tooManyDigits
  else
    let n := Text.digitsValue t.text
    if (n : Int) ≤ maxInt then .ok (.int n) else .error (.outOfRange t)

/-! ### Rules of literals -/

/-- The rules of the grammar that make a token a literal. -/
inductive LiteralRule where
  | int | float | yes | no | text
deriving DecidableEq

/-- The rule that takes a token of a terminal for a literal. -/
def Terminal.literalRule? : Terminal → Option LiteralRule
  | .int => some .int
  | .float => some .float
  | .keyword .true => some .yes
  | .keyword .false => some .no
  | .text => some .text
  | _ => none

/-- The literal that a rule makes of its token. -/
def LiteralRule.literal : LiteralRule → Token → Except LiteralFault Literal
  | .int, t => intLiteral t
  | .float, t => .ok (.float (decimalOf t.text).toFloat)
  | .yes, _ => .ok (.bool true)
  | .no, _ => .ok (.bool false)
  | .text, t => (unescape (t.text.drop 1).dropLast).map .str

end SmallImp.Source

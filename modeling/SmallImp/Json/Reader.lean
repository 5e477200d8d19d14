import SmallImp.Host
import SmallImp.Json
import SmallImp.Text.DecimalDigit

/-!
# Reading JSON text

The reader takes the text of one JSON document. Besides the standard it knows the words `NaN`,
`Infinity` and `-Infinity`; a number is an integer unless it has a point or an exponent; the last
field of a key wins. Lists and objects are read up to the depth that the host sets.

* `Json.ReadFault` — why a text is refused;
* `Json.read` — the value of a document.
-/

namespace SmallImp.Json

/-- Why a text is not read. -/
inductive ReadFault where
  /-- The text is not a JSON document. -/
  | malformed
  /-- An integer has more digits than are converted. -/
  | tooManyDigits (count : Nat)
  /-- Lists and objects are nested too deeply. -/
  | tooDeep
deriving DecidableEq

/-- The blanks between the parts of a document. -/
def isBlank (c : Char) : Bool := c = ' ' || c = '\t' || c = '\n' || c = '\r'

/-- The text after its leading blanks. -/
def skipBlank (cs : List Char) : List Char := cs.dropWhile isBlank

/-- The code of exactly four hexadecimal digits. -/
def fourHex? : List Char → Option (Nat × List Char)
  | a :: b :: c :: d :: rest =>
    match Text.hexValue? a, Text.hexValue? b, Text.hexValue? c, Text.hexValue? d with
    | some a, some b, some c, some d => some (((a * 16 + b) * 16 + c) * 16 + d, rest)
    | _, _, _, _ => none
  | _ => none

/-- The first half of a pair of code units. -/
def isHighSurrogate (n : Nat) : Bool := 0xD800 ≤ n && n ≤ 0xDBFF

/-- The second half of a pair of code units. -/
def isLowSurrogate (n : Nat) : Bool := 0xDC00 ≤ n && n ≤ 0xDFFF

/-- The code point of a `\u` escape whose four digits come next; two surrogates that are a pair are
one character. -/
def unicodeEscape? (cs : List Char) : Option (Code × List Char) :=
  match fourHex? cs with
  | none => none
  | some (high, '\\' :: 'u' :: rest) =>
    if isHighSurrogate high then
      match fourHex? rest with
      | some (low, rest') =>
        if isLowSurrogate low then
          some (.ofNat (0x10000 + (high - 0xD800) * 0x400 + (low - 0xDC00)), rest')
        else some (Code.ofNat high, '\\' :: 'u' :: rest)
      | none => some (Code.ofNat high, '\\' :: 'u' :: rest)
    else some (Code.ofNat high, '\\' :: 'u' :: rest)
  | some (n, rest) => some (.ofNat n, rest)

/-- The rest of a string after its opening quote, and what follows the closing one. -/
def stringBody : Nat → Codes → List Char → Option (Codes × List Char)
  | 0, _, _ => none
  | _, _, [] => none
  | fuel + 1, done, c :: rest =>
    if c = '"' then some (done.reverse, rest)
    else if c.toNat < 0x20 then none
    else if c = '\\' then
      match rest with
      | '"' :: rest => stringBody fuel (.char '"' :: done) rest
      | '\\' :: rest => stringBody fuel (.char '\\' :: done) rest
      | '/' :: rest => stringBody fuel (.char '/' :: done) rest
      | 'b' :: rest => stringBody fuel (.char '\x08' :: done) rest
      | 'f' :: rest => stringBody fuel (.char '\x0c' :: done) rest
      | 'n' :: rest => stringBody fuel (.char '\n' :: done) rest
      | 'r' :: rest => stringBody fuel (.char '\r' :: done) rest
      | 't' :: rest => stringBody fuel (.char '\t' :: done) rest
      | 'u' :: rest =>
        match unicodeEscape? rest with
        | some (code, rest) => stringBody fuel (code :: done) rest
        | none => none
      | _ => none
    else stringBody fuel (.char c :: done) rest

/-- A string whose opening quote has been read; its length bounds the steps. -/
def readString? (cs : List Char) : Option (Codes × List Char) := stringBody (cs.length + 1) [] cs

/-- The digits a text starts with, and the rest. -/
def digitsOf (cs : List Char) : List Char × List Char :=
  (cs.takeWhile Char.isDigit, cs.dropWhile Char.isDigit)

/-- The number that a row of digits spells. -/
def natOfDigits (digits : List Char) : Nat :=
  digits.foldl (fun n c => 10 * n + (c.toNat - '0'.toNat)) 0

/-- The digits after a point, when there is a point with a digit after it. -/
def fractionPart (cs : List Char) : Option (List Char) × List Char :=
  match cs with
  | '.' :: rest =>
    match digitsOf rest with
    | ([], _) => (none, cs)
    | (digits, rest) => (some digits, rest)
  | _ => (none, cs)

/-- The exponent, when there is a mark with a digit after it and its sign. -/
def exponentPart (cs : List Char) : Option Int × List Char :=
  match cs with
  | mark :: rest =>
    if mark = 'e' ∨ mark = 'E' then
      let (negative, rest) : Bool × List Char :=
        match rest with
        | '-' :: rest => (true, rest)
        | '+' :: rest => (false, rest)
        | rest => (false, rest)
      match digitsOf rest with
      | ([], _) => (none, cs)
      | (digits, rest) =>
        let n : Int := natOfDigits digits
        (some (if negative then -n else n), rest)
    else (none, cs)
  | [] => (none, cs)

/-- The digits of the whole part: a lone zero, or a row that does not start with one. -/
def wholePart? (cs : List Char) : Option (List Char × List Char) :=
  match cs with
  | '0' :: rest => some (['0'], rest)
  | _ =>
    match digitsOf cs with
    | ([], _) => none
    | (digits, rest) => some (digits, rest)

/-- A number without its sign, which has been read already. -/
def readNumber (negative : Bool) (cs : List Char) : Except ReadFault (Json × List Char) :=
  match wholePart? cs with
  | none => .error .malformed
  | some (whole, rest) =>
    let (fraction, rest) := fractionPart rest
    let (exponent, rest) := exponentPart rest
    match fraction, exponent with
    | none, none =>
      if Text.maxDigits < whole.length then .error (.tooManyDigits whole.length)
      else
        let n : Int := natOfDigits whole
        .ok (.int (if negative then -n else n), rest)
    | _, _ =>
      let fraction := fraction.getD []
      let d : Decimal :=
        ⟨natOfDigits (whole ++ fraction), exponent.getD 0 - fraction.length⟩
      .ok (.float (if negative then -d.toFloat else d.toFloat), rest)

/-- What follows a given word, if the text starts with it. -/
def afterWord? (word : String) (cs : List Char) : Option (List Char) :=
  if word.toList.isPrefixOf cs then some (cs.drop word.length) else none

/-- A value that is neither a text, a list nor an object. -/
def readAtom (cs : List Char) : Except ReadFault (Json × List Char) :=
  match afterWord? "null" cs, afterWord? "true" cs, afterWord? "false" cs,
    afterWord? "NaN" cs, afterWord? "Infinity" cs, afterWord? "-Infinity" cs with
  | some rest, _, _, _, _, _ => .ok (.null, rest)
  | _, some rest, _, _, _, _ => .ok (.bool true, rest)
  | _, _, some rest, _, _, _ => .ok (.bool false, rest)
  | _, _, _, some rest, _, _ => .ok (.float Binary64.nan, rest)
  | _, _, _, _, some rest, _ => .ok (.float Binary64.infinity, rest)
  | _, _, _, _, _, some rest => .ok (.float (-Binary64.infinity), rest)
  | _, _, _, _, _, _ =>
    match cs with
    | '-' :: rest => readNumber true rest
    | _ => readNumber false cs

mutual

/-- One value at the start of the text, with room for some more levels of lists and objects. -/
def readValue : Nat → Nat → List Char → Except ReadFault (Json × List Char)
  | 0, _, _ => .error .malformed
  | fuel + 1, room, cs =>
    match cs with
    | '"' :: rest =>
      match readString? rest with
      | some (s, rest) => .ok (.str s, rest)
      | none => .error .malformed
    | '[' :: rest =>
      match room with
      | 0 => .error .tooDeep
      | room + 1 =>
        match skipBlank rest with
        | ']' :: rest => .ok (.list [], rest)
        | rest => readItems fuel room [] rest
    | '{' :: rest =>
      match room with
      | 0 => .error .tooDeep
      | room + 1 =>
        match skipBlank rest with
        | '}' :: rest => .ok (.object [], rest)
        | rest => readFields fuel room [] rest
    | _ => readAtom cs

/-- The items of a list from the next one on; those read before are held in reverse. -/
def readItems : Nat → Nat → List Json → List Char → Except ReadFault (Json × List Char)
  | 0, _, _, _ => .error .malformed
  | fuel + 1, room, done, cs =>
    match readValue fuel room cs with
    | .error fault => .error fault
    | .ok (item, rest) =>
      match skipBlank rest with
      | ',' :: rest => readItems fuel room (item :: done) (skipBlank rest)
      | ']' :: rest => .ok (.list (item :: done).reverse, rest)
      | _ => .error .malformed

/-- The fields of an object from the next one on. -/
def readFields : Nat → Nat → List (Codes × Json) → List Char →
    Except ReadFault (Json × List Char)
  | 0, _, _, _ => .error .malformed
  | fuel + 1, room, done, cs =>
    match cs with
    | '"' :: rest =>
      match readString? rest with
      | none => .error .malformed
      | some (key, rest) =>
        match skipBlank rest with
        | ':' :: rest =>
          match readValue fuel room (skipBlank rest) with
          | .error fault => .error fault
          | .ok (value, rest) =>
            let done := setField done key value
            match skipBlank rest with
            | ',' :: rest => readFields fuel room done (skipBlank rest)
            | '}' :: rest => .ok (.object done, rest)
            | _ => .error .malformed
        | _ => .error .malformed
    | _ => .error .malformed

end

/-- The value of a JSON document. One of two calls of the readers takes at least one character, so
twice the length of the text bounds their depth. -/
def read [Host] (source : String) : Except ReadFault Json :=
  let cs := skipBlank source.toList
  match readValue (2 * cs.length + 1) Host.nesting cs with
  | .error fault => .error fault
  | .ok (value, rest) =>
    match skipBlank rest with
    | [] => .ok value
    | _ :: _ => .error .malformed

/-- The wording of a refusal. -/
def ReadFault.message : ReadFault → String
  | .malformed => "malformed document"
  | .tooManyDigits count =>
    "Exceeds the limit (" ++ toString Text.maxDigits ++ " digits) for integer string conversion: value has "
      ++ toString count ++ " digits; use sys.set_int_max_str_digits() to increase the limit"
  | .tooDeep => "maximum recursion depth exceeded"

end SmallImp.Json

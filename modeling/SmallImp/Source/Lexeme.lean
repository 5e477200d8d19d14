import SmallImp.Source.Context

/-!
# Lexemes

A lexeme is a stretch of text: a token, or blanks or a comment that are ignored. Which lexeme a text
starts with depends on the terminals that are allowed there; of several that match, the first in a
fixed order is taken, not the longest.

* `scanFloat?`, `scanName?`, `scanText?`, … — the shapes of the lexemes;
* `lexeme?` — the lexeme a text starts with.

Each scanner gives the lexeme and the text after it.
-/

namespace SmallImp.Source

/-- A row of decimal digits of any script. -/
def scanDigits? (cs : List Char) : Option (List Char × List Char) :=
  match cs.takeWhile Text.isDecimalDigit with
  | [] => none
  | digits => some (digits, cs.dropWhile Text.isDecimalDigit)

/-- The sign of an exponent, which may be missing. -/
def scanSign : List Char → List Char × List Char
  | '+' :: rest => (['+'], rest)
  | '-' :: rest => (['-'], rest)
  | rest => ([], rest)

/-- An exponent: its mark, a sign, and digits. -/
def scanExponent? : List Char → Option (List Char × List Char)
  | mark :: rest =>
    if mark = 'e' ∨ mark = 'E' then
      let (sign, rest) := scanSign rest
      match scanDigits? rest with
      | some (digits, rest) => some (mark :: sign ++ digits, rest)
      | none => none
    else none
  | [] => none

/-- A float: digits on both sides of a point, and an exponent if there is one. -/
def scanFloat? (cs : List Char) : Option (List Char × List Char) :=
  match scanDigits? cs with
  | some (whole, '.' :: rest) =>
    match scanDigits? rest with
    | some (fraction, rest) =>
      match scanExponent? rest with
      | some (exponent, rest) => some (whole ++ '.' :: fraction ++ exponent, rest)
      | none => some (whole ++ '.' :: fraction, rest)
    | none => none
  | _ => none

/-- The characters a name can start with. -/
def startsName (c : Char) : Bool := c.isAlpha || c = '_'

/-- The characters of a name. -/
def continuesName (c : Char) : Bool := c.isAlphanum || c = '_'

/-- A name: a letter or an underscore, then letters, digits and underscores. -/
def scanName? : List Char → Option (List Char × List Char)
  | c :: rest =>
    if startsName c then some (c :: rest.takeWhile continuesName, rest.dropWhile continuesName)
    else none
  | [] => none

/-- The rest of a text literal after its opening quote. It ends at the first quote that is not
escaped, and does not go past the end of a line. -/
def scanTextBody? : List Char → Option (List Char × List Char)
  | [] => none
  | '"' :: rest => some (['"'], rest)
  | '\n' :: _ => none
  | '\\' :: '\n' :: _ => none
  | '\\' :: c :: rest => (scanTextBody? rest).map fun (body, rest) => ('\\' :: c :: body, rest)
  | c :: rest => (scanTextBody? rest).map fun (body, rest) => (c :: body, rest)

/-- A text literal with its quotes. -/
def scanText? : List Char → Option (List Char × List Char)
  | '"' :: rest => (scanTextBody? rest).map fun (body, rest) => ('"' :: body, rest)
  | _ => none

/-- The rest of a block comment, up to the first `*/`. -/
def scanCommentBody? : List Char → Option (List Char × List Char)
  | [] => none
  | '*' :: '/' :: rest => some (['*', '/'], rest)
  | c :: rest => (scanCommentBody? rest).map fun (body, rest) => (c :: body, rest)

/-- A block comment. -/
def scanBlockComment? : List Char → Option (List Char × List Char)
  | '/' :: '*' :: rest => (scanCommentBody? rest).map fun (body, rest) => ('/' :: '*' :: body, rest)
  | _ => none

/-- A line comment, without the line break that ends it. -/
def scanLineComment? : List Char → Option (List Char × List Char)
  | '/' :: '/' :: rest =>
    some ('/' :: '/' :: rest.takeWhile (· ≠ '\n'), rest.dropWhile (· ≠ '\n'))
  | _ => none

/-- The characters that only separate lexemes. -/
def isBlank (c : Char) : Bool := c = ' ' || c = '\t' || c = '\x0c' || c = '\r' || c = '\n'

/-- A row of blanks. -/
def scanBlanks? (cs : List Char) : Option (List Char × List Char) :=
  match cs.takeWhile isBlank with
  | [] => none
  | blanks => some (blanks, cs.dropWhile isBlank)

/-- A given text. -/
def scanExact? (spelling cs : List Char) : Option (List Char × List Char) :=
  if spelling.isPrefixOf cs then some (spelling, cs.drop spelling.length) else none

/-- The first stretch of a text. -/
inductive Lexeme where
  | token (terminal : Terminal) (text rest : List Char)
  | ignored (text rest : List Char)
deriving DecidableEq

/-- A token of the given terminal, if it is allowed and the scanner finds it. -/
def tokenOf? (allows : Terminal → Bool) (terminal : Terminal)
    (scanned : Option (List Char × List Char)) : Option Lexeme :=
  if allows terminal then scanned.map fun (text, rest) => .token terminal text rest else none

/-- A name, which is a keyword if it is written like one that is allowed. -/
def nameLexeme? (allows : Terminal → Bool) (cs : List Char) : Option Lexeme :=
  if allows .name then
    (scanName? cs).map fun (text, rest) =>
      match Keyword.ofText? text with
      | some k => .token (if allows (.keyword k) then .keyword k else .name) text rest
      | none => .token .name text rest
  else none

/-- A stretch that is ignored. -/
def ignoredOf? (scanned : Option (List Char × List Char)) : Option Lexeme :=
  scanned.map fun (text, rest) => .ignored text rest

/-- The first keyword that is allowed and that the text starts with. -/
def keywordLexeme? (allows : Terminal → Bool) (cs : List Char) : Option Lexeme :=
  Keyword.all.findSome? fun k => tokenOf? allows (.keyword k) (scanExact? k.spelling.toList cs)

/-- The first symbol that is allowed and that the text starts with. -/
def symbolLexeme? (allows : Terminal → Bool) (cs : List Char) : Option Lexeme :=
  Symbol.all.findSome? fun s => tokenOf? allows (.symbol s) (scanExact? s.spelling cs)

/-- The lexeme a text starts with. The order matters: a float is tried before an integer, a comment
before the division sign, and a symbol of two characters before one of a single character. -/
def lexeme? (allows : Terminal → Bool) (cs : List Char) : Option Lexeme :=
  (tokenOf? allows .float (scanFloat? cs)).or <|
  (nameLexeme? allows cs).or <|
  (tokenOf? allows .text (scanText? cs)).or <|
  (ignoredOf? (scanBlockComment? cs)).or <|
  (ignoredOf? (scanBlanks? cs)).or <|
  (ignoredOf? (scanLineComment? cs)).or <|
  (tokenOf? allows .int (scanDigits? cs)).or <|
  (keywordLexeme? allows cs).or <|
  symbolLexeme? allows cs

end SmallImp.Source

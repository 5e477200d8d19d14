import SmallImp.Json

/-!
# Writing JSON documents

A document is written over several lines, each level of nesting two blanks further in. Only quotes,
backslashes and control characters are escaped; an empty list or object stays on its line. It is
written piece by piece, so that what comes before a piece that cannot be encoded has been written.

* `Json.pieces` — the pieces in which a value is written;
* `Json.render` — the text of a document;
* `Json.written` — the part of it that can be encoded.
-/

namespace SmallImp.Json

/-- One character inside a JSON string. -/
def escapeChar (c : Char) : List Char :=
  if c = '"' ∨ c = '\\' then ['\\', c]
  else if c = '\n' then ['\\', 'n']
  else if c = '\r' then ['\\', 'r']
  else if c = '\t' then ['\\', 't']
  else if c = '\x08' then ['\\', 'b']
  else if c = '\x0c' then ['\\', 'f']
  else if c.toNat < 0x20 then '\\' :: 'u' :: Text.hex 4 c.toNat
  else [c]

/-- One code point inside a JSON string; a surrogate stands for itself. -/
def escapeCode : Code → Codes
  | .char c => .ofChars (escapeChar c)
  | .surrogate half => [.surrogate half]

/-- A JSON string with its quotes. -/
def renderString (s : Codes) : Codes := .char '"' :: s.flatMap escapeCode ++ [.char '"']

/-- A line break followed by the blanks of a level. -/
def newline (level : Nat) : Codes := .ofChars ('\n' :: List.replicate (2 * level) ' ')

/-- Whether a value is neither a list nor an object. -/
def isAtom : Json → Bool
  | .list _ => false
  | .object _ => false
  | _ => true

/-- The pieces of an item of a list after what separates it from the one before, which is a piece of
its own in front of a list or an object. -/
def ledBy (lead : Codes) (item : Json) (pieces : List Codes) : List Codes :=
  if item.isAtom then [lead ++ pieces.flatten] else lead :: pieces

mutual

/-- The pieces of a value that starts at the given level of nesting. -/
def pieces (level : Nat) : Json → List Codes
  | .null => ["null"]
  | .bool b => [if b then "true" else "false"]
  | .int n => [toString n]
  | .float x => [Decimal.plainText Decimal.documentWords x]
  | .str s => [renderString s]
  | .list [] => ["[]"]
  | .list (item :: rest) =>
    itemPieces (level + 1) ("[" ++ newline (level + 1)) (item :: rest) ++ [newline level, "]"]
  | .object [] => ["\x7b\x7d"]
  | .object (field :: rest) =>
    fieldPieces (level + 1) ["\x7b", newline (level + 1)] (field :: rest) ++
      [newline level, "\x7d"]

/-- The pieces of the items of a list, each on a line of its own; `lead` stands before the first. -/
def itemPieces (level : Nat) (lead : Codes) : List Json → List Codes
  | [] => []
  | item :: rest =>
    ledBy lead item (pieces level item) ++ itemPieces level ("," ++ newline level) rest

/-- The pieces of the fields of an object, each on a line of its own; `lead` stands before the
first. -/
def fieldPieces (level : Nat) (lead : List Codes) : List (Codes × Json) → List Codes
  | [] => []
  | (key, value) :: rest =>
    lead ++ renderString key :: Codes.ofString ": " :: pieces level value ++
      fieldPieces level ["," ++ newline level] rest

end

/-- The text of a document; there is no line break at its end. -/
def render (value : Json) : Codes := (pieces 0 value).flatten

/-- What is written of a document: the pieces before the first one with a surrogate. -/
def written (value : Json) : Codes := ((pieces 0 value).takeWhile Codes.isPlain).flatten

end SmallImp.Json

import SmallImp.Source.Token
import SmallImp.Text.Quoted

/-!
# Faults of source texts

* `LiteralFault` — why a literal has no value;
* `Fault` — why a text is not a program, with the wording that is reported.
-/

namespace SmallImp.Source

/-- Why a literal has no value. -/
inductive LiteralFault where
  /-- An integer that does not fit in 64 bits. -/
  | outOfRange (token : Token)
  /-- An integer with more digits than are converted. -/
  | tooManyDigits
  /-- A text with a malformed escape or a raw line break. -/
  | malformedText
  /-- A text with a null character. -/
  | nullCharacter
deriving DecidableEq

/-- Why a text is not a program. -/
inductive Fault where
  /-- A token that cannot come next. -/
  | unexpected (token : Token)
  /-- The end of the text where something is still due; the place is that of the last token. -/
  | unexpectedEnd (position : Position)
  /-- A character that starts no token. -/
  | noTerminal (c : Char) (position : Position)
  /-- A literal that has no value. -/
  | literal (fault : LiteralFault)
  /-- More than one main block. -/
  | severalMains
deriving DecidableEq

/-- The wording for a token that cannot come next. -/
def unexpectedMessage (label text : String) (p : Position) : String :=
  "Unexpected token Token('" ++ label ++ "', " ++ Text.quote text ++ ") at line "
    ++ toString p.line ++ ", column " ++ toString p.column ++ "."

/-- The wording of a fault; a literal whose conversion breaks off has none. -/
def Fault.message? : Fault → Option String
  | .unexpected token => some (unexpectedMessage token.terminal.label token.string token.position)
  | .unexpectedEnd p => some (unexpectedMessage "$END" "" p)
  | .noTerminal c p =>
    some ("No terminal matches '" ++ String.singleton c
      ++ "' in the current parser context, at line " ++ toString p.line ++ " col "
      ++ toString p.column)
  | .literal (.outOfRange token) =>
    some ("integer literal " ++ token.string ++ " out of range at "
      ++ toString token.position.line ++ ":" ++ toString token.position.column)
  | .literal _ => none
  | .severalMains => some "a program may contain at most one main block"

end SmallImp.Source

import SmallImp.Source.Lexeme
import SmallImp.Source.Reading

/-!
# From text to program

The text is cut into lexemes, each taken in the context that the tokens before it leave; the tokens
are fed to the reading state, which holds trees. A program is made of the trees at the end.

* `Cursor` — how far a text has been read;
* `readAll` — all tokens of a text, with the state they lead to;
* `parse` — the program of a text.
-/

namespace SmallImp.Source

/-- How far a text has been read. The tokens are held in reverse. -/
structure Cursor where
  state : State
  position : Position
  rest : List Char
  tokens : List Token

/-- The beginning of a text. -/
def Cursor.ofText (text : List Char) : Cursor := ⟨.initial, .start, text, []⟩

/-- Why nothing that is allowed matches: a token of another kind, or a character of no token. -/
def Cursor.refusal (c : Cursor) : Fault :=
  match lexeme? (fun _ => true) c.rest, c.rest with
  | some (.token terminal text _), _ => .unexpected ⟨terminal, text, c.position⟩
  | _, char :: _ => .noTerminal char c.position
  | _, [] => .unexpectedEnd c.position

/-- The cursor after one lexeme. -/
def Cursor.step (c : Cursor) : Except Fault Cursor :=
  match lexeme? c.state.context.allows c.rest with
  | none => .error c.refusal
  | some (.ignored text rest) => .ok { c with position := c.position.advance text, rest }
  | some (.token terminal text rest) =>
    let token : Token := ⟨terminal, text, c.position⟩
    match c.state.feed? token with
    | some state => .ok ⟨state, c.position.advance text, rest, token :: c.tokens⟩
    | none => .error (.unexpected token)

/-- The fault of a text that ends too early; it is placed at the last token. -/
def Cursor.endFault (c : Cursor) : Fault :=
  match c.tokens with
  | token :: _ => .unexpectedEnd token.position
  | [] => .unexpectedEnd .start

/-- Reads lexeme after lexeme to the end of the text. -/
def Cursor.run : Nat → Cursor → Except Fault Cursor
  | 0, c => if c.state.mayEnd then .ok c else .error c.endFault
  | fuel + 1, c =>
    match c.rest with
    | [] => if c.state.mayEnd then .ok c else .error c.endFault
    | _ :: _ =>
      match c.step with
      | .ok next => Cursor.run fuel next
      | .error fault => .error fault

/-- All of a text. A lexeme has at least one character, so the length of the text bounds the number
of steps. -/
def readAll (text : List Char) : Except Fault Cursor := Cursor.run text.length (.ofText text)

/-- The program of a text: all of it is read before anything is made of what was read. -/
def parse [Host] (text : String) : Except Fault Program :=
  match readAll text.toList with
  | .error fault => .error fault
  | .ok c => buildProgram c.state.items.reverse

end SmallImp.Source

import SmallImp.Text.DecimalDigit

/-!
# Tokens

* `Keyword`, `Symbol`, `Terminal` — what a token can be, and the label that messages give it;
* `Position` — a line and a column, both counted from one;
* `Token` — a terminal with its text and the position where it starts.
-/

namespace SmallImp.Source

/-- The keywords. -/
inductive Keyword where
  | fn | main | if | else | while | return | true | false
deriving DecidableEq

namespace Keyword

/-- How a keyword is written. -/
def spelling : Keyword → String
  | .fn => "fn"
  | .main => "main"
  | .if => "if"
  | .else => "else"
  | .while => "while"
  | .return => "return"
  | .true => "true"
  | .false => "false"

/-- The keywords in the order in which they are tried. -/
def all : List Keyword := [.fn, .main, .if, .else, .while, .return, .true, .false]

/-- The keyword that is written like this. -/
def ofText? (text : List Char) : Option Keyword := all.find? fun k => k.spelling.toList == text

/-- The label of a keyword in messages. -/
def label : Keyword → String
  | .fn => "FN"
  | .main => "MAIN"
  | .if => "IF"
  | .else => "ELSE"
  | .while => "WHILE"
  | .return => "RETURN"
  | .true => "TRUE"
  | .false => "FALSE"

end Keyword

/-- Brackets, separators and operators. -/
inductive Symbol where
  | arrow | bars | equals | moreEqual | lessEqual
  | lpar | rpar | lbrace | rbrace | comma | semicolon | equal
  | more | less | plus | minus | star | slash | bang | ampersand
deriving DecidableEq

namespace Symbol

/-- How a symbol is written. -/
def spelling : Symbol → List Char
  | .arrow => ['-', '>']
  | .bars => ['|', '|']
  | .equals => ['=', '=']
  | .moreEqual => ['=', '>']
  | .lessEqual => ['=', '<']
  | .lpar => ['(']
  | .rpar => [')']
  | .lbrace => ['\x7b']
  | .rbrace => ['\x7d']
  | .comma => [',']
  | .semicolon => [';']
  | .equal => ['=']
  | .more => ['>']
  | .less => ['<']
  | .plus => ['+']
  | .minus => ['-']
  | .star => ['*']
  | .slash => ['/']
  | .bang => ['!']
  | .ampersand => ['&']

/-- The symbols in the order in which they are tried: those of two characters come first. -/
def all : List Symbol :=
  [.arrow, .bars, .equals, .moreEqual, .lessEqual, .lpar, .rpar, .lbrace, .rbrace, .comma,
    .semicolon, .equal, .more, .less, .plus, .minus, .star, .slash, .bang, .ampersand]

/-- The label of a symbol in messages. -/
def label : Symbol → String
  | .arrow => "__ANON_0"
  | .bars => "__ANON_1"
  | .equals => "__ANON_2"
  | .moreEqual => "__ANON_3"
  | .lessEqual => "__ANON_4"
  | .lpar => "LPAR"
  | .rpar => "RPAR"
  | .lbrace => "LBRACE"
  | .rbrace => "RBRACE"
  | .comma => "COMMA"
  | .semicolon => "SEMICOLON"
  | .equal => "EQUAL"
  | .more => "MORETHAN"
  | .less => "LESSTHAN"
  | .plus => "PLUS"
  | .minus => "MINUS"
  | .star => "STAR"
  | .slash => "SLASH"
  | .bang => "BANG"
  | .ampersand => "AMPERSAND"

end Symbol

/-- What a token can be. -/
inductive Terminal where
  | keyword (k : Keyword)
  | name
  | int
  | float
  | text
  | symbol (s : Symbol)
deriving DecidableEq

/-- The label of a terminal in messages. -/
def Terminal.label : Terminal → String
  | .keyword k => k.label
  | .name => "NAME"
  | .int => "INT"
  | .float => "FLOAT"
  | .text => "ESCAPED_STRING"
  | .symbol s => s.label

/-- A place in a text. -/
structure Position where
  line : Nat
  column : Nat
deriving DecidableEq

namespace Position

/-- The first place of a text. -/
def start : Position := ⟨1, 1⟩

/-- The place after a character. -/
def next (p : Position) (c : Char) : Position :=
  if c = '\n' then ⟨p.line + 1, 1⟩ else ⟨p.line, p.column + 1⟩

/-- The place after a text. -/
def advance (p : Position) (text : List Char) : Position := text.foldl next p

end Position

/-- A terminal with its text and the place where it starts. -/
structure Token where
  terminal : Terminal
  text : List Char
  position : Position
deriving DecidableEq

/-- The text of a token. -/
def Token.string (t : Token) : String := String.ofList t.text

end SmallImp.Source

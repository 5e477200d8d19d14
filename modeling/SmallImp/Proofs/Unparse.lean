import SmallImp.Proofs.SourceCompleteness

/-!
# Programs written down

A program is written as its tokens, with a single space between them. An operand stands in
parentheses where the table of precedences asks for it; what the table leaves open is a choice:
further parentheses around any expression, the spelling of each float, and the place of the main
block among the functions.

* `precedenceTable`, `Expr.precedence` — how tightly operators bind;
* `Style` — the choices that are left open;
* `Program.unparse` — the text of a program;
* `Program.Printable` — the programs that have a text.
-/

namespace SmallImp

open Source

/-! ### Precedences -/

/-- The binary operators, from those that bind least to those that bind most. -/
def precedenceTable : List (List BinaryOp) :=
  [[.or], [.and], [.eq], [.gt, .lt, .ge, .le], [.add, .sub], [.mul, .div]]

/-- The row of a binary operator in the table. -/
def BinaryOp.precedence (op : BinaryOp) : Nat := precedenceTable.findIdx (·.contains op)

/-- The row of an expression: whatever is no binary operation binds more tightly than all of them. -/
def Expr.precedence : Expr → Nat
  | .binary _ op _ => op.precedence
  | _ => precedenceTable.length

/-! ### Pieces of text -/

namespace Source

/-- A bracket, a separator or an operator. -/
def sign (s : Symbol) : Piece := ⟨.symbol s, s.spelling⟩

/-- A keyword. -/
def word (k : Keyword) : Piece := ⟨.keyword k, k.spelling.toList⟩

/-- A name; one that is no text has no characters. -/
def nameOf : Name → Piece
  | .str s => ⟨.name, (Codes.characters s).toList⟩
  | _ => ⟨.name, []⟩

/-- The symbol of a binary operator. -/
def binarySymbol : BinaryOp → Symbol
  | .or => .bars
  | .and => .ampersand
  | .eq => .equals
  | .gt => .more
  | .lt => .less
  | .ge => .moreEqual
  | .le => .lessEqual
  | .add => .plus
  | .sub => .minus
  | .mul => .star
  | .div => .slash

/-- The symbol of a unary operator. -/
def unarySymbol : UnaryOp → Symbol
  | .not => .bang
  | .neg => .minus

/-- A character inside a text literal. Only what cannot stand there is escaped. -/
def escapeChar (c : Char) : List Char :=
  if c = '\\' then ['\\', '\\']
  else if c = '"' then ['\\', '"']
  else if c = '\n' then ['\\', 'n']
  else if c = '\r' then ['\\', 'r']
  else if c = '\x00' then ['\\', 'x', '0', '0']
  else [c]

/-- A code point inside a text literal. A surrogate is written by its code. -/
def escapeCode : Code → List Char
  | .char c => escapeChar c
  | .surrogate half => (Code.surrogate half).escaped

/-- Pieces in a number of pairs of parentheses. -/
def enclosed (pairs : Nat) (xs : List Piece) : List Piece :=
  List.replicate pairs (sign .lpar) ++ xs ++ List.replicate pairs (sign .rpar)

/-- Parts with a comma between them. -/
def separated : List (List Piece) → List Piece
  | [] => []
  | [xs] => xs
  | xs :: ys :: rest => xs ++ sign .comma :: separated (ys :: rest)

end Source

/-- What is left open when a program is written down. The place of an expression is the way to it
from the program, the last step first. -/
structure Style where
  /-- The number of pairs of parentheses around an expression beyond those that are needed. -/
  extra : List Nat → Nat
  /-- The spelling of a float. -/
  float : List Nat → Float → List Char
  float_spells : ∀ place x, (∃ text, SpellsFloat x text) → SpellsFloat x (float place x)
  /-- The number of functions before the main block. -/
  mainAt : Nat

/-! ### Programs as pieces -/

section

variable (style : Style)

/-- The piece of a literal. -/
def Literal.piece (place : List Nat) : Literal → Piece
  | .int n => ⟨.int, Nat.toDigits 10 n.toNat⟩
  | .float x => ⟨.float, style.float place x⟩
  | .bool b => word (if b then .true else .false)
  | .str s => ⟨.text, '"' :: s.flatMap escapeCode ++ ['"']⟩

/-- The parentheses around an expression: those needed and those added. -/
def Style.pairs (place : List Nat) (needed : Bool) : Nat := style.extra place + needed.toNat

mutual

/-- The pieces of an expression. A left operand needs parentheses if it binds less tightly than the
operator, a right one also if it binds equally tightly, and that of a unary operator if it is a binary
operation. -/
def Expr.pieces (place : List Nat) : Expr → List Piece
  | .lit value => [value.piece style place]
  | .var name => [nameOf name]
  | .binary left op right =>
    enclosed (style.pairs (0 :: place) (left.precedence < op.precedence))
        (Expr.pieces (0 :: place) left) ++
      sign (binarySymbol op) ::
        enclosed (style.pairs (1 :: place) (right.precedence ≤ op.precedence))
          (Expr.pieces (1 :: place) right)
  | .unary op operand =>
    sign (unarySymbol op) ::
      enclosed (style.pairs (0 :: place) (operand.precedence < precedenceTable.length))
        (Expr.pieces (0 :: place) operand)
  | .call name args => nameOf name :: sign .lpar :: separated (Expr.allPieces place 0 args) ++ [sign .rpar]
  | .misfit _ => []

/-- The pieces of arguments, each for itself. -/
def Expr.allPieces (place : List Nat) (index : Nat) : List Expr → List (List Piece)
  | [] => []
  | e :: rest =>
    enclosed (style.pairs (index :: place) false) (Expr.pieces (index :: place) e) ::
      Expr.allPieces place (index + 1) rest

end

/-- The pieces of an expression that is no operand. -/
def Expr.whole (place : List Nat) (e : Expr) : List Piece :=
  enclosed (style.pairs place false) (e.pieces style place)

mutual

/-- The pieces of a statement. -/
def Stmt.pieces (place : List Nat) : Stmt → List Piece
  | .declare tag name none => [nameOf tag, nameOf name, sign .semicolon]
  | .declare tag name (some value) =>
    nameOf tag :: nameOf name :: sign .equal :: value.whole style (0 :: place) ++ [sign .semicolon]
  | .assign name value =>
    nameOf name :: sign .equal :: value.whole style (0 :: place) ++ [sign .semicolon]
  | .branch condition yes .absent =>
    word .if :: sign .lpar :: condition.whole style (0 :: place) ++
      sign .rpar :: Block.pieces (1 :: place) yes
  | .branch condition yes no =>
    word .if :: sign .lpar :: condition.whole style (0 :: place) ++
      sign .rpar :: Block.pieces (1 :: place) yes ++ word .else :: Block.pieces (2 :: place) no
  | .loop condition body =>
    word .while :: sign .lpar :: condition.whole style (0 :: place) ++
      sign .rpar :: Block.pieces (1 :: place) body
  | .ret value => word .return :: value.whole style (0 :: place) ++ [sign .semicolon]
  | .expr value => value.whole style (0 :: place) ++ [sign .semicolon]
  | .block _ => []
  | .misfit _ => []

/-- The pieces of a block, with its braces. -/
def Block.pieces (place : List Nat) : Block → List Piece
  | .stmts body => sign .lbrace :: Stmt.allPieces place 0 body ++ [sign .rbrace]
  | .main body => sign .lbrace :: Stmt.allPieces place 0 body ++ [sign .rbrace]
  | .absent => []
  | .misfit _ => []

/-- The pieces of statements, one after the other. -/
def Stmt.allPieces (place : List Nat) (index : Nat) : List Stmt → List Piece
  | [] => []
  | stmt :: rest => Stmt.pieces (index :: place) stmt ++ Stmt.allPieces place (index + 1) rest

end

/-- The pieces of a parameter. -/
def Param.pieces : Param → List Piece
  | .param tag name => [nameOf tag, nameOf name]
  | .misfit _ => []

/-- The pieces of a function. -/
def Func.pieces (place : List Nat) : Func → List Piece
  | .decl f =>
    word .fn :: nameOf f.name :: sign .lpar :: separated (f.params.map Param.pieces) ++
      sign .rpar :: sign .arrow :: nameOf f.returnTag :: f.body.pieces style place
  | .misfit _ => []

/-- The pieces of functions, each for itself. -/
def Func.allPieces (index : Nat) : List Func → List (List Piece)
  | [] => []
  | f :: rest => f.pieces style [index] :: Func.allPieces (index + 1) rest

/-- The pieces of what stands in the place of the main block. -/
def Block.mainPieces : Block → List (List Piece)
  | .main body => [word .main :: (Block.main body).pieces style [0]]
  | _ => []

/-- The pieces of a program. -/
def Program.pieces (p : Program) : List Piece :=
  let functions := Func.allPieces style 1 p.functions
  (functions.take style.mainAt ++ p.main.mainPieces style ++ functions.drop style.mainAt).flatten

/-- The text of a program. -/
def Program.unparse (p : Program) : String := String.ofList (spaced (p.pieces style))

end

/-! ### Printable programs -/

/-- A name that is an identifier and no keyword. -/
def Json.IsIdentifier (name : Json) : Prop :=
  ∃ s : String, name = .str s ∧ IsName s.toList ∧ ∀ k : Keyword, s ≠ k.spelling

/-- A literal that has a spelling: an integer that is not negative and fits in 64 bits, a float that
some decimal reads as, any truth value and any text. -/
def Literal.Printable : Literal → Prop
  | .int n => 0 ≤ n ∧ n ≤ maxInt
  | .float x => ∃ text, SpellsFloat x text
  | .bool _ => True
  | .str _ => True

mutual

/-- An expression with printable names and literals. -/
def Expr.Printable : Expr → Prop
  | .lit value => value.Printable
  | .var name => name.IsIdentifier
  | .binary left _ right => Expr.Printable left ∧ Expr.Printable right
  | .unary _ operand => Expr.Printable operand
  | .call name args => name.IsIdentifier ∧ Expr.AllPrintable args
  | .misfit _ => False

/-- Expressions, all of them printable. -/
def Expr.AllPrintable : List Expr → Prop
  | [] => True
  | e :: rest => Expr.Printable e ∧ Expr.AllPrintable rest

end

mutual

/-- A statement that can stand in a source text. -/
def Stmt.Printable : Stmt → Prop
  | .declare tag name start => tag.IsIdentifier ∧ name.IsIdentifier ∧ ∀ e ∈ start, e.Printable
  | .assign name value => name.IsIdentifier ∧ value.Printable
  | .branch condition yes no => condition.Printable ∧ Block.Printable yes ∧
      (no = .absent ∨ Block.Printable no)
  | .loop condition body => condition.Printable ∧ Block.Printable body
  | .ret value => value.Printable
  | .expr value => value.Printable
  | .block _ => False
  | .misfit _ => False

/-- A block that can stand in a source text. -/
def Block.Printable : Block → Prop
  | .stmts body => Stmt.AllPrintable body
  | .main _ => False
  | .absent => False
  | .misfit _ => False

/-- Statements, all of them printable. -/
def Stmt.AllPrintable : List Stmt → Prop
  | [] => True
  | stmt :: rest => Stmt.Printable stmt ∧ Stmt.AllPrintable rest

end

/-- A parameter that can stand in a source text. -/
def Param.Printable : Param → Prop
  | .param tag name => tag.IsIdentifier ∧ name.IsIdentifier
  | .misfit _ => False

/-- A function that can stand in a source text. -/
def Func.Printable : Func → Prop
  | .decl f => f.name.IsIdentifier ∧ f.returnTag.IsIdentifier ∧ (∀ p ∈ f.params, p.Printable) ∧
      f.body.Printable
  | .misfit _ => False

/-- A main block that can stand in a source text, or none. -/
def Block.MainPrintable : Block → Prop
  | .main body => Stmt.AllPrintable body
  | .absent => True
  | .stmts _ => False
  | .misfit _ => False

/-- A program that has a text: names are identifiers, integers are not negative and fit in 64 bits,
floats have a spelling, and every part is of the kind that its place asks for. -/
structure Program.Printable (p : Program) : Prop where
  functions : ∀ f ∈ p.functions, f.Printable
  main : p.main.MainPrintable

end SmallImp

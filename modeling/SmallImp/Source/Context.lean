import SmallImp.Source.Token

/-!
# Lexical contexts

Which terminals may come next depends on what was read last. A context is one such set.

* `Context` — the contexts;
* `Context.allows` — the terminals of a context.
-/

namespace SmallImp.Source

/-- The contexts, named for what was read last or for what is due. -/
inductive Context where
  /-- The start of the text. -/
  | start
  /-- A block is due. -/
  | brace
  /-- A name is due. -/
  | name
  /-- An opening parenthesis is due. -/
  | paren
  /-- After the parenthesis that opens parameters. -/
  | paramsOpen
  /-- After a parameter. -/
  | afterParam
  /-- The arrow before a return type is due. -/
  | arrow
  /-- At the start of a statement. -/
  | statement
  /-- After a closing brace. -/
  | afterBlock
  /-- After the name that starts a statement. -/
  | statementName
  /-- After the name of a declared variable. -/
  | declared
  /-- An operand is due. -/
  | operand
  /-- After the parenthesis that opens arguments. -/
  | arguments
  /-- After a name inside an expression. -/
  | afterName
  /-- After any other operand. -/
  | afterOperand
deriving DecidableEq

/-- The terminals an operand can start with. -/
def Terminal.startsOperand : Terminal → Bool
  | .keyword .true => true
  | .keyword .false => true
  | .name => true
  | .int => true
  | .float => true
  | .text => true
  | .symbol .lpar => true
  | .symbol .minus => true
  | .symbol .bang => true
  | _ => false

/-- The terminals that are binary operators. -/
def Terminal.isOperator : Terminal → Bool
  | .symbol .bars => true
  | .symbol .ampersand => true
  | .symbol .equals => true
  | .symbol .more => true
  | .symbol .less => true
  | .symbol .moreEqual => true
  | .symbol .lessEqual => true
  | .symbol .plus => true
  | .symbol .minus => true
  | .symbol .star => true
  | .symbol .slash => true
  | _ => false

/-- The terminals a statement can start with, and the brace that ends a block. -/
def Terminal.startsStatement : Terminal → Bool
  | .keyword .if => true
  | .keyword .while => true
  | .keyword .return => true
  | .symbol .rbrace => true
  | t => t.startsOperand

/-- The terminals that may come next. -/
def Context.allows : Context → Terminal → Bool
  | .start, t => t = .keyword .fn || t = .keyword .main
  | .brace, t => t = .symbol .lbrace
  | .name, t => t = .name
  | .paren, t => t = .symbol .lpar
  | .paramsOpen, t => t = .name || t = .symbol .rpar
  | .afterParam, t => t = .symbol .comma || t = .symbol .rpar
  | .arrow, t => t = .symbol .arrow
  | .statement, t => t.startsStatement
  | .afterBlock, t =>
    t = .keyword .else || t = .keyword .fn || t = .keyword .main || t.startsStatement
  | .statementName, t =>
    t = .name || t = .symbol .equal || t = .symbol .lpar || t = .symbol .semicolon || t.isOperator
  | .declared, t => t = .symbol .equal || t = .symbol .semicolon
  | .operand, t => t.startsOperand
  | .arguments, t => t = .symbol .rpar || t.startsOperand
  | .afterName, t =>
    t = .symbol .lpar || t = .symbol .rpar || t = .symbol .comma || t = .symbol .semicolon
      || t.isOperator
  | .afterOperand, t =>
    t = .symbol .rpar || t = .symbol .comma || t = .symbol .semicolon || t.isOperator

end SmallImp.Source

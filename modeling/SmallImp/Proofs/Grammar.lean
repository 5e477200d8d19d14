import Mathlib.Tactic.Common
import SmallImp.Source.Tree

/-!
# The grammar of source texts

The grammar says which rows of tokens are programs, and what program such a row stands for. It is
given by its derivations: each constructor of `Derivation` is a production, and the arguments of the
constructor are the right-hand side of the production.

    program   := item*
    item      := "fn" NAME "(" params ")" "->" NAME block | "main" block
    params    := [NAME NAME ("," NAME NAME)*]
    block     := "{" statement* "}"
    statement := NAME NAME ";" | NAME NAME "=" expr ";" | NAME "=" expr ";"
               | "if" "(" expr ")" block ["else" block] | "while" "(" expr ")" block
               | "return" expr ";" | expr ";"
    layer     := tighter layer | layer operator tighter layer        for each binary layer
    unary     := "!" unary | "-" unary | primary
    primary   := INT | FLOAT | "true" | "false" | TEXT | NAME "(" args ")" | NAME | "(" expr ")"
    args      := [expr ("," expr)*]

* `Layer` — the layers of expressions, each with its operators;
* `Derivation`, `Derivation.yield` — derivations and the tokens they derive;
* `Derivation.tree` — the syntax tree of a derivation;
* `Derivation.image` — what a derivation stands for, production by production;
* `Spells`, `Means` — a row of tokens has a derivation with a given tree, or that stands for a given
  thing.
-/

namespace SmallImp.Source

/-! ### Layers -/

/-- The layers of expressions, from the one whose operator binds least to the operands that nothing
takes apart. -/
inductive Layer where
  | disjunction | conjunction | equality | comparison | sum | product | unary | primary
deriving DecidableEq

namespace Layer

/-- The next layer that binds more tightly; there is none after the last. -/
def tighter : Layer → Layer
  | .disjunction => .conjunction
  | .conjunction => .equality
  | .equality => .comparison
  | .comparison => .sum
  | .sum => .product
  | .product => .unary
  | .unary => .primary
  | .primary => .primary

/-- How tightly a layer binds. -/
def depth : Layer → Nat
  | .disjunction => 0
  | .conjunction => 1
  | .equality => 2
  | .comparison => 3
  | .sum => 4
  | .product => 5
  | .unary => 6
  | .primary => 7

theorem depth_injective {l m : Layer} (h : l.depth = m.depth) : l = m := by
  cases l <;> cases m <;> simp [depth] at h ⊢

theorem depth_tighter {l : Layer} (h : l ≠ .primary) : l.tighter.depth = l.depth + 1 := by
  cases l with
  | primary => exact absurd rfl h
  | _ => rfl

theorem ne_primary_of_depth_lt {l m : Layer} (h : l.depth < m.depth) : l ≠ .primary := by
  rintro rfl
  cases m <;> simp [depth] at h

/-- The binary operators of a layer and the terminals that stand for them. -/
def operators : Layer → List (Terminal × BinaryOp)
  | .disjunction => [(.symbol .bars, .or)]
  | .conjunction => [(.symbol .ampersand, .and)]
  | .equality => [(.symbol .equals, .eq)]
  | .comparison =>
    [(.symbol .more, .gt), (.symbol .less, .lt), (.symbol .moreEqual, .ge),
      (.symbol .lessEqual, .le)]
  | .sum => [(.symbol .plus, .add), (.symbol .minus, .sub)]
  | .product => [(.symbol .star, .mul), (.symbol .slash, .div)]
  | .unary => []
  | .primary => []

end Layer

/-- The unary operators and the terminals that stand for them. -/
def unaryOperators : List (Terminal × UnaryOp) := [(.symbol .bang, .not), (.symbol .minus, .neg)]

/-- The terminals of literals. -/
def literalTerminals : List Terminal := [.int, .float, .keyword .true, .keyword .false, .text]

/-- The terminal of the tokens that a rule makes literals of. -/
def LiteralRule.terminal : LiteralRule → Terminal
  | .int => .int
  | .float => .float
  | .yes => .keyword .true
  | .no => .keyword .false
  | .text => .text

theorem Terminal.literalRule?_eq_some_iff {k : Terminal} {rule : LiteralRule} :
    k.literalRule? = some rule ↔ k = rule.terminal := by
  constructor
  · intro h
    unfold Terminal.literalRule? at h
    split at h <;> cases h <;> rfl
  · rintro rfl
    cases rule <;> rfl

theorem LiteralRule.terminal_mem (rule : LiteralRule) : rule.terminal ∈ literalTerminals := by
  cases rule <;> decide

theorem LiteralRule.terminal_injective {rule rule' : LiteralRule}
    (h : rule.terminal = rule'.terminal) : rule = rule' := by
  cases rule <;> cases rule' <;> first | rfl | cases h

/-- The nonterminals. -/
inductive Nonterminal where
  | program | item | params | paramList | block | statements | statement
  | layer (l : Layer)
  | args | argList
deriving DecidableEq

/-- The nonterminal of whole expressions. -/
abbrev Nonterminal.expression : Nonterminal := .layer .disjunction

/-- A token of a given terminal. -/
@[ext]
structure Leaf (k : Terminal) where
  token : Token
  terminal_eq : token.terminal = k

theorem Leaf.mem_literalTerminals {rule : LiteralRule} (leaf : Leaf rule.terminal) :
    leaf.token.terminal ∈ literalTerminals := by
  rw [leaf.terminal_eq]
  exact rule.terminal_mem

/-- A keyword. -/
abbrev Word (k : Keyword) : Type := Leaf (.keyword k)

/-- A bracket, a separator or an operator. -/
abbrev Sign (s : Symbol) : Type := Leaf (.symbol s)

/-- The derivations from a nonterminal. -/
inductive Derivation : Nonterminal → Type where
  | noItem : Derivation .program
  | moreItems (first : Derivation .item) (rest : Derivation .program) : Derivation .program
  | function (fn : Word .fn) (name : Leaf .name) (lpar : Sign .lpar) (params : Derivation .params)
      (rpar : Sign .rpar) (arrow : Sign .arrow) (tag : Leaf .name) (body : Derivation .block) :
      Derivation .item
  | main (main : Word .main) (body : Derivation .block) : Derivation .item
  | noParam : Derivation .params
  | someParams (list : Derivation .paramList) : Derivation .params
  | lastParam (tag name : Leaf .name) : Derivation .paramList
  | moreParams (tag name : Leaf .name) (comma : Sign .comma) (rest : Derivation .paramList) :
      Derivation .paramList
  | block (lbrace : Sign .lbrace) (body : Derivation .statements) (rbrace : Sign .rbrace) :
      Derivation .block
  | noStatement : Derivation .statements
  | moreStatements (first : Derivation .statement) (rest : Derivation .statements) :
      Derivation .statements
  | declare (tag name : Leaf .name) (semicolon : Sign .semicolon) : Derivation .statement
  | start (tag name : Leaf .name) (equal : Sign .equal) (value : Derivation .expression)
      (semicolon : Sign .semicolon) : Derivation .statement
  | assign (name : Leaf .name) (equal : Sign .equal) (value : Derivation .expression)
      (semicolon : Sign .semicolon) : Derivation .statement
  | branch (word : Word .if) (lpar : Sign .lpar) (condition : Derivation .expression)
      (rpar : Sign .rpar) (yes : Derivation .block) : Derivation .statement
  | branchElse (word : Word .if) (lpar : Sign .lpar) (condition : Derivation .expression)
      (rpar : Sign .rpar) (yes : Derivation .block) (other : Word .else) (no : Derivation .block) :
      Derivation .statement
  | loop (word : Word .while) (lpar : Sign .lpar) (condition : Derivation .expression)
      (rpar : Sign .rpar) (body : Derivation .block) : Derivation .statement
  | ret (word : Word .return) (value : Derivation .expression) (semicolon : Sign .semicolon) :
      Derivation .statement
  | expr (value : Derivation .expression) (semicolon : Sign .semicolon) : Derivation .statement
  | pass {l : Layer} (notLast : l ≠ .primary) (operand : Derivation (.layer l.tighter)) :
      Derivation (.layer l)
  | binary {l : Layer} (left : Derivation (.layer l)) (sign : Token) (op : BinaryOp)
      (isOperator : (sign.terminal, op) ∈ l.operators) (right : Derivation (.layer l.tighter)) :
      Derivation (.layer l)
  | unary (sign : Token) (op : UnaryOp) (isOperator : (sign.terminal, op) ∈ unaryOperators)
      (operand : Derivation (.layer .unary)) : Derivation (.layer .unary)
  | literal (rule : LiteralRule) (leaf : Leaf rule.terminal) : Derivation (.layer .primary)
  | call (name : Leaf .name) (lpar : Sign .lpar) (args : Derivation .args) (rpar : Sign .rpar) :
      Derivation (.layer .primary)
  | var (name : Leaf .name) : Derivation (.layer .primary)
  | group (lpar : Sign .lpar) (inner : Derivation .expression) (rpar : Sign .rpar) :
      Derivation (.layer .primary)
  | noArg : Derivation .args
  | someArgs (list : Derivation .argList) : Derivation .args
  | lastArg (value : Derivation .expression) : Derivation .argList
  | moreArgs (value : Derivation .expression) (comma : Sign .comma) (rest : Derivation .argList) :
      Derivation .argList

/-- The tokens that a derivation derives, in the order of the text. -/
def Derivation.yield : {n : Nonterminal} → Derivation n → List Token
  | _, .noItem => []
  | _, .moreItems first rest => first.yield ++ rest.yield
  | _, .function fn name lpar params rpar arrow tag body =>
    fn.token :: name.token :: lpar.token :: params.yield ++
      rpar.token :: arrow.token :: tag.token :: body.yield
  | _, .main word body => word.token :: body.yield
  | _, .noParam => []
  | _, .someParams list => list.yield
  | _, .lastParam tag name => [tag.token, name.token]
  | _, .moreParams tag name comma rest => tag.token :: name.token :: comma.token :: rest.yield
  | _, .block lbrace body rbrace => lbrace.token :: body.yield ++ [rbrace.token]
  | _, .noStatement => []
  | _, .moreStatements first rest => first.yield ++ rest.yield
  | _, .declare tag name semicolon => [tag.token, name.token, semicolon.token]
  | _, .start tag name equal value semicolon =>
    tag.token :: name.token :: equal.token :: value.yield ++ [semicolon.token]
  | _, .assign name equal value semicolon =>
    name.token :: equal.token :: value.yield ++ [semicolon.token]
  | _, .branch word lpar condition rpar yes =>
    word.token :: lpar.token :: condition.yield ++ rpar.token :: yes.yield
  | _, .branchElse word lpar condition rpar yes other no =>
    word.token :: lpar.token :: condition.yield ++
      rpar.token :: yes.yield ++ other.token :: no.yield
  | _, .loop word lpar condition rpar body =>
    word.token :: lpar.token :: condition.yield ++ rpar.token :: body.yield
  | _, .ret word value semicolon => word.token :: value.yield ++ [semicolon.token]
  | _, .expr value semicolon => value.yield ++ [semicolon.token]
  | _, .pass _ operand => operand.yield
  | _, .binary left sign _ _ right => left.yield ++ sign :: right.yield
  | _, .unary sign _ _ operand => sign :: operand.yield
  | _, .literal _ leaf => [leaf.token]
  | _, .call name lpar args rpar => name.token :: lpar.token :: args.yield ++ [rpar.token]
  | _, .var name => [name.token]
  | _, .group lpar inner rpar => lpar.token :: inner.yield ++ [rpar.token]
  | _, .noArg => []
  | _, .someArgs list => list.yield
  | _, .lastArg value => value.yield
  | _, .moreArgs value comma rest => value.yield ++ comma.token :: rest.yield

/-! ### Trees of derivations -/

/-- The trees of the derivations from a nonterminal. -/
@[reducible]
def Nonterminal.Tree : Nonterminal → Type
  | .program => List ItemTree
  | .item => ItemTree
  | .params => List ParamTree
  | .paramList => List ParamTree
  | .block => List StmtTree
  | .statements => List StmtTree
  | .statement => StmtTree
  | .layer _ => ExprTree
  | .args => List ExprTree
  | .argList => List ExprTree

/-- The name that a token spells. -/
def Leaf.spelled (leaf : Leaf .name) : String := leaf.token.string

/-- The syntax tree of a derivation: brackets, separators and layers without an operator leave no
trace. -/
def Derivation.tree : {n : Nonterminal} → Derivation n → n.Tree
  | _, .noItem => []
  | _, .moreItems first rest => first.tree :: rest.tree
  | _, .function _ name _ params _ _ tag body => .func name.spelled tag.spelled params.tree body.tree
  | _, .main _ body => .main body.tree
  | _, .noParam => []
  | _, .someParams list => list.tree
  | _, .lastParam tag name => [⟨tag.spelled, name.spelled⟩]
  | _, .moreParams tag name _ rest => ⟨tag.spelled, name.spelled⟩ :: rest.tree
  | _, .block _ body _ => body.tree
  | _, .noStatement => []
  | _, .moreStatements first rest => first.tree :: rest.tree
  | _, .declare tag name _ => .declare tag.spelled name.spelled
  | _, .start tag name _ value _ => .start tag.spelled name.spelled value.tree
  | _, .assign name _ value _ => .assign name.spelled value.tree
  | _, .branch _ _ condition _ yes => .branch condition.tree yes.tree
  | _, .branchElse _ _ condition _ yes _ no => .branchElse condition.tree yes.tree no.tree
  | _, .loop _ _ condition _ body => .loop condition.tree body.tree
  | _, .ret _ value _ => .ret value.tree
  | _, .expr value _ => .expr value.tree
  | _, .pass _ operand => operand.tree
  | _, .binary left _ op _ right => .binary left.tree op right.tree
  | _, .unary _ op _ operand => .unary op operand.tree
  | _, .literal rule leaf => .literal rule leaf.token
  | _, .call name _ args _ => .call name.spelled args.tree
  | _, .var name => .var name.spelled
  | _, .group _ inner _ => inner.tree
  | _, .noArg => []
  | _, .someArgs list => list.tree
  | _, .lastArg value => [value.tree]
  | _, .moreArgs value _ rest => value.tree :: rest.tree

/-! ### What derivations stand for -/

/-- What the derivations from a nonterminal stand for. -/
@[reducible]
def Nonterminal.Image : Nonterminal → Type
  | .program => List Item
  | .item => Item
  | .params => List Param
  | .paramList => List Param
  | .block => List Stmt
  | .statements => List Stmt
  | .statement => Stmt
  | .layer _ => Expr
  | .args => List Expr
  | .argList => List Expr

section

variable [Host]

/-- The literal of a token, if a rule makes one of it. -/
def Token.literal? (t : Token) : Option (Except LiteralFault Literal) :=
  t.terminal.literalRule?.map (·.literal t)

theorem Token.literal?_eq {t : Token} {rule : LiteralRule} (h : t.terminal = rule.terminal) :
    t.literal? = some (rule.literal t) := by
  rw [literal?, Terminal.literalRule?_eq_some_iff.mpr h, Option.map_some]

/-- The fault of a token whose literal has no value. -/
def Token.fault? (t : Token) : Option LiteralFault :=
  match t.literal? with
  | some (.error fault) => some fault
  | _ => none

/-- The value of the token of a literal. A token whose literal has no value counts as zero, so that
every derivation has an image; whether there is such a token is a separate question. -/
def Token.value (t : Token) : Literal :=
  match t.literal? with
  | some (.ok value) => value
  | _ => default

/-- The parameter that two tokens declare. -/
def parameter (tag name : Leaf .name) : Param := .param (.str tag.spelled) (.str name.spelled)

/-- What a derivation stands for. -/
def Derivation.image : {n : Nonterminal} → Derivation n → n.Image
  | _, .noItem => []
  | _, .moreItems first rest => first.image :: rest.image
  | _, .function _ name _ params _ _ tag body =>
    .func (.decl ⟨.str name.spelled, .str tag.spelled, params.image, .stmts body.image⟩)
  | _, .main _ body => .main body.image
  | _, .noParam => []
  | _, .someParams list => list.image
  | _, .lastParam tag name => [parameter tag name]
  | _, .moreParams tag name _ rest => parameter tag name :: rest.image
  | _, .block _ body _ => body.image
  | _, .noStatement => []
  | _, .moreStatements first rest => first.image :: rest.image
  | _, .declare tag name _ => .declare (.str tag.spelled) (.str name.spelled) none
  | _, .start tag name _ value _ => .declare (.str tag.spelled) (.str name.spelled) (some value.image)
  | _, .assign name _ value _ => .assign (.str name.spelled) value.image
  | _, .branch _ _ condition _ yes => .branch condition.image (.stmts yes.image) .absent
  | _, .branchElse _ _ condition _ yes _ no =>
    .branch condition.image (.stmts yes.image) (.stmts no.image)
  | _, .loop _ _ condition _ body => .loop condition.image (.stmts body.image)
  | _, .ret _ value _ => .ret value.image
  | _, .expr value _ => .expr value.image
  | _, .pass _ operand => operand.image
  | _, .binary left _ op _ right => .binary left.image op right.image
  | _, .unary _ op _ operand => .unary op operand.image
  | _, .literal _ leaf => .lit leaf.token.value
  | _, .call name _ args _ => .call (.str name.spelled) args.image
  | _, .var name => .var (.str name.spelled)
  | _, .group _ inner _ => inner.image
  | _, .noArg => []
  | _, .someArgs list => list.image
  | _, .lastArg value => [value.image]
  | _, .moreArgs value _ rest => value.image :: rest.image

end

/-! ### Rows of tokens and their trees -/

/-- A row of tokens that has a derivation with a tree. -/
def Spells (n : Nonterminal) (v : n.Tree) (w : List Token) : Prop :=
  ∃ d : Derivation n, d.tree = v ∧ d.yield = w

/-- A row of tokens that has a derivation standing for `v`. -/
def Means [Host] (n : Nonterminal) (v : n.Image) (w : List Token) : Prop :=
  ∃ d : Derivation n, d.image = v ∧ d.yield = w

/-- What is derived from a layer is derived from all looser ones. -/
theorem Derivation.loosen {l m : Layer} (hle : m.depth ≤ l.depth) (d : Derivation (.layer l)) :
    ∃ d' : Derivation (.layer m),
      d'.tree = d.tree ∧ (∀ [Host], d'.image = d.image) ∧ d'.yield = d.yield := by
  by_cases heq : m.depth = l.depth
  · obtain rfl := Layer.depth_injective heq
    exact ⟨d, rfl, rfl, rfl⟩
  · have hlast : m ≠ .primary := Layer.ne_primary_of_depth_lt (m := l) (by omega)
    have hdepth := Layer.depth_tighter hlast
    obtain ⟨d', htree, himage, hyield⟩ := d.loosen (m := m.tighter) (by omega)
    exact ⟨.pass hlast d', htree, himage, hyield⟩
termination_by l.depth - m.depth

theorem Spells.loosen {l m : Layer} {v : ExprTree} {w : List Token} (hle : m.depth ≤ l.depth)
    (h : Spells (.layer l) v w) : Spells (.layer m) v w := by
  obtain ⟨d, rfl, rfl⟩ := h
  obtain ⟨d', htree, -, hyield⟩ := d.loosen hle
  exact ⟨d', htree, hyield⟩

theorem Means.loosen [Host] {l m : Layer} {v : Expr} {w : List Token} (hle : m.depth ≤ l.depth)
    (h : Means (.layer l) v w) : Means (.layer m) v w := by
  obtain ⟨d, rfl, rfl⟩ := h
  obtain ⟨d', -, himage, hyield⟩ := d.loosen hle
  exact ⟨d', himage, hyield⟩

end SmallImp.Source

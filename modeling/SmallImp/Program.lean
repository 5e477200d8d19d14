import SmallImp.Node

/-!
# Programs

Expressions, statements, blocks, functions and programs, each a type of its own. A tree read from a
document may have a part of the wrong kind in any place; such a part is kept as a misfit, so that
every tree has a program form and nothing of it is lost. Programs from source text have no misfits.

* `Expr`, `Stmt`, `Block`, `Param`, `FuncDecl`, `Func`, `Program` — the sorts;
* `Expr.ofNode`, … — a tree read as a part of a program;
* `Expr.toNode`, … — a part of a program as a tree.
-/

namespace SmallImp

/-- Expressions. -/
inductive Expr where
  | lit (value : Literal)
  | var (name : Name)
  | binary (left : Expr) (op : BinaryOp) (right : Expr)
  | unary (op : UnaryOp) (operand : Expr)
  | call (name : Name) (args : List Expr)
  /-- A tree of another kind in the place of an expression. -/
  | misfit (node : Node)
deriving Inhabited

mutual

/-- Statements. -/
inductive Stmt where
  | declare (tag : TypeTag) (name : Name) (start : Option Expr)
  | assign (name : Name) (value : Expr)
  | branch (condition : Expr) (yes no : Block)
  | loop (condition : Expr) (body : Block)
  | ret (value : Expr)
  | expr (value : Expr)
  | block (body : List Stmt)
  /-- A tree of another kind in the place of a statement. -/
  | misfit (node : Node)

/-- What stands in the place of a block. -/
inductive Block where
  | stmts (body : List Stmt)
  /-- The body of a main block. -/
  | main (body : List Stmt)
  /-- Nothing, as in an `if` without `else`. -/
  | absent
  /-- A tree without statements in the place of a block. -/
  | misfit (node : Node)

end

instance : Inhabited Stmt := ⟨.block []⟩

instance : Inhabited Block := ⟨.absent⟩

/-- A parameter of a function. -/
inductive Param where
  | param (tag : TypeTag) (name : Name)
  /-- A tree of another kind in the place of a parameter. -/
  | misfit (node : Node)
deriving Inhabited

/-- A function declaration. -/
structure FuncDecl where
  name : Name
  returnTag : TypeTag
  params : List Param
  body : Block
deriving Inhabited

/-- What stands in the place of a function. -/
inductive Func where
  | decl (f : FuncDecl)
  /-- A tree of another kind in the place of a function. -/
  | misfit (node : Node)
deriving Inhabited

/-- A program: functions in source order, and a main block if there is one. -/
structure Program where
  functions : List Func
  main : Block
deriving Inhabited

/-- The type and name of the variable a parameter declares. -/
def Param.binding? : Param → Option (TypeTag × Name)
  | .param tag name => some (tag, name)
  | .misfit node => node.binding?

/-- The name a function is registered under. -/
def Func.name? : Func → Option Name
  | .decl f => some f.name
  | .misfit node => node.name?

/-! ### Trees read as parts of programs -/

mutual

/-- A tree read as an expression. -/
def Expr.ofNode : Node → Expr
  | .lit value => .lit value
  | .ident name => .var name
  | .binary left op right => .binary (Expr.ofNode left) op (Expr.ofNode right)
  | .unary op operand => .unary op (Expr.ofNode operand)
  | .call name args => .call name (Expr.ofNodes args)
  | node => .misfit node

/-- Trees read as expressions. -/
def Expr.ofNodes : List Node → List Expr
  | [] => []
  | node :: rest => Expr.ofNode node :: Expr.ofNodes rest

end

/-- The start value of a declaration, unless it is absent. -/
def Expr.ofNode? : Node → Option Expr
  | .absent => none
  | node => some (Expr.ofNode node)

mutual

/-- A tree read as a statement. -/
def Stmt.ofNode : Node → Stmt
  | .declare tag name start => .declare tag name (Expr.ofNode? start)
  | .assign name value => .assign name (Expr.ofNode value)
  | .branch condition yes no =>
    .branch (Expr.ofNode condition) (Block.ofNode yes) (Block.ofNode no)
  | .loop condition body => .loop (Expr.ofNode condition) (Block.ofNode body)
  | .ret value => .ret (Expr.ofNode value)
  | .expr value => .expr (Expr.ofNode value)
  | .block body => .block (Stmt.ofNodes body)
  | node => .misfit node

/-- A tree read as a block. -/
def Block.ofNode : Node → Block
  | .block body => .stmts (Stmt.ofNodes body)
  | .main body => .main (Stmt.ofNodes body)
  | .absent => .absent
  | node => .misfit node

/-- Trees read as statements. -/
def Stmt.ofNodes : List Node → List Stmt
  | [] => []
  | node :: rest => Stmt.ofNode node :: Stmt.ofNodes rest

end

/-- A tree read as a parameter. -/
def Param.ofNode : Node → Param
  | .param tag name => .param tag name
  | node => .misfit node

/-- A tree read as a function. -/
def Func.ofNode : Node → Func
  | .func name returnTag params body =>
    .decl ⟨name, returnTag, params.map Param.ofNode, Block.ofNode body⟩
  | node => .misfit node

/-- A tree read as a program, which only a program node can be. -/
def Program.ofNode? : Node → Option Program
  | .program functions body => some ⟨functions.map Func.ofNode, Block.ofNode body⟩
  | _ => none

/-! ### Parts of programs as trees -/

mutual

/-- An expression as a tree. -/
def Expr.toNode : Expr → Node
  | .lit value => .lit value
  | .var name => .ident name
  | .binary left op right => .binary (Expr.toNode left) op (Expr.toNode right)
  | .unary op operand => .unary op (Expr.toNode operand)
  | .call name args => .call name (Expr.toNodes args)
  | .misfit node => node

/-- Expressions as trees. -/
def Expr.toNodes : List Expr → List Node
  | [] => []
  | e :: rest => Expr.toNode e :: Expr.toNodes rest

end

mutual

/-- A statement as a tree. -/
def Stmt.toNode : Stmt → Node
  | .declare tag name start =>
    .declare tag name (match start with | some e => e.toNode | none => .absent)
  | .assign name value => .assign name value.toNode
  | .branch condition yes no => .branch condition.toNode (Block.toNode yes) (Block.toNode no)
  | .loop condition body => .loop condition.toNode (Block.toNode body)
  | .ret value => .ret value.toNode
  | .expr value => .expr value.toNode
  | .block body => .block (Stmt.toNodes body)
  | .misfit node => node

/-- A block as a tree. -/
def Block.toNode : Block → Node
  | .stmts body => .block (Stmt.toNodes body)
  | .main body => .main (Stmt.toNodes body)
  | .absent => .absent
  | .misfit node => node

/-- Statements as trees. -/
def Stmt.toNodes : List Stmt → List Node
  | [] => []
  | s :: rest => Stmt.toNode s :: Stmt.toNodes rest

end

/-- A parameter as a tree. -/
def Param.toNode : Param → Node
  | .param tag name => .param tag name
  | .misfit node => node

/-- A function as a tree. -/
def Func.toNode : Func → Node
  | .decl f => .func f.name f.returnTag (f.params.map Param.toNode) f.body.toNode
  | .misfit node => node

/-- A program as a tree. -/
def Program.toNode (p : Program) : Node := .program (p.functions.map Func.toNode) p.main.toNode

end SmallImp

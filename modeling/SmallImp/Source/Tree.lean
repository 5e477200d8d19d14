import SmallImp.Program
import SmallImp.Source.Literal

/-!
# Syntax trees

What is read of a text is first a tree of the grammar, in which every literal is still a token. The
program is made of the tree from the leaves up and from left to right: each node is made after its
parts, and the first token that no literal can be made of ends it all. Only when all items are made
is it looked at how many main blocks there are.

* `ExprTree`, `StmtTree`, `ItemTree` — the trees;
* `ExprTree.build`, `StmtTree.build`, `ItemTree.build` — what they are made into;
* `assemble` — the program of the items of a text.
-/

namespace SmallImp.Source

/-! ### Trees -/

/-- The tree of an expression. -/
inductive ExprTree where
  | literal (rule : LiteralRule) (token : Token)
  | var (name : String)
  | binary (left : ExprTree) (op : BinaryOp) (right : ExprTree)
  | unary (op : UnaryOp) (operand : ExprTree)
  | call (name : String) (args : List ExprTree)

/-- The tree of a statement. -/
inductive StmtTree where
  | declare (tag name : String)
  | start (tag name : String) (value : ExprTree)
  | assign (name : String) (value : ExprTree)
  | branch (condition : ExprTree) (yes : List StmtTree)
  | branchElse (condition : ExprTree) (yes no : List StmtTree)
  | loop (condition : ExprTree) (body : List StmtTree)
  | ret (value : ExprTree)
  | expr (value : ExprTree)

/-- The tree of a parameter. -/
structure ParamTree where
  tag : String
  name : String

/-- The tree of a function or of a main block. -/
inductive ItemTree where
  | func (name tag : String) (params : List ParamTree) (body : List StmtTree)
  | main (body : List StmtTree)

/-! ### From trees to programs -/

variable [Host]

mutual

/-- The expression of a tree. -/
def ExprTree.build : ExprTree → Except LiteralFault Expr
  | .literal rule token => do
    let value ← rule.literal token
    return .lit value
  | .var name => return .var (.str name)
  | .binary left op right => do
    let left ← left.build
    let right ← right.build
    return .binary left op right
  | .unary op operand => do
    let operand ← operand.build
    return .unary op operand
  | .call name args => do
    let args ← ExprTree.buildAll args
    return .call (.str name) args

/-- The expressions of trees. -/
def ExprTree.buildAll : List ExprTree → Except LiteralFault (List Expr)
  | [] => return []
  | tree :: rest => do
    let e ← tree.build
    let es ← ExprTree.buildAll rest
    return e :: es

end

mutual

/-- The statement of a tree. -/
def StmtTree.build : StmtTree → Except LiteralFault Stmt
  | .declare tag name => return .declare (.str tag) (.str name) none
  | .start tag name value => do
    let value ← value.build
    return .declare (.str tag) (.str name) (some value)
  | .assign name value => do
    let value ← value.build
    return .assign (.str name) value
  | .branch condition yes => do
    let condition ← condition.build
    let yes ← StmtTree.buildAll yes
    return .branch condition (.stmts yes) .absent
  | .branchElse condition yes no => do
    let condition ← condition.build
    let yes ← StmtTree.buildAll yes
    let no ← StmtTree.buildAll no
    return .branch condition (.stmts yes) (.stmts no)
  | .loop condition body => do
    let condition ← condition.build
    let body ← StmtTree.buildAll body
    return .loop condition (.stmts body)
  | .ret value => do
    let value ← value.build
    return .ret value
  | .expr value => do
    let value ← value.build
    return .expr value

/-- The statements of trees. -/
def StmtTree.buildAll : List StmtTree → Except LiteralFault (List Stmt)
  | [] => return []
  | tree :: rest => do
    let stmt ← tree.build
    let stmts ← StmtTree.buildAll rest
    return stmt :: stmts

end

/-- The parameter of a tree. -/
def ParamTree.build (tree : ParamTree) : Param := .param (.str tree.tag) (.str tree.name)

/-- A function or a main block. -/
inductive Item where
  | func (func : Func)
  | main (body : List Stmt)

/-- The function of an item, if it is one. -/
def Item.func? : Item → Option Func
  | .func f => some f
  | .main _ => none

/-- The body of a main block, if an item is one. -/
def Item.main? : Item → Option (List Stmt)
  | .func _ => none
  | .main body => some body

/-- The item of a tree. -/
def ItemTree.build : ItemTree → Except LiteralFault Item
  | .func name tag params body => do
    let body ← StmtTree.buildAll body
    return .func (.decl ⟨.str name, .str tag, params.map ParamTree.build, .stmts body⟩)
  | .main body => do
    let body ← StmtTree.buildAll body
    return .main body

/-- The items of trees. -/
def ItemTree.buildAll : List ItemTree → Except LiteralFault (List Item)
  | [] => return []
  | tree :: rest => do
    let item ← tree.build
    let items ← ItemTree.buildAll rest
    return item :: items

/-- The program of the items of a text: the functions in their order, wherever the main block stands
among them. Several main blocks are a fault. -/
def assemble (items : List Item) : Except Fault Program :=
  match items.filterMap Item.main? with
  | [] => .ok ⟨items.filterMap Item.func?, .absent⟩
  | [body] => .ok ⟨items.filterMap Item.func?, .main body⟩
  | _ => .error .severalMains

/-- The program of the trees of a text. -/
def buildProgram (trees : List ItemTree) : Except Fault Program := do
  let items ← (ItemTree.buildAll trees).mapError .literal
  assemble items

end SmallImp.Source

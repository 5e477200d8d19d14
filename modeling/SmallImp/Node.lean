import SmallImp.Name
import SmallImp.Value.Operators

/-!
# Trees

A tree read from a document has a known kind at every node, but its parts may be of any kind, or
absent: an expression may stand where a block belongs. `Node` holds all such trees. Programs, whose
parts are sorted, are defined in `SmallImp.Program`, and every program is such a tree.

* `Node` — the trees;
* `Node.kind?` — the name of a node's kind;
* `Node.name?`, `Node.binding?` — the name a node carries, and the variable it would declare.
-/

namespace SmallImp

/-- A tree whose parts may be of any kind. -/
inductive Node where
  | absent
  | lit (value : Literal)
  | ident (name : Name)
  | binary (left : Node) (op : BinaryOp) (right : Node)
  | unary (op : UnaryOp) (operand : Node)
  | call (name : Name) (args : List Node)
  | block (body : List Node)
  | assign (name : Name) (value : Node)
  | declare (tag : TypeTag) (name : Name) (start : Node)
  | branch (condition yes no : Node)
  | loop (condition body : Node)
  | ret (value : Node)
  | expr (value : Node)
  | param (tag : TypeTag) (name : Name)
  | func (name : Name) (returnTag : TypeTag) (params : List Node) (body : Node)
  | main (body : List Node)
  | program (functions : List Node) (main : Node)
deriving Inhabited

namespace Node

/-- The name of a literal's kind. -/
def literalKind : Literal → String
  | .int _ => "IntLiteral"
  | .float _ => "FloatLiteral"
  | .bool _ => "BoolLiteral"
  | .str _ => "StrLiteral"

/-- The name of a node's kind, unless it is absent. -/
def kind? : Node → Option String
  | .absent => none
  | .lit value => some (literalKind value)
  | .ident _ => some "Ident"
  | .binary _ _ _ => some "BinaryOp"
  | .unary _ _ => some "UnaryOp"
  | .call _ _ => some "Call"
  | .block _ => some "Block"
  | .assign _ _ => some "Assign"
  | .declare _ _ _ => some "VarDecl"
  | .branch _ _ _ => some "IfStmt"
  | .loop _ _ => some "WhileStmt"
  | .ret _ => some "ReturnStmt"
  | .expr _ => some "ExprStmt"
  | .param _ _ => some "FuncParam"
  | .func _ _ _ _ => some "FuncDecl"
  | .main _ => some "MainBlock"
  | .program _ _ => some "Program"

/-- The class of a node as messages show it. -/
def className (n : Node) : String :=
  match n.kind? with
  | some kind => "tinyimp.ast." ++ kind
  | none => "NoneType"

/-- The name that a node carries, if its kind has one. -/
def name? : Node → Option Name
  | .ident name => some name
  | .call name _ => some name
  | .assign name _ => some name
  | .declare _ name _ => some name
  | .param _ name => some name
  | .func name _ _ _ => some name
  | _ => none

/-- The type and name of the variable that a node would declare, if its kind has both. -/
def binding? : Node → Option (TypeTag × Name)
  | .declare tag name _ => some (tag, name)
  | .param tag name => some (tag, name)
  | _ => none

end Node

end SmallImp

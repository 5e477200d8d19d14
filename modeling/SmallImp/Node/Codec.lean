import SmallImp.Node

/-!
# Trees as JSON values

Every node is an object whose field `type` names its kind, followed by its parts.

* `Node.toJson` — writing a tree;
* `Node.ofJson` — reading one, which checks literals and operators and leaves names and the kinds
  of parts unchecked;
* `LoadFault` — why a value is refused.
-/

namespace SmallImp

/-- Why a JSON value is not a tree. -/
inductive LoadFault where
  /-- A value other than an object stands where a node belongs. -/
  | notNode
  /-- A value that has no items stands where a list belongs. -/
  | notList (shape : String)
  /-- A field is missing. -/
  | missing (field : String)
  /-- An integer literal holds something else. -/
  | notInt (found : Json)
  /-- An integer literal does not fit in 64 bits. -/
  | outOfRange (n : Int)
  /-- A float literal holds something else. -/
  | notNumber (found : Json)
  /-- A truth value literal holds something else. -/
  | notBool (found : Json)
  /-- A text literal holds something else. -/
  | notText (found : Json)
  /-- There is no such binary operator. -/
  | binaryOp (found : Json)
  /-- There is no such unary operator. -/
  | unaryOp (found : Json)
  /-- There is no such kind of node. -/
  | kind (found : Json)
  /-- A float literal holds an integer that is too large for a float. -/
  | tooLarge

/-- The wording of a refusal. -/
def LoadFault.message : LoadFault → Codes
  | .notNode => "Invalid AST object"
  | .notList shape => "'" ++ shape ++ "' object is not iterable"
  | .missing field => Text.quote field
  | .notInt found => "IntLiteral value must be an integer, got " ++ found.literal
  | .outOfRange n => "IntLiteral value " ++ toString n ++ " out of range"
  | .notNumber found => "FloatLiteral value must be a number, got " ++ found.literal
  | .notBool found => "BoolLiteral value must be true or false, got " ++ found.literal
  | .notText found => "StrLiteral value must be a string, got " ++ found.literal
  | .binaryOp found => "unknown binary operator " ++ found.literal
  | .unaryOp found => "unknown unary operator " ++ found.literal
  | .kind found => "Unknown AST node type: " ++ found.text
  | .tooLarge => "int too large to convert to float"

namespace Node

/-! ### Writing -/

/-- The value of a literal as a JSON value. -/
def literalJson : Literal → Json
  | .int n => .int n
  | .float x => .float x
  | .bool b => .bool b
  | .str s => .str s

/-- An object for a node of the given kind. -/
def object (kind : String) (fields : List (Codes × Json)) : Json :=
  .object (("type", .str kind) :: fields)

mutual

/-- A tree as a JSON value. -/
def toJson : Node → Json
  | .absent => .null
  | .lit value => object (literalKind value) [("value", literalJson value)]
  | .ident name => object "Ident" [("name", name)]
  | .binary left op right =>
    object "BinaryOp" [("left", toJson left), ("op", .str op.symbol), ("right", toJson right)]
  | .unary op operand => object "UnaryOp" [("op", .str op.symbol), ("operand", toJson operand)]
  | .call name args => object "Call" [("name", name), ("args", .list (toJsons args))]
  | .block body => object "Block" [("statements", .list (toJsons body))]
  | .assign name value => object "Assign" [("name", name), ("value", toJson value)]
  | .declare tag name start =>
    object "VarDecl" [("type_name", tag), ("name", name), ("expr", toJson start)]
  | .branch condition yes no =>
    object "IfStmt"
      [("condition", toJson condition), ("then_block", toJson yes), ("else_block", toJson no)]
  | .loop condition body =>
    object "WhileStmt" [("condition", toJson condition), ("body", toJson body)]
  | .ret value => object "ReturnStmt" [("value", toJson value)]
  | .expr value => object "ExprStmt" [("expr", toJson value)]
  | .param tag name => object "FuncParam" [("type_name", tag), ("name", name)]
  | .func name returnTag params body =>
    object "FuncDecl"
      [("name", name), ("return_type", returnTag), ("params", .list (toJsons params)),
        ("body", toJson body)]
  | .main body => object "MainBlock" [("statements", .list (toJsons body))]
  | .program functions body =>
    object "Program" [("functions", .list (toJsons functions)), ("main", toJson body)]

/-- Trees as JSON values. -/
def toJsons : List Node → List Json
  | [] => []
  | n :: rest => toJson n :: toJsons rest

end

/-! ### Reading -/

/-- The value of a field, with what it is when read as a node and as a list of nodes. -/
structure Part where
  json : Json
  node : Except LoadFault Node
  nodes : Except LoadFault (List Node)

/-- The parts of an object by the names of their fields. -/
abbrev Parts := List (Codes × Part)

/-- A field that may be missing. -/
def Parts.get? (parts : Parts) (field : String) : Option Part :=
  (parts.find? fun part => part.1 == ↑field).map (·.2)

/-- A field that has to be there. -/
def Parts.get (parts : Parts) (field : String) : Except LoadFault Part :=
  match parts.get? field with
  | some part => .ok part
  | none => .error (.missing field)

/-- A field as it stands. -/
def Parts.json (parts : Parts) (field : String) : Except LoadFault Json :=
  (parts.get field).map (·.json)

/-- A field read as a node. -/
def Parts.node (parts : Parts) (field : String) : Except LoadFault Node :=
  (parts.get field).bind (·.node)

/-- A field read as a node, which is absent if the field is missing. -/
def Parts.nodeOrAbsent (parts : Parts) (field : String) : Except LoadFault Node :=
  match parts.get? field with
  | some part => part.node
  | none => .ok .absent

/-- A field read as a list of nodes. -/
def Parts.nodes (parts : Parts) (field : String) : Except LoadFault (List Node) :=
  (parts.get field).bind (·.nodes)

/-- A field read as a list of nodes, which is empty if the field is missing. -/
def Parts.nodesOrNone (parts : Parts) (field : String) : Except LoadFault (List Node) :=
  match parts.get? field with
  | some part => part.nodes
  | none => .ok []

/-- The integer literal of a value; it has to fit in 64 bits. -/
def intLiteral : Json → Except LoadFault Literal
  | .int n => if InRange n then .ok (.int n) else .error (.outOfRange n)
  | found => .error (.notInt found)

/-- A float literal; an integer is taken as the nearest float. -/
def floatLiteral : Json → Except LoadFault Literal
  | .float x => .ok (.float x)
  | .int n =>
    let x := Binary64.ofInt n
    if Binary64.isInfinite x then .error .tooLarge else .ok (.float x)
  | found => .error (.notNumber found)

/-- The truth literal of a value. -/
def boolLiteral : Json → Except LoadFault Literal
  | .bool b => .ok (.bool b)
  | found => .error (.notBool found)

/-- The text literal of a value. -/
def textLiteral : Json → Except LoadFault Literal
  | .str s => .ok (.str s)
  | found => .error (.notText found)

/-- The binary operator that a value names. -/
def binaryOp (found : Json) : Except LoadFault BinaryOp :=
  match found with
  | .str s =>
    match (Codes.string? s).bind BinaryOp.ofSymbol? with
    | some op => .ok op
    | none => .error (.binaryOp found)
  | _ => .error (.binaryOp found)

/-- The unary operator that a value names. -/
def unaryOp (found : Json) : Except LoadFault UnaryOp :=
  match found with
  | .str s =>
    match (Codes.string? s).bind UnaryOp.ofSymbol? with
    | some op => .ok op
    | none => .error (.unaryOp found)
  | _ => .error (.unaryOp found)

/-- A literal node from its field `value`. -/
def literal (read : Json → Except LoadFault Literal) (parts : Parts) : Except LoadFault Node := do
  let value ← parts.json "value"
  return .lit (← read value)

/-- The node of an object of the given kind. Fields are looked at in the order in which they are
written, and operators after all parts have been read. -/
def assemble (parts : Parts) : String → Except LoadFault Node
  | "IntLiteral" => literal intLiteral parts
  | "FloatLiteral" => literal floatLiteral parts
  | "BoolLiteral" => literal boolLiteral parts
  | "StrLiteral" => literal textLiteral parts
  | "Ident" => return .ident (← parts.json "name")
  | "BinaryOp" => do
    let left ← parts.node "left"
    let symbol ← parts.json "op"
    let right ← parts.node "right"
    return .binary left (← binaryOp symbol) right
  | "UnaryOp" => do
    let symbol ← parts.json "op"
    let operand ← parts.node "operand"
    return .unary (← unaryOp symbol) operand
  | "Call" => do
    let name ← parts.json "name"
    return .call name (← parts.nodesOrNone "args")
  | "Block" => return .block (← parts.nodes "statements")
  | "Assign" => do
    let name ← parts.json "name"
    return .assign name (← parts.node "value")
  | "VarDecl" => do
    let tag ← parts.json "type_name"
    let name ← parts.json "name"
    return .declare tag name (← parts.nodeOrAbsent "expr")
  | "IfStmt" => do
    let condition ← parts.node "condition"
    let yes ← parts.node "then_block"
    return .branch condition yes (← parts.nodeOrAbsent "else_block")
  | "WhileStmt" => do
    let condition ← parts.node "condition"
    return .loop condition (← parts.node "body")
  | "ReturnStmt" => return .ret (← parts.node "value")
  | "ExprStmt" => return .expr (← parts.node "expr")
  | "FuncParam" => do
    let tag ← parts.json "type_name"
    return .param tag (← parts.json "name")
  | "FuncDecl" => do
    let name ← parts.json "name"
    let returnTag ← parts.json "return_type"
    let params ← parts.nodes "params"
    return .func name returnTag params (← parts.node "body")
  | "MainBlock" => return .main (← parts.nodes "statements")
  | "Program" => do
    let functions ← parts.nodesOrNone "functions"
    return .program functions (← parts.nodeOrAbsent "main")
  | kind => .error (.kind (.str kind))

/-- The node of an object with the given parts. -/
def ofParts (parts : Parts) : Except LoadFault Node :=
  match parts.get? "type" with
  | none => .error (.kind .null)
  | some part =>
    match part.json with
    | .str kind =>
      match Codes.string? kind with
      | some kind => assemble parts kind
      | none => .error (.kind (.str kind))
    | found => .error (.kind found)

mutual

/-- The tree of a JSON value. -/
def ofJson : Json → Except LoadFault Node
  | .null => .ok .absent
  | .object fields => ofParts (partsOf fields)
  | _ => .error .notNode

/-- The parts of an object. Each is read in both ways, and the kind of the object decides which of
the two is looked at. -/
def partsOf : List (Codes × Json) → Parts
  | [] => []
  | (field, value) :: rest => (field, ⟨value, ofJson value, listOf value⟩) :: partsOf rest

/-- The list of nodes of a JSON value. A text or an object has items too, but none of them is a
node, so only the empty ones are lists of nodes. -/
def listOf : Json → Except LoadFault (List Node)
  | .list items => itemsOf items
  | .str s => if s.isEmpty then .ok [] else .error .notNode
  | .object fields => if fields.isEmpty then .ok [] else .error .notNode
  | value => .error (.notList value.shape)

/-- The nodes of the items of a list. -/
def itemsOf : List Json → Except LoadFault (List Node)
  | [] => .ok []
  | item :: rest => do
    let n ← ofJson item
    let ns ← itemsOf rest
    return n :: ns

end

end Node

end SmallImp

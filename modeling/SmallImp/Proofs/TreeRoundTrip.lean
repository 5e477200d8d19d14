import SmallImp.Proofs.CodePoints
import SmallImp.Proofs.SourceSorts
import SmallImp.Proofs.TreeSorts

/-!
# Trees through JSON values and back

A tree that was read from a JSON value, however odd its parts are, is the same tree after it has been
written and read again; so is the tree of every program that a source text stands for.

* `Node.ofJson_toJson` — reading undoes writing, for trees with integer literals of 64 bits;
* `Program.ofNode?_toNode` — a well-sorted program is the program of its tree;
* `Node.Within` — the trees inside a tree;
* `Json.Checked` — what is expected of operators and literals in the object of a node;
* `load_dump_load` — loading, dumping and loading again is loading.
-/

namespace SmallImp

/-! ### Reading undoes writing -/

@[simp] theorem BinaryOp.ofSymbol?_symbol (op : BinaryOp) :
    BinaryOp.ofSymbol? op.symbol = some op := by
  cases op <;> decide

@[simp] theorem UnaryOp.ofSymbol?_symbol (op : UnaryOp) : UnaryOp.ofSymbol? op.symbol = some op := by
  cases op <;> decide

namespace Node

@[simp] theorem ok_bind {α β : Type} (a : α) (f : α → Except LoadFault β) :
    (Except.ok a >>= f) = f a := rfl

@[simp] theorem pure_eq_ok {α : Type} (a : α) : (pure a : Except LoadFault α) = .ok a := rfl

@[simp] theorem binaryOp_symbol (op : BinaryOp) : binaryOp (.str op.symbol) = .ok op := by
  simp [binaryOp]

@[simp] theorem unaryOp_symbol (op : UnaryOp) : unaryOp (.str op.symbol) = .ok op := by
  simp [unaryOp]

/-! The fields of an object that was just written. -/

@[simp] theorem ofJson_object (kind : String) (fields : List (Codes × Json)) :
    ofJson (object kind fields) = assemble (partsOf (("type", .str kind) :: fields)) kind := by
  simp [object, ofJson, partsOf, ofParts, Parts.get?]

@[simp] theorem get?_partsOf_cons (field name : String) (value : Json)
    (rest : List (Codes × Json)) : (partsOf ((↑name, value) :: rest)).get? field =
      if name = field then some ⟨value, ofJson value, listOf value⟩
      else (partsOf rest).get? field := by
  rw [partsOf, Parts.get?, List.find?_cons, Parts.get?]
  by_cases h : name = field
  · simp [h]
  · have hne : (Codes.ofString name == Codes.ofString field) = false := by simpa using h
    simp [h, hne]

theorem json_eq {parts : Parts} {field : String} {part : Part} (h : parts.get? field = some part) :
    parts.json field = .ok part.json := by
  simp [Parts.json, Parts.get, h, Except.map]

theorem node_eq {parts : Parts} {field : String} {part : Part} (h : parts.get? field = some part) :
    parts.node field = part.node := by
  simp [Parts.node, Parts.get, h, Except.bind]

theorem nodes_eq {parts : Parts} {field : String} {part : Part} (h : parts.get? field = some part) :
    parts.nodes field = part.nodes := by
  simp [Parts.nodes, Parts.get, h, Except.bind]

theorem literal_toJson {value : Literal} (h : value.InRange) :
    ofJson (toJson (.lit value)) = .ok (.lit value) := by
  cases value with
  | int n =>
    have hn : InRange n := h
    simp [toJson, literalKind, literalJson, assemble, literal, json_eq, intLiteral, hn]
  | float x => simp [toJson, literalKind, literalJson, assemble, literal, json_eq, floatLiteral]
  | bool b => simp [toJson, literalKind, literalJson, assemble, literal, json_eq, boolLiteral]
  | str s => simp [toJson, literalKind, literalJson, assemble, literal, json_eq, textLiteral]

mutual

/-- **Reading a tree undoes writing it.** -/
theorem ofJson_toJson : ∀ node : Node, node.Bounded → ofJson node.toJson = .ok node
  | .absent, _ => rfl
  | .lit _, h => literal_toJson h
  | .ident name, _ => by simp [toJson, assemble, json_eq]
  | .binary left op right, h => by
    have hl := ofJson_toJson left h.1
    have hr := ofJson_toJson right h.2
    simp [toJson, assemble, json_eq, node_eq, hl, hr]
  | .unary op operand, h => by
    have ho := ofJson_toJson operand h
    simp [toJson, assemble, json_eq, node_eq, ho]
  | .call name args, h => by
    have ha := itemsOf_toJsons args h
    simp [toJson, assemble, json_eq, Parts.nodesOrNone, listOf, ha]
  | .block body, h => by
    have hb := itemsOf_toJsons body h
    simp [toJson, assemble, nodes_eq, listOf, hb]
  | .assign name value, h => by
    have hv := ofJson_toJson value h
    simp [toJson, assemble, json_eq, node_eq, hv]
  | .declare tag name start, h => by
    have hs := ofJson_toJson start h
    simp [toJson, assemble, json_eq, Parts.nodeOrAbsent, hs]
  | .branch condition yes no, h => by
    have hc := ofJson_toJson condition h.1
    have hy := ofJson_toJson yes h.2.1
    have hn := ofJson_toJson no h.2.2
    simp [toJson, assemble, node_eq, Parts.nodeOrAbsent, hc, hy, hn]
  | .loop condition body, h => by
    have hc := ofJson_toJson condition h.1
    have hb := ofJson_toJson body h.2
    simp [toJson, assemble, node_eq, hc, hb]
  | .ret value, h => by
    have hv := ofJson_toJson value h
    simp [toJson, assemble, node_eq, hv]
  | .expr value, h => by
    have hv := ofJson_toJson value h
    simp [toJson, assemble, node_eq, hv]
  | .param tag name, _ => by simp [toJson, assemble, json_eq]
  | .func name returnTag params body, h => by
    have hp := itemsOf_toJsons params h.1
    have hb := ofJson_toJson body h.2
    simp [toJson, assemble, json_eq, node_eq, nodes_eq, listOf, hp, hb]
  | .main body, h => by
    have hb := itemsOf_toJsons body h
    simp [toJson, assemble, nodes_eq, listOf, hb]
  | .program functions body, h => by
    have hf := itemsOf_toJsons functions h.1
    have hb := ofJson_toJson body h.2
    simp [toJson, assemble, Parts.nodesOrNone, Parts.nodeOrAbsent, listOf, hf, hb]

theorem itemsOf_toJsons : ∀ nodes : List Node, AllBounded nodes →
    itemsOf (toJsons nodes) = .ok nodes
  | [], _ => rfl
  | node :: rest, h => by
    have hn := ofJson_toJson node h.1
    have hr := itemsOf_toJsons rest h.2
    simp [toJsons, itemsOf, hn, hr]

end

end Node

/-! ### Well-sorted programs and their trees -/

mutual

theorem Expr.ofNode_toNode : ∀ e : Expr, e.Sorted True → Expr.ofNode e.toNode = e
  | .lit _, _ => rfl
  | .var _, _ => rfl
  | .binary left op right, h => by
    rw [Expr.toNode, Expr.ofNode, Expr.ofNode_toNode left h.1, Expr.ofNode_toNode right h.2]
  | .unary op operand, h => by
    rw [Expr.toNode, Expr.ofNode, Expr.ofNode_toNode operand h]
  | .call name args, h => by
    rw [Expr.toNode, Expr.ofNode, Expr.ofNodes_toNodes args h.2]
  | .misfit _, h => absurd trivial h

theorem Expr.ofNodes_toNodes : ∀ es : List Expr, Expr.AllSorted True es →
    Expr.ofNodes (Expr.toNodes es) = es
  | [], _ => rfl
  | e :: rest, h => by
    rw [Expr.toNodes, Expr.ofNodes, Expr.ofNode_toNode e h.1, Expr.ofNodes_toNodes rest h.2]

end

theorem Expr.ofNode?_toNode {e : Expr} (h : e.Sorted True) : Expr.ofNode? e.toNode = some e := by
  have he := Expr.ofNode_toNode e h
  cases e with
  | misfit node => exact absurd trivial h
  | _ => exact congrArg some he

mutual

theorem Stmt.ofNode_toNode : ∀ stmt : Stmt, stmt.Sorted True → Stmt.ofNode stmt.toNode = stmt
  | .declare tag name none, _ => rfl
  | .declare tag name (some e), h => by
    rw [Stmt.toNode, Stmt.ofNode, Expr.ofNode?_toNode (h.2 e rfl)]
  | .assign name value, h => by rw [Stmt.toNode, Stmt.ofNode, Expr.ofNode_toNode value h.2]
  | .branch condition yes no, h => by
    rw [Stmt.toNode, Stmt.ofNode, Expr.ofNode_toNode condition h.1, Block.ofNode_toNode yes h.2.1,
      Block.ofNode_toNode no h.2.2]
  | .loop condition body, h => by
    rw [Stmt.toNode, Stmt.ofNode, Expr.ofNode_toNode condition h.1, Block.ofNode_toNode body h.2]
  | .ret value, h => by rw [Stmt.toNode, Stmt.ofNode, Expr.ofNode_toNode value h]
  | .expr value, h => by rw [Stmt.toNode, Stmt.ofNode, Expr.ofNode_toNode value h]
  | .block _, h => absurd trivial h.1
  | .misfit _, h => absurd trivial h

theorem Block.ofNode_toNode {optional : Prop} : ∀ block : Block, block.Sorted True optional →
    Block.ofNode block.toNode = block
  | .stmts body, h => by rw [Block.toNode, Block.ofNode, Stmt.ofNodes_toNodes body h]
  | .main _, h => absurd trivial h.1
  | .absent, _ => rfl
  | .misfit _, h => absurd trivial h

theorem Stmt.ofNodes_toNodes : ∀ body : List Stmt, Stmt.AllSorted True body →
    Stmt.ofNodes (Stmt.toNodes body) = body
  | [], _ => rfl
  | stmt :: rest, h => by
    rw [Stmt.toNodes, Stmt.ofNodes, Stmt.ofNode_toNode stmt h.1, Stmt.ofNodes_toNodes rest h.2]

end

theorem Param.ofNode_toNode {param : Param} (h : param.Sorted True) :
    Param.ofNode param.toNode = param := by
  cases param with
  | param tag name => rfl
  | misfit node => exact absurd trivial h

theorem Func.ofNode_toNode {func : Func} (h : func.Sorted True) : Func.ofNode func.toNode = func := by
  cases func with
  | misfit node => exact absurd trivial h
  | decl f =>
    have hf : f.Sorted True := h
    have hparams : (f.params.map Param.toNode).map Param.ofNode = f.params := by
      rw [List.map_map]
      have hid : ∀ param ∈ f.params, (Param.ofNode ∘ Param.toNode) param = id param :=
        fun param hp => Param.ofNode_toNode (hf.params param hp)
      rw [List.map_congr_left hid, List.map_id]
    rw [Func.toNode, Func.ofNode, hparams, Block.ofNode_toNode f.body hf.body]

theorem Block.ofNode_toNode_of_main {block : Block} (h : block.MainSorted True) :
    Block.ofNode block.toNode = block := by
  cases block with
  | main body => rw [Block.toNode, Block.ofNode, Stmt.ofNodes_toNodes body h]
  | stmts body => exact absurd trivial h.1
  | absent => rfl
  | misfit node => exact absurd trivial h

/-- A well-sorted program is the program of its tree. -/
theorem Program.ofNode?_toNode {p : Program} (h : p.WellSorted) :
    Program.ofNode? p.toNode = some p := by
  have hfunctions : (p.functions.map Func.toNode).map Func.ofNode = p.functions := by
    rw [List.map_map]
    have hid : ∀ func ∈ p.functions, (Func.ofNode ∘ Func.toNode) func = id func :=
      fun func hf => Func.ofNode_toNode (h.functions func hf)
    rw [List.map_congr_left hid, List.map_id]
  rw [Program.toNode, Program.ofNode?, hfunctions, Block.ofNode_toNode_of_main h.main]

mutual

theorem Expr.toNode_bounded : ∀ e : Expr, e.Sorted True → e.toNode.Bounded
  | .lit _, h => h
  | .var _, _ => trivial
  | .binary left _ right, h => ⟨Expr.toNode_bounded left h.1, Expr.toNode_bounded right h.2⟩
  | .unary _ operand, h => Expr.toNode_bounded operand h
  | .call _ args, h => Expr.toNodes_bounded args h.2
  | .misfit _, h => absurd trivial h

theorem Expr.toNodes_bounded : ∀ es : List Expr, Expr.AllSorted True es →
    Node.AllBounded (Expr.toNodes es)
  | [], _ => trivial
  | e :: rest, h => ⟨Expr.toNode_bounded e h.1, Expr.toNodes_bounded rest h.2⟩

end

mutual

theorem Stmt.toNode_bounded : ∀ stmt : Stmt, stmt.Sorted True → stmt.toNode.Bounded
  | .declare _ _ none, _ => trivial
  | .declare _ _ (some e), h => Expr.toNode_bounded e (h.2 e rfl)
  | .assign _ value, h => Expr.toNode_bounded value h.2
  | .branch condition yes no, h =>
    ⟨Expr.toNode_bounded condition h.1, Block.toNode_bounded yes h.2.1,
      Block.toNode_bounded no h.2.2⟩
  | .loop condition body, h => ⟨Expr.toNode_bounded condition h.1, Block.toNode_bounded body h.2⟩
  | .ret value, h => Expr.toNode_bounded value h
  | .expr value, h => Expr.toNode_bounded value h
  | .block _, h => absurd trivial h.1
  | .misfit _, h => absurd trivial h

theorem Block.toNode_bounded {optional : Prop} : ∀ block : Block, block.Sorted True optional →
    block.toNode.Bounded
  | .stmts body, h => Stmt.toNodes_bounded body h
  | .main _, h => absurd trivial h.1
  | .absent, _ => trivial
  | .misfit _, h => absurd trivial h

theorem Stmt.toNodes_bounded : ∀ body : List Stmt, Stmt.AllSorted True body →
    Node.AllBounded (Stmt.toNodes body)
  | [], _ => trivial
  | stmt :: rest, h => ⟨Stmt.toNode_bounded stmt h.1, Stmt.toNodes_bounded rest h.2⟩

end

theorem Func.toNode_bounded {func : Func} (h : func.Sorted True) : func.toNode.Bounded := by
  cases func with
  | misfit node => exact absurd trivial h
  | decl f =>
    have hf : f.Sorted True := h
    refine ⟨Node.allBounded_iff.mpr ?_, Block.toNode_bounded f.body hf.body⟩
    intro node hnode
    obtain ⟨param, hparam, rfl⟩ := List.mem_map.mp hnode
    cases param with
    | param tag name => trivial
    | misfit node => exact absurd trivial (hf.params _ hparam)

theorem Block.toNode_bounded_of_main {block : Block} (h : block.MainSorted True) :
    block.toNode.Bounded := by
  cases block with
  | main body => exact Stmt.toNodes_bounded body h
  | stmts body => exact absurd trivial h.1
  | absent => trivial
  | misfit node => exact absurd trivial h

theorem Program.toNode_bounded {p : Program} (h : p.WellSorted) : p.toNode.Bounded := by
  refine ⟨Node.allBounded_iff.mpr ?_, Block.toNode_bounded_of_main h.main⟩
  intro node hnode
  obtain ⟨func, hfunc, rfl⟩ := List.mem_map.mp hnode
  exact Func.toNode_bounded (h.functions func hfunc)

/-- The tree of a well-sorted program is read back, and its program is the same. -/
theorem Program.ofJson_toJson {p : Program} (h : p.WellSorted) :
    Node.ofJson p.toNode.toJson = .ok p.toNode ∧ Program.ofNode? p.toNode = some p :=
  ⟨Node.ofJson_toJson p.toNode (Program.toNode_bounded h), Program.ofNode?_toNode h⟩

/-! ### Operators and literals of loaded trees -/

/-- The trees right below a tree. -/
def Node.children : Node → List Node
  | .absent => []
  | .lit _ => []
  | .ident _ => []
  | .binary left _ right => [left, right]
  | .unary _ operand => [operand]
  | .call _ args => args
  | .block body => body
  | .assign _ value => [value]
  | .declare _ _ start => [start]
  | .branch condition yes no => [condition, yes, no]
  | .loop condition body => [condition, body]
  | .ret value => [value]
  | .expr value => [value]
  | .param _ _ => []
  | .func _ _ params body => params ++ [body]
  | .main body => body
  | .program functions body => functions ++ [body]

/-- A tree inside another one, or the whole of it. -/
def Node.Within (part whole : Node) : Prop :=
  Relation.ReflTransGen (fun node child => child ∈ node.children) whole part

/-- What is expected of the object of a node: an operator is one of the closed set of its kind, an
integer literal fits in 64 bits, and any other literal holds a value of its kind. -/
structure Json.CheckedFields (fields : List (Codes × Json)) : Prop where
  binary : fieldIn? fields "type" = some (.str "BinaryOp") →
    ∃ op ∈ ["+", "-", "*", "/", ">", "<", "=>", "=<", "==", "&", "||"],
      fieldIn? fields "op" = some (.str op)
  unary : fieldIn? fields "type" = some (.str "UnaryOp") →
    ∃ op ∈ ["!", "-"], fieldIn? fields "op" = some (.str op)
  int : fieldIn? fields "type" = some (.str "IntLiteral") →
    ∃ n, InRange n ∧ fieldIn? fields "value" = some (.int n)
  float : fieldIn? fields "type" = some (.str "FloatLiteral") →
    ∃ x, fieldIn? fields "value" = some (.float x)
  bool : fieldIn? fields "type" = some (.str "BoolLiteral") →
    ∃ b, fieldIn? fields "value" = some (.bool b)
  str : fieldIn? fields "type" = some (.str "StrLiteral") →
    ∃ s, fieldIn? fields "value" = some (.str s)

/-- The value written for a node: nothing, or an object with checked operators and literals. -/
def Json.Checked : Json → Prop
  | .null => True
  | .object fields => CheckedFields fields
  | _ => False

theorem BinaryOp.symbol_mem (op : BinaryOp) :
    op.symbol ∈ ["+", "-", "*", "/", ">", "<", "=>", "=<", "==", "&", "||"] := by
  cases op <;> decide

theorem UnaryOp.symbol_mem (op : UnaryOp) : op.symbol ∈ ["!", "-"] := by
  cases op <;> decide

/-- A bounded tree is written as an object with checked operators and literals. -/
theorem Node.toJson_checked {node : Node} (h : node.Bounded) : node.toJson.Checked := by
  cases node with
  | absent => trivial
  | lit value =>
    cases value with
    | int n =>
      have hn : InRange n := h
      constructor <;> simp [Json.fieldIn?, literalKind, literalJson, hn]
    | float x => constructor <;> simp [Json.fieldIn?, literalKind, literalJson]
    | bool b => constructor <;> simp [Json.fieldIn?, literalKind, literalJson]
    | str s => constructor <;> simp [Json.fieldIn?, literalKind, literalJson]
  | binary left op right =>
    have hop := op.symbol_mem
    constructor
    case binary => exact fun _ => ⟨op.symbol, hop, by simp [Json.fieldIn?]⟩
    all_goals simp [Json.fieldIn?]
  | unary op operand =>
    have hop := op.symbol_mem
    constructor
    case unary => exact fun _ => ⟨op.symbol, hop, by simp [Json.fieldIn?]⟩
    all_goals simp [Json.fieldIn?]
  | _ => constructor <;> simp [Json.fieldIn?]

theorem Node.children_bounded {node : Node} (h : node.Bounded) :
    ∀ child ∈ node.children, child.Bounded := by
  cases node with
  | absent => simp [children]
  | lit value => simp [children]
  | ident name => simp [children]
  | param tag name => simp [children]
  | call name args => exact allBounded_iff.mp h
  | block body => exact allBounded_iff.mp h
  | main body => exact allBounded_iff.mp h
  | func name returnTag params body =>
    have hparams := allBounded_iff.mp h.1
    have hbody := h.2
    simpa [children, or_imp, forall_and] using And.intro hparams hbody
  | program functions body =>
    have hfunctions := allBounded_iff.mp h.1
    have hbody := h.2
    simpa [children, or_imp, forall_and] using And.intro hfunctions hbody
  | _ => simpa [children, Bounded] using h

theorem Node.Within.bounded {part whole : Node} (hw : part.Within whole) (h : whole.Bounded) :
    part.Bounded := by
  induction hw with
  | refl => exact h
  | tail _ hchild ih => exact Node.children_bounded ih _ hchild

/-- **Loading, dumping and loading again is loading.** Of a tree loaded from any JSON value, what is
written is loaded as the same tree, so writing it once more gives the same value; and every tree
inside it is written with an operator of the closed sets, an integer of 64 bits, or a literal of the
right kind. The tree of the program of a source text is loaded as the same program. -/
theorem load_dump_load [Host] :
    (∀ (value : Json) (node : Node), Node.ofJson value = .ok node →
      Node.ofJson node.toJson = .ok node ∧
      (Node.ofJson node.toJson).map Node.toJson = .ok node.toJson ∧
      ∀ part : Node, part.Within node → part.toJson.Checked) ∧
    ∀ (text : String) (p : Program), Source.parse text = .ok p →
      Node.ofJson p.toNode.toJson = .ok p.toNode ∧ Program.ofNode? p.toNode = some p := by
  refine ⟨?_, ?_⟩
  · intro value node h
    have hbounded : node.Bounded := Node.ofJson_bounded value node h
    have hload : Node.ofJson node.toJson = .ok node := Node.ofJson_toJson node hbounded
    refine ⟨hload, ?_, ?_⟩
    · rw [hload]
      rfl
    · intro part hpart
      exact Node.toJson_checked (hpart.bounded hbounded)
  · intro text p h
    exact Program.ofJson_toJson (Source.parse_wellSorted h)

section

open Host

/-- A value with an absent operand, a call whose name is a list and whose arguments are an empty
text, and a field that is not looked at. -/
def oddTree : Json :=
  .object [("right", .object [("type", .str "Call"), ("name", .list [.int 1]), ("args", .str "")]),
    ("type", .str "BinaryOp"), ("left", .null), ("op", .str "=<"), ("note", .int 0)]

/-- The odd value is loaded, and what is written for it is not the value but loads alike; so does
the program of a short text. -/
theorem load_dump_load_oddTree :
    Node.ofJson oddTree = .ok (.binary .absent .le (.call (.list [.int 1]) [])) ∧
    Node.ofJson (Node.toJson (.binary .absent .le (.call (.list [.int 1]) []))) =
      .ok (.binary .absent .le (.call (.list [.int 1]) [])) ∧
    (Node.toJson (.call (.list [.int 1]) [])).Checked ∧
    Source.parse "main \x7b print(-x); \x7d" =
      .ok ⟨[], .main [.expr (.call (.str "print") [.unary .neg (.var (.str "x"))])]⟩ ∧
    Program.ofNode? (Program.toNode
      ⟨[], .main [.expr (.call (.str "print") [.unary .neg (.var (.str "x"))])]⟩) =
      some ⟨[], .main [.expr (.call (.str "print") [.unary .neg (.var (.str "x"))])]⟩ := by
  have hodd : Node.ofJson oddTree = .ok (.binary .absent .le (.call (.list [.int 1]) [])) := by rfl
  have htext : Source.parse "main \x7b print(-x); \x7d" =
      .ok ⟨[], .main [.expr (.call (.str "print") [.unary .neg (.var (.str "x"))])]⟩ := by cbv
  obtain ⟨hload, -, hchecked⟩ := load_dump_load.1 oddTree _ hodd
  have hwithin : (Node.call (.list [.int 1]) []).Within
      (.binary .absent .le (.call (.list [.int 1]) [])) :=
    .single (by simp [Node.children])
  exact ⟨hodd, hload, hchecked _ hwithin, htext, (load_dump_load.2 _ _ htext).2⟩

end

end SmallImp

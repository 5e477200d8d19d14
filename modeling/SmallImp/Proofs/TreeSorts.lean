import SmallImp.Node.Codec
import SmallImp.Proofs.Sorts

/-!
# Integer literals of trees

A tree that is read from a JSON value has integer literals of 64 bits only, whatever stands in the
places of its parts, and so has the program that it stands for.

* `Node.Bounded` — the integer literals of a tree fit in 64 bits;
* `Node.ofJson_bounded` — those of a tree read from a JSON value do;
* `Program.ofNode?_bounded` — the program of such a tree.
-/

namespace SmallImp

mutual

/-- The integer literals of a tree fit in 64 bits. -/
def Node.Bounded : Node → Prop
  | .absent => True
  | .lit value => value.InRange
  | .ident _ => True
  | .binary left _ right => Node.Bounded left ∧ Node.Bounded right
  | .unary _ operand => Node.Bounded operand
  | .call _ args => Node.AllBounded args
  | .block body => Node.AllBounded body
  | .assign _ value => Node.Bounded value
  | .declare _ _ start => Node.Bounded start
  | .branch condition yes no => Node.Bounded condition ∧ Node.Bounded yes ∧ Node.Bounded no
  | .loop condition body => Node.Bounded condition ∧ Node.Bounded body
  | .ret value => Node.Bounded value
  | .expr value => Node.Bounded value
  | .param _ _ => True
  | .func _ _ params body => Node.AllBounded params ∧ Node.Bounded body
  | .main body => Node.AllBounded body
  | .program functions body => Node.AllBounded functions ∧ Node.Bounded body

/-- The integer literals of all the trees fit in 64 bits. -/
def Node.AllBounded : List Node → Prop
  | [] => True
  | node :: rest => Node.Bounded node ∧ Node.AllBounded rest

end

theorem Node.allBounded_iff {nodes : List Node} :
    Node.AllBounded nodes ↔ ∀ node ∈ nodes, node.Bounded := by
  induction nodes with
  | nil => simp [Node.AllBounded]
  | cons node rest ih => simp [Node.AllBounded, ih]

/-! ### Programs of trees -/

mutual

theorem Expr.ofNode_sorted : ∀ node : Node, node.Bounded → (Expr.ofNode node).Sorted False
  | .lit _, h => h
  | .ident _, _ => nofun
  | .binary left _ right, h => ⟨Expr.ofNode_sorted left h.1, Expr.ofNode_sorted right h.2⟩
  | .unary _ operand, h => Expr.ofNode_sorted operand h
  | .call _ args, h => ⟨nofun, Expr.ofNodes_sorted args h⟩
  -- a tree of another kind is kept as a misfit
  | .absent, _ | .block _, _ | .assign _ _, _ | .declare _ _ _, _ | .branch _ _ _, _
  | .loop _ _, _ | .ret _, _ | .expr _, _ | .param _ _, _ | .func _ _ _ _, _
  | .main _, _ | .program _ _, _ => not_false

theorem Expr.ofNodes_sorted : ∀ nodes : List Node, Node.AllBounded nodes →
    Expr.AllSorted False (Expr.ofNodes nodes)
  | [], _ => trivial
  | node :: rest, h => ⟨Expr.ofNode_sorted node h.1, Expr.ofNodes_sorted rest h.2⟩

end

theorem Expr.ofNode?_sorted {node : Node} (h : node.Bounded) :
    ∀ e ∈ Expr.ofNode? node, e.Sorted False := by
  intro e he
  cases node with
  | absent => cases he
  | _ =>
    cases he
    exact Expr.ofNode_sorted _ h

mutual

theorem Stmt.ofNode_sorted : ∀ node : Node, node.Bounded → (Stmt.ofNode node).Sorted False
  | .declare _ _ _, h => ⟨nofun, Expr.ofNode?_sorted h⟩
  | .assign _ value, h => ⟨nofun, Expr.ofNode_sorted value h⟩
  | .branch condition yes no, h =>
    ⟨Expr.ofNode_sorted condition h.1, Block.ofNode_sorted False yes h.2.1,
      Block.ofNode_sorted True no h.2.2⟩
  | .loop condition body, h =>
    ⟨Expr.ofNode_sorted condition h.1, Block.ofNode_sorted False body h.2⟩
  | .ret value, h => Expr.ofNode_sorted value h
  | .expr value, h => Expr.ofNode_sorted value h
  | .block body, h => ⟨not_false, Stmt.ofNodes_sorted body h⟩
  -- a tree of another kind is kept as a misfit
  | .absent, _ | .lit _, _ | .ident _, _ | .binary _ _ _, _ | .unary _ _, _
  | .call _ _, _ | .param _ _, _ | .func _ _ _ _, _ | .main _, _ | .program _ _, _ => not_false

theorem Block.ofNode_sorted (optional : Prop) : ∀ node : Node, node.Bounded →
    (Block.ofNode node).Sorted False optional
  | .block body, h => Stmt.ofNodes_sorted body h
  | .main body, h => ⟨not_false, Stmt.ofNodes_sorted body h⟩
  | .absent, _ => nofun
  -- a tree of another kind is kept as a misfit
  | .lit _, _ | .ident _, _ | .binary _ _ _, _ | .unary _ _, _ | .call _ _, _
  | .assign _ _, _ | .declare _ _ _, _ | .branch _ _ _, _ | .loop _ _, _ | .ret _, _
  | .expr _, _ | .param _ _, _ | .func _ _ _ _, _ | .program _ _, _ => not_false

theorem Stmt.ofNodes_sorted : ∀ nodes : List Node, Node.AllBounded nodes →
    Stmt.AllSorted False (Stmt.ofNodes nodes)
  | [], _ => trivial
  | node :: rest, h => ⟨Stmt.ofNode_sorted node h.1, Stmt.ofNodes_sorted rest h.2⟩

end

theorem Func.ofNode_sorted {node : Node} (h : node.Bounded) : (Func.ofNode node).Sorted False := by
  cases node with
  | func name returnTag params body =>
    refine ⟨nofun, ?_, Block.ofNode_sorted False body h.2⟩
    intro p hp
    obtain ⟨param, -, rfl⟩ := List.mem_map.mp hp
    cases param with
    | param tag name => exact nofun
    | _ => exact not_false
  | _ => exact not_false

theorem Block.ofNode_mainSorted {node : Node} (h : node.Bounded) :
    (Block.ofNode node).MainSorted False := by
  cases node with
  | main body => exact Stmt.ofNodes_sorted body h
  | block body => exact ⟨not_false, Stmt.ofNodes_sorted body h⟩
  | absent => trivial
  | _ => exact not_false

/-- The program of a tree with integer literals of 64 bits has such literals only. -/
theorem Program.ofNode?_bounded {node : Node} (h : node.Bounded) {p : Program}
    (hp : Program.ofNode? node = some p) : p.Bounded := by
  cases node with
  | program functions body =>
    cases hp
    refine ⟨?_, Block.ofNode_mainSorted h.2⟩
    intro func hfunc
    obtain ⟨node, hnode, rfl⟩ := List.mem_map.mp hfunc
    exact Func.ofNode_sorted (Node.allBounded_iff.mp h.1 node hnode)
  | _ => cases hp

/-! ### Trees of JSON values -/

namespace Node

/-- Whatever the reading gives satisfies `Q`. -/
def Yields {α : Type} (r : Except LoadFault α) (Q : α → Prop) : Prop := ∀ a, r = .ok a → Q a

namespace Yields

variable {α β : Type} {r : Except LoadFault α} {Q : α → Prop}

theorem pure {a : α} (h : Q a) : Yields (.ok a) Q := by
  rintro _ ⟨rfl⟩
  exact h

theorem error {e : LoadFault} : Yields (.error e) Q := nofun

theorem bind {f : α → Except LoadFault β} {R : β → Prop} (h : Yields r Q)
    (hf : ∀ a, Q a → Yields (f a) R) : Yields (r >>= f) R := by
  cases r with
  | ok a => exact hf a (h a rfl)
  | error e => exact nofun

/-- What is read without being looked at. -/
theorem any : Yields r fun _ => True := fun _ _ => trivial

end Yields

/-- A field, whether it is read as a node or as a list of nodes. -/
structure Part.Bounded (part : Part) : Prop where
  node : Yields part.node Node.Bounded
  nodes : Yields part.nodes AllBounded

/-- All fields of an object. -/
def Parts.Bounded (parts : Parts) : Prop := ∀ part ∈ parts, part.2.Bounded

namespace Parts

variable {parts : Parts} (h : parts.Bounded) (field : String)

include h

theorem Bounded.get? : ∀ part ∈ parts.get? field, part.Bounded := by
  intro part hpart
  rw [Parts.get?, Option.mem_def, Option.map_eq_some_iff] at hpart
  obtain ⟨row, hrow, rfl⟩ := hpart
  exact h row (List.mem_of_find?_eq_some hrow)

theorem Bounded.node_bounded : Yields (parts.node field) Node.Bounded := by
  have hget := h.get? field
  rw [Parts.node, Parts.get]
  cases hp : parts.get? field with
  | some part => exact (hget part hp).node
  | none => exact .error

theorem Bounded.nodes_bounded : Yields (parts.nodes field) AllBounded := by
  have hget := h.get? field
  rw [Parts.nodes, Parts.get]
  cases hp : parts.get? field with
  | some part => exact (hget part hp).nodes
  | none => exact .error

theorem Bounded.nodeOrAbsent_bounded : Yields (parts.nodeOrAbsent field) Node.Bounded := by
  have hget := h.get? field
  rw [nodeOrAbsent]
  cases hp : parts.get? field with
  | some part => exact (hget part hp).node
  | none => exact .pure trivial

theorem Bounded.nodesOrNone_bounded : Yields (parts.nodesOrNone field) AllBounded := by
  have hget := h.get? field
  rw [nodesOrNone]
  cases hp : parts.get? field with
  | some part => exact (hget part hp).nodes
  | none => exact .pure trivial

end Parts

theorem intLiteral_inRange (json : Json) : Yields (intLiteral json) Literal.InRange := by
  cases json with
  | int n =>
    rw [intLiteral]
    split
    next h => exact .pure h
    next => exact .error
  | _ => exact .error

theorem floatLiteral_inRange (json : Json) : Yields (floatLiteral json) Literal.InRange := by
  cases json with
  | float x => exact .pure trivial
  | int n =>
    rw [floatLiteral]
    split
    · exact .error
    · exact .pure trivial
  | _ => exact .error

theorem boolLiteral_inRange (json : Json) : Yields (boolLiteral json) Literal.InRange := by
  cases json with
  | bool b => exact .pure trivial
  | _ => exact .error

theorem textLiteral_inRange (json : Json) : Yields (textLiteral json) Literal.InRange := by
  cases json with
  | str s => exact .pure trivial
  | _ => exact .error

theorem literal_bounded {read : Json → Except LoadFault Literal}
    (hread : ∀ json, Yields (read json) Literal.InRange) (parts : Parts) :
    Yields (literal read parts) Node.Bounded := by
  refine Yields.any.bind fun json _ => ?_
  exact (hread json).bind fun value hvalue => .pure hvalue

/-- Bounded parts make a bounded node, whatever its kind is. -/
theorem assemble_bounded {parts : Parts} (h : parts.Bounded) (kind : String) :
    Yields (assemble parts kind) Node.Bounded := by
  unfold assemble
  split
  next => exact literal_bounded intLiteral_inRange parts
  next => exact literal_bounded floatLiteral_inRange parts
  next => exact literal_bounded boolLiteral_inRange parts
  next => exact literal_bounded textLiteral_inRange parts
  next => exact Yields.any.bind fun _ _ => .pure trivial
  next =>
    refine (h.node_bounded "left").bind fun left hleft => Yields.any.bind fun _ _ => ?_
    refine (h.node_bounded "right").bind fun right hright => Yields.any.bind fun _ _ => ?_
    exact .pure ⟨hleft, hright⟩
  next =>
    refine Yields.any.bind fun _ _ => (h.node_bounded "operand").bind fun operand ho => ?_
    exact Yields.any.bind fun _ _ => .pure ho
  next =>
    exact Yields.any.bind fun _ _ => (h.nodesOrNone_bounded "args").bind fun args ha => .pure ha
  next => exact (h.nodes_bounded "statements").bind fun body hb => .pure hb
  next =>
    exact Yields.any.bind fun _ _ => (h.node_bounded "value").bind fun value hv => .pure hv
  next =>
    refine Yields.any.bind fun _ _ => Yields.any.bind fun _ _ => ?_
    exact (h.nodeOrAbsent_bounded "expr").bind fun start hs => .pure hs
  next =>
    refine (h.node_bounded "condition").bind fun condition hc => ?_
    refine (h.node_bounded "then_block").bind fun yes hy => ?_
    exact (h.nodeOrAbsent_bounded "else_block").bind fun no hn => .pure ⟨hc, hy, hn⟩
  next =>
    refine (h.node_bounded "condition").bind fun condition hc => ?_
    exact (h.node_bounded "body").bind fun body hb => .pure ⟨hc, hb⟩
  next => exact (h.node_bounded "value").bind fun value hv => .pure hv
  next => exact (h.node_bounded "expr").bind fun value hv => .pure hv
  next => exact Yields.any.bind fun _ _ => Yields.any.bind fun _ _ => .pure trivial
  next =>
    refine Yields.any.bind fun _ _ => Yields.any.bind fun _ _ => ?_
    refine (h.nodes_bounded "params").bind fun params hp => ?_
    exact (h.node_bounded "body").bind fun body hb => .pure ⟨hp, hb⟩
  next => exact (h.nodes_bounded "statements").bind fun body hb => .pure hb
  next =>
    refine (h.nodesOrNone_bounded "functions").bind fun functions hf => ?_
    exact (h.nodeOrAbsent_bounded "main").bind fun body hb => .pure ⟨hf, hb⟩
  next => exact .error

theorem ofParts_bounded {parts : Parts} (h : parts.Bounded) : Yields (ofParts parts) Node.Bounded := by
  rw [ofParts]
  split
  · exact .error
  · split
    · split
      · exact assemble_bounded h _
      · exact .error
    · exact .error

-- The recursion is on the JSON value: each field is read in both ways, and both give bounded trees.
mutual

/-- **A tree read from a JSON value has integer literals of 64 bits only.** -/
theorem ofJson_bounded : ∀ json : Json, Yields (ofJson json) Node.Bounded
  | .null => .pure trivial
  | .object fields => ofParts_bounded (partsOf_bounded fields)
  | .bool _ | .int _ | .float _ | .str _ | .list _ => .error

theorem partsOf_bounded : ∀ fields : List (Codes × Json), Parts.Bounded (partsOf fields)
  | [] => nofun
  | (_, value) :: rest =>
    List.forall_mem_cons.mpr ⟨⟨ofJson_bounded value, listOf_bounded value⟩, partsOf_bounded rest⟩

theorem listOf_bounded : ∀ json : Json, Yields (listOf json) AllBounded
  | .list items => itemsOf_bounded items
  | .str s => by
    rw [listOf]
    split
    · exact .pure trivial
    · exact .error
  | .object fields => by
    rw [listOf]
    split
    · exact .pure trivial
    · exact .error
  | .null | .bool _ | .int _ | .float _ => .error

theorem itemsOf_bounded : ∀ items : List Json, Yields (itemsOf items) AllBounded
  | [] => .pure trivial
  | item :: rest => by
    refine (ofJson_bounded item).bind fun node hnode => ?_
    exact (itemsOf_bounded rest).bind fun nodes hnodes => .pure ⟨hnode, hnodes⟩

end

end Node

end SmallImp

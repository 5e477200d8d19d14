import SmallImp.Proofs.Grammar
import SmallImp.Source.Parser

/-!
# Tokens that are read are derived

The state of reading holds parts of a syntax tree. Each part is spelled by some of the tokens read so
far, and these stretches, one after the other, are all tokens read so far. So the tokens of a text
that is read to its end are derived from the grammar, and what has been read is the tree of the
derivation.

* `Waiting`, `Enclosing`, `Expression.Begun` — the tokens of an expression in progress;
* `Nested`, `Phase.Begun` — the tokens of the open blocks and of what has been begun since;
* `State.Holds` — the tokens of a state;
* `State.feed?_holds` — a token that is taken is added to them;
* `State.Holds.derived` — where a text may end, its tokens have a derivation.
-/

namespace SmallImp.Source

/-! ### Operators and their ranks -/

/-- The rank of an operator is one more than the depth of its layer. -/
theorem Layer.rank_of_operator {l : Layer} {k : Terminal} {op : BinaryOp}
    (h : (k, op) ∈ l.operators) : op.rank = l.depth + 1 := by
  cases l <;> simp [operators] at h <;> grind [BinaryOp.rank, depth]

theorem Terminal.operator_of_binaryOp? {k : Terminal} {op : BinaryOp} (h : k.binaryOp? = some op) :
    ∃ l : Layer, (k, op) ∈ l.operators := by
  unfold Terminal.binaryOp? at h
  split at h
  · cases h
    exact ⟨.disjunction, by decide⟩
  · cases h
    exact ⟨.conjunction, by decide⟩
  · cases h
    exact ⟨.equality, by decide⟩
  · cases h
    exact ⟨.comparison, by decide⟩
  · cases h
    exact ⟨.comparison, by decide⟩
  · cases h
    exact ⟨.comparison, by decide⟩
  · cases h
    exact ⟨.comparison, by decide⟩
  · cases h
    exact ⟨.sum, by decide⟩
  · cases h
    exact ⟨.sum, by decide⟩
  · cases h
    exact ⟨.product, by decide⟩
  · cases h
    exact ⟨.product, by decide⟩
  · cases h

/-! ### Rows that grow at their end -/

/-- Items with one more after them. -/
theorem Derivation.snocItem {item : ItemTree} {v : List Token} (h : Spells .item item v) :
    ∀ d : Derivation .program, Spells .program (d.tree ++ [item]) (d.yield ++ v)
  | .noItem => by
    obtain ⟨last, rfl, rfl⟩ := h
    exact ⟨.moreItems last .noItem, rfl, List.append_nil _⟩
  | .moreItems first rest => by
    obtain ⟨d, htree, hyield⟩ := snocItem h rest
    refine ⟨.moreItems first d, ?_, ?_⟩
    · rw [tree, htree]
      rfl
    · rw [yield, hyield, yield, List.append_assoc]

/-- Statements with one more after them. -/
theorem Derivation.snocStatement {stmt : StmtTree} {v : List Token} (h : Spells .statement stmt v) :
    ∀ d : Derivation .statements, Spells .statements (d.tree ++ [stmt]) (d.yield ++ v)
  | .noStatement => by
    obtain ⟨last, rfl, rfl⟩ := h
    exact ⟨.moreStatements last .noStatement, rfl, List.append_nil _⟩
  | .moreStatements first rest => by
    obtain ⟨d, htree, hyield⟩ := snocStatement h rest
    refine ⟨.moreStatements first d, ?_, ?_⟩
    · rw [tree, htree]
      rfl
    · rw [yield, hyield, yield, List.append_assoc]

/-! ### Expressions in progress -/

/-- Whether the operators that wait can take an operand of a layer: a binary one takes an operand
that binds more tightly, a unary one an operand of its own layer or of the last one. -/
def Admits (l : Layer) : List Pending → Prop
  | [] => True
  | .unary _ :: _ => Layer.unary.depth ≤ l.depth
  | .binary _ op :: _ => op.rank ≤ l.depth

/-- The tokens of the operators that wait and of their left operands. Each binary operator stands
where it is admitted, so what waits below it binds less tightly. -/
inductive Waiting : List Pending → List Token → Prop where
  | none : Waiting [] []
  | unary {pending : List Pending} {w : List Token} {sign : Token} {op : UnaryOp}
      (outer : Waiting pending w) (isOperator : (sign.terminal, op) ∈ unaryOperators) :
      Waiting (.unary op :: pending) (w ++ [sign])
  | binary {pending : List Pending} {w v : List Token} {l : Layer} {left : ExprTree} {sign : Token}
      {op : BinaryOp} (outer : Waiting pending w) (admits : Admits l pending)
      (operand : Spells (.layer l) left v) (isOperator : (sign.terminal, op) ∈ l.operators) :
      Waiting (.binary left op :: pending) (w ++ (v ++ [sign]))

theorem Waiting.admits_unary {pending : List Pending} {w : List Token} (h : Waiting pending w) :
    Admits .unary pending := by
  cases h with
  | none => trivial
  | unary => exact Nat.le_refl _
  | @binary pending w v l left sign op outer admits operand isOperator =>
    show op.rank ≤ 6
    cases op <;> decide

/-- What is left waiting and the operand that was put together are still the same tokens. -/
theorem Waiting.settled {pending : List Pending} {w : List Token} (h : Waiting pending w)
    {l : Layer} (hunary : l.depth ≤ Layer.unary.depth) :
    ∀ {m : Layer} {value : ExprTree} {u : List Token}, Admits m pending →
      l.depth ≤ m.depth → Spells (.layer m) value u →
      ∃ w' u', w' ++ u' = w ++ u ∧ Waiting (settle (l.depth + 1) value pending).2 w' ∧
        Spells (.layer l) (settle (l.depth + 1) value pending).1 u' ∧
        Admits l (settle (l.depth + 1) value pending).2 := by
  induction h with
  | none =>
    intro m value u _ hl hvalue
    exact ⟨[], u, rfl, .none, hvalue.loosen hl, trivial⟩
  | @unary pending w sign op outer isOperator ih =>
    intro m value u hm hl hvalue
    obtain ⟨d, rfl, rfl⟩ := hvalue.loosen (m := .unary) hm
    obtain ⟨w', u', htokens, hw, hu, ha⟩ := ih outer.admits_unary hunary
      ⟨.unary sign op isOperator d, rfl, rfl⟩
    refine ⟨w', u', ?_, hw, hu, ha⟩
    rw [htokens, List.append_assoc]
    rfl
  | @binary pending w v n left sign op outer admits operand isOperator ih =>
    intro m value u ha hl hvalue
    have hrank := Layer.rank_of_operator isOperator
    have hadmits : op.rank ≤ m.depth := ha
    rw [settle]
    split
    next hle =>
      have hlast : n ≠ .primary := by
        rintro rfl
        simp [Layer.operators] at isOperator
      have hdepth := Layer.depth_tighter hlast
      obtain ⟨left, rfl, rfl⟩ := operand
      obtain ⟨right, rfl, rfl⟩ := hvalue.loosen (m := n.tighter) (by omega)
      obtain ⟨w', u', htokens, hw, hu, ha⟩ := ih admits (by omega)
        ⟨.binary left sign op isOperator right, rfl, rfl⟩
      refine ⟨w', u', ?_, hw, hu, ha⟩
      rw [htokens]
      simp [Derivation.yield]
    next hlt =>
      refine ⟨_, u, rfl, .binary outer admits operand isOperator, hvalue.loosen hl, ?_⟩
      show op.rank ≤ l.depth
      omega

theorem settle_zero (pending : List Pending) : ∀ value : ExprTree,
    settle 0 value pending = settle 1 value pending := by
  induction pending with
  | nil => exact fun _ => rfl
  | cons p rest ih =>
    intro value
    cases p with
    | unary op =>
      rw [settle, settle]
      exact ih _
    | binary left op =>
      have hrank : 1 ≤ op.rank := by cases op <;> decide
      rw [settle, settle, if_pos (Nat.zero_le _), if_pos hrank]
      exact ih _

/-- All that waits and its last operand are an expression. -/
theorem Waiting.closed {pending : List Pending} {w u : List Token} (h : Waiting pending w)
    {value : ExprTree} (hvalue : Spells (.layer .primary) value u) :
    Spells .expression (close value pending) (w ++ u) := by
  have hunary : Spells (.layer .unary) value u := hvalue.loosen (by decide)
  obtain ⟨w', u', htokens, hw, hu, ha⟩ :=
    h.settled (l := .disjunction) (by decide) h.admits_unary (by decide) hunary
  rw [close, settle_zero]
  rw [show Layer.disjunction.depth + 1 = 1 from rfl] at hw hu ha
  generalize settle 1 value pending = settled at hw hu ha ⊢
  obtain ⟨whole, left⟩ := settled
  cases hw with
  | none => rwa [← htokens]
  | unary => simp [Admits, Layer.depth] at ha
  | @binary _ _ _ _ _ _ op _ _ _ isOperator =>
    have hrank := Layer.rank_of_operator isOperator
    have hzero : op.rank ≤ 0 := ha
    omega

/-- Arguments read before, held in reverse, each with the comma after it. -/
inductive Listed : List ExprTree → List Token → Prop where
  | none : Listed [] []
  | more {args : List ExprTree} {w v : List Token} {value : ExprTree} (before : Listed args w)
      (argument : Spells .expression value v) (comma : Sign .comma) :
      Listed (value :: args) (w ++ (v ++ [comma.token]))

/-- The last arguments complete those read before. -/
theorem Listed.complete {args : List ExprTree} {w : List Token} (h : Listed args w) :
    ∀ {rest : List ExprTree} {u : List Token}, Spells .argList rest u →
      Spells .argList (args.reverse ++ rest) (w ++ u) := by
  induction h with
  | none => exact fun h => h
  | @more args w v value before argument comma ih =>
    rintro rest u ⟨d, rfl, rfl⟩
    obtain ⟨first, rfl, rfl⟩ := argument
    have hmore := ih ⟨.moreArgs first comma d, rfl, rfl⟩
    simpa [Derivation.yield, Derivation.tree] using hmore

/-- The tokens of an open parenthesis: the name of the call and the arguments before. -/
inductive Bracket.Begun : Bracket → List Token → Prop where
  | group (lpar : Sign .lpar) : Begun .group [lpar.token]
  | call {args : List ExprTree} {w : List Token} (name : Leaf .name) (lpar : Sign .lpar)
      (before : Listed args w) : Begun (.call name.spelled args) (name.token :: lpar.token :: w)

/-- The tokens of the open parentheses and of what waits outside of them. -/
inductive Enclosing : List Level → List Token → Prop where
  | none : Enclosing [] []
  | more {levels : List Level} {bracket : Bracket} {outer : List Pending} {w v u : List Token}
      (rest : Enclosing levels w) (waiting : Waiting outer v) (begun : bracket.Begun u) :
      Enclosing (⟨bracket, outer⟩ :: levels) (w ++ (v ++ u))

/-- The tokens before an expression that say what it is for. -/
inductive Goal.Begun : Goal → List Token → Prop where
  | start (tag name : Leaf .name) (equal : Sign .equal) :
      Begun (.start tag.spelled name.spelled) [tag.token, name.token, equal.token]
  | assign (name : Leaf .name) (equal : Sign .equal) :
      Begun (.assign name.spelled) [name.token, equal.token]
  | branch (word : Word .if) (lpar : Sign .lpar) :
      Begun (.condition .branch) [word.token, lpar.token]
  | loop (word : Word .while) (lpar : Sign .lpar) :
      Begun (.condition .loop) [word.token, lpar.token]
  | ret (word : Word .return) : Begun .ret [word.token]
  | statement : Begun .statement []

/-- The tokens of an expression in progress. -/
inductive Expression.Begun : Expression → List Token → Prop where
  | mk {pending : List Pending} {levels : List Level} {goal : Goal} {g w v : List Token}
      (goal_begun : goal.Begun g) (enclosing : Enclosing levels w) (waiting : Waiting pending v) :
      Begun ⟨pending, levels, goal⟩ (g ++ (w ++ v))

namespace Expression.Begun

variable {e : Expression} {w : List Token}

theorem new {goal : Goal} (h : goal.Begun w) : (Expression.new goal).Begun w := by
  have hmk := mk h .none .none
  rwa [List.append_nil, List.append_nil] at hmk

theorem enter (h : e.Begun w) {bracket : Bracket} {u : List Token} (hb : bracket.Begun u) :
    (e.enter bracket).Begun (w ++ u) := by
  obtain ⟨hgoal, henclosing, hwaiting⟩ := h
  have hmk := mk hgoal (henclosing.more hwaiting hb) .none
  simpa [Expression.enter] using hmk

theorem unary (h : e.Begun w) {sign : Token} {op : UnaryOp}
    (hop : (sign.terminal, op) ∈ unaryOperators) :
    Begun { e with pending := .unary op :: e.pending } (w ++ [sign]) := by
  obtain ⟨hgoal, henclosing, hwaiting⟩ := h
  have hmk := mk hgoal henclosing (hwaiting.unary hop)
  simpa using hmk

/-- An operator takes what binds at least as tightly as its left operand. -/
theorem binary (h : e.Begun w) {value : ExprTree} {u : List Token}
    (hvalue : Spells (.layer .primary) value u) {sign : Token} {op : BinaryOp} {l : Layer}
    (hop : (sign.terminal, op) ∈ l.operators) :
    Begun { e with pending := .binary (settle op.rank value e.pending).1 op ::
      (settle op.rank value e.pending).2 } (w ++ (u ++ [sign])) := by
  obtain ⟨hgoal, henclosing, hwaiting⟩ := h
  have hunary : Spells (.layer .unary) value u := hvalue.loosen (by decide)
  have hdepth : l.depth ≤ Layer.unary.depth := by
    cases l with
    | primary => simp [Layer.operators] at hop
    | _ => decide
  obtain ⟨w', u', htokens, hw, hu, ha⟩ := hwaiting.settled hdepth hwaiting.admits_unary hdepth hunary
  rw [← Layer.rank_of_operator hop] at hw hu ha
  have hmk := mk hgoal henclosing (hw.binary ha hu hop)
  rw [← List.append_assoc w', htokens] at hmk
  simpa using hmk

end Expression.Begun

/-! ### Blocks in progress -/

/-- Parameters read before, held in reverse, each with the comma after it. -/
inductive ListedParams : List ParamTree → List Token → Prop where
  | none : ListedParams [] []
  | more {params : List ParamTree} {w : List Token} (before : ListedParams params w)
      (tag name : Leaf .name) (comma : Sign .comma) :
      ListedParams (⟨tag.spelled, name.spelled⟩ :: params)
        (w ++ [tag.token, name.token, comma.token])

/-- The last parameters complete those read before. -/
theorem ListedParams.complete {params : List ParamTree} {w : List Token} (h : ListedParams params w) :
    ∀ {rest : List ParamTree} {u : List Token}, Spells .paramList rest u →
      Spells .paramList (params.reverse ++ rest) (w ++ u) := by
  induction h with
  | none => exact fun h => h
  | more before tag name comma ih =>
    rintro rest u ⟨d, rfl, rfl⟩
    have hmore := ih ⟨.moreParams tag name comma d, rfl, rfl⟩
    simpa [Derivation.yield, Derivation.tree] using hmore

/-- A list of parameters ends in one that no comma follows. -/
theorem ListedParams.last {params : List ParamTree} {w : List Token} (h : ListedParams params w)
    (tag name : Leaf .name) :
    Spells .params (List.reverse (⟨tag.spelled, name.spelled⟩ :: params))
      (w ++ [tag.token, name.token]) := by
  obtain ⟨list, htree, hyield⟩ := h.complete ⟨.lastParam tag name, rfl, rfl⟩
  refine ⟨.someParams list, ?_, hyield⟩
  rw [List.reverse_cons]
  exact htree

/-- The tokens of a function up to the parenthesis that opens its parameters. -/
inductive Heading : String → List Token → Prop where
  | mk (fn : Word .fn) (name : Leaf .name) (lpar : Sign .lpar) :
      Heading name.spelled [fn.token, name.token, lpar.token]

/-- The tokens of the owner of a block, up to the block. -/
inductive Owner.Begun : Owner → List Token → Prop where
  | func {name : String} {params : List ParamTree} {w v : List Token} (heading : Heading name w)
      (params_spelled : Spells .params params v) (rpar : Sign .rpar) (arrow : Sign .arrow)
      (tag : Leaf .name) :
      Begun (.func name params tag.spelled) (w ++ (v ++ [rpar.token, arrow.token, tag.token]))
  | main (word : Word .main) : Begun .main [word.token]
  | yes {condition : ExprTree} {v : List Token} (word : Word .if) (lpar : Sign .lpar)
      (condition_spelled : Spells .expression condition v) (rpar : Sign .rpar) :
      Begun (.yes condition) (word.token :: lpar.token :: v ++ [rpar.token])
  | no {condition : ExprTree} {body : List StmtTree} {v u : List Token} (word : Word .if)
      (lpar : Sign .lpar) (condition_spelled : Spells .expression condition v) (rpar : Sign .rpar)
      (yes_spelled : Spells .block body u) (other : Word .else) :
      Begun (.no condition body)
        (word.token :: lpar.token :: v ++ rpar.token :: u ++ [other.token])
  | body {condition : ExprTree} {v : List Token} (word : Word .while) (lpar : Sign .lpar)
      (condition_spelled : Spells .expression condition v) (rpar : Sign .rpar) :
      Begun (.body condition) (word.token :: lpar.token :: v ++ [rpar.token])

/-- Whether the owner of a block stands outside of all blocks. -/
def Owner.isItem : Owner → Bool
  | .func _ _ _ => true
  | .main => true
  | .yes _ => false
  | .no _ _ => false
  | .body _ => false

/-- The tokens of the open blocks. The outermost one, and no other, is that of an item. -/
inductive Nested : List OpenBlock → List Token → Prop where
  | none : Nested [] []
  | more {blocks : List OpenBlock} {owner : Owner} {body : List StmtTree} {w v u : List Token}
      (outer : Nested blocks w) (place : owner.isItem = blocks.isEmpty) (begun : owner.Begun v)
      (lbrace : Sign .lbrace) (body_spelled : Spells .statements body.reverse u) :
      Nested (⟨owner, body⟩ :: blocks) (w ++ (v ++ lbrace.token :: u))

/-- The tokens of what has been begun since the last statement or the last item, inside of blocks or
outside of them. -/
inductive Phase.Begun : Phase → Bool → List Token → Prop where
  | start : Begun .start false []
  | afterItem : Begun .afterItem false []
  | funcName (fn : Word .fn) : Begun .funcName false [fn.token]
  | funcOpen (fn : Word .fn) (name : Leaf .name) :
      Begun (.funcOpen name.spelled) false [fn.token, name.token]
  | paramsOpen {name : String} {w : List Token} (heading : Heading name w) :
      Begun (.paramsOpen name) false w
  | paramTag {name : String} {params : List ParamTree} {w v : List Token} (heading : Heading name w)
      (before : ListedParams params v) : Begun (.paramTag name params) false (w ++ v)
  | paramName {name : String} {params : List ParamTree} {w v : List Token} (heading : Heading name w)
      (before : ListedParams params v) (tag : Leaf .name) :
      Begun (.paramName name params tag.spelled) false (w ++ (v ++ [tag.token]))
  | afterParam {name : String} {params : List ParamTree} {w v : List Token} (heading : Heading name w)
      (before : ListedParams params v) (tag param : Leaf .name) :
      Begun (.afterParam name (⟨tag.spelled, param.spelled⟩ :: params)) false
        (w ++ (v ++ [tag.token, param.token]))
  | arrow {name : String} {params : List ParamTree} {w v : List Token} (heading : Heading name w)
      (params_spelled : Spells .params params.reverse v) (rpar : Sign .rpar) :
      Begun (.arrow name params) false (w ++ (v ++ [rpar.token]))
  | returnTag {name : String} {params : List ParamTree} {w v : List Token} (heading : Heading name w)
      (params_spelled : Spells .params params.reverse v) (rpar : Sign .rpar) (arrow : Sign .arrow) :
      Begun (.returnTag name params) false (w ++ (v ++ [rpar.token, arrow.token]))
  | blockOpen {owner : Owner} {w : List Token} (owner_begun : owner.Begun w) :
      Begun (.blockOpen owner) (!owner.isItem) w
  | statement : Begun .statement true []
  | afterBlock : Begun (.afterBlock none) true []
  | afterBranch {condition : ExprTree} {body : List StmtTree} {v u : List Token} (word : Word .if)
      (lpar : Sign .lpar) (condition_spelled : Spells .expression condition v) (rpar : Sign .rpar)
      (yes_spelled : Spells .block body u) :
      Begun (.afterBlock (some (condition, body))) true
        (word.token :: lpar.token :: v ++ rpar.token :: u)
  | branchOpen (word : Word .if) : Begun (.conditionOpen .branch) true [word.token]
  | loopOpen (word : Word .while) : Begun (.conditionOpen .loop) true [word.token]
  | statementName (name : Leaf .name) : Begun (.statementName name.spelled) true [name.token]
  | declared (tag name : Leaf .name) :
      Begun (.declared tag.spelled name.spelled) true [tag.token, name.token]
  | operand {e : Expression} {w : List Token} (begun : e.Begun w) : Begun (.operand e) true w
  | arguments {e : Expression} {w : List Token} (begun : e.Begun w) (name : Leaf .name)
      (lpar : Sign .lpar) :
      Begun (.arguments (e.enter (.call name.spelled []))) true (w ++ [name.token, lpar.token])
  | afterName {e : Expression} {w : List Token} (begun : e.Begun w) (name : Leaf .name) :
      Begun (.afterName name.spelled e) true (w ++ [name.token])
  | afterOperand {e : Expression} {value : ExprTree} {w u : List Token} (begun : e.Begun w)
      (value_spelled : Spells (.layer .primary) value u) :
      Begun (.afterOperand value e) true (w ++ u)

/-! ### States -/

namespace State

/-- Whether a block is open. -/
def inside (s : State) : Bool := !s.blocks.isEmpty

/-- The tokens of the items before and of the open blocks. -/
inductive Encloses (s : State) : List Token → Prop where
  | mk {w v : List Token} (items_spelled : Spells .program s.items.reverse w)
      (nested : Nested s.blocks v) : Encloses s (w ++ v)

/-- The tokens of a state. -/
inductive Holds (s : State) : List Token → Prop where
  | mk {w v : List Token} (encloses : s.Encloses w) (begun : s.phase.Begun s.inside v) :
      Holds s (w ++ v)

variable {s : State} {e : Expression} {t : Token} {w v : List Token}

theorem Holds.initial : State.initial.Holds [] := by
  have hitems : Spells .program [] [] := ⟨.noItem, rfl, rfl⟩
  exact .mk (w := []) (.mk (w := []) hitems .none) .start

theorem Encloses.goto (h : s.Encloses w) (phase : Phase) : (s.goto phase).Encloses w := by
  obtain ⟨hitems, hnested⟩ := h
  exact .mk hitems hnested

theorem Encloses.holds (h : s.Encloses w) {inside : Bool} (hin : s.inside = inside) {phase : Phase}
    (hp : phase.Begun inside v) : (s.goto phase).Holds (w ++ v) := by
  subst hin
  exact .mk (h.goto phase) hp

/-- A statement is added to the innermost block. -/
theorem Encloses.addStmt (h : s.Encloses w) (hin : s.inside = true) {stmt : StmtTree}
    (hstmt : Spells .statement stmt v) :
    (s.addStmt stmt).Encloses (w ++ v) ∧ (s.addStmt stmt).inside = true := by
  obtain ⟨hitems, hnested⟩ := h
  obtain ⟨phase, blocks, items⟩ := s
  dsimp only at hitems hnested
  cases hnested with
  | none => cases hin
  | @more blocks owner body _ _ _ outer place begun lbrace body_spelled =>
    refine ⟨?_, rfl⟩
    obtain ⟨d, htree, rfl⟩ := body_spelled
    have hbody := d.snocStatement hstmt
    rw [htree, ← List.reverse_cons] at hbody
    have hmk : Encloses ⟨phase, ⟨owner, stmt :: body⟩ :: blocks, items⟩ _ :=
      .mk hitems (outer.more place begun lbrace hbody)
    simpa [State.addStmt] using hmk

theorem Encloses.endStmt (h : s.Encloses w) (hin : s.inside = true) {stmt : StmtTree}
    (hstmt : Spells .statement stmt v) : (s.endStmt stmt).Holds (w ++ v) := by
  obtain ⟨hencloses, hinside⟩ := h.addStmt hin hstmt
  have hholds := hencloses.holds hinside .statement
  rwa [List.append_nil] at hholds

theorem Encloses.openBlock (h : s.Encloses w) {owner : Owner} (hin : s.inside = !owner.isItem)
    (hbegun : owner.Begun v) (lbrace : Sign .lbrace) :
    (s.openBlock owner).Holds (w ++ (v ++ [lbrace.token])) := by
  obtain ⟨hitems, hnested⟩ := h
  have hplace : owner.isItem = s.blocks.isEmpty := by
    rw [inside] at hin
    simpa using hin.symm
  have hbody : Spells .statements (List.reverse []) [] := ⟨.noStatement, rfl, rfl⟩
  have hencloses : (s.openBlock owner).Encloses _ :=
    .mk hitems (hnested.more hplace hbegun lbrace hbody)
  have hholds := Holds.mk hencloses .statement
  simpa using hholds

/-- An item is added to those before. -/
theorem Encloses.addItem (h : s.Encloses w) (hin : s.inside = false) {item : ItemTree}
    (hitem : Spells .item item v) : (s.addItem item).Holds (w ++ v) := by
  obtain ⟨phase, blocks, items⟩ := s
  obtain ⟨hitems, hnested⟩ := h
  dsimp only at hitems hnested
  obtain ⟨d, htree, rfl⟩ := hitems
  cases hnested with
  | more => cases hin
  | none =>
    have hsnoc := d.snocItem hitem
    rw [htree, ← List.reverse_cons] at hsnoc
    have hencloses : Encloses ⟨.afterItem, [], item :: items⟩ (d.yield ++ v ++ []) :=
      .mk hsnoc .none
    have hholds := Holds.mk hencloses .afterItem
    simpa [State.addItem] using hholds

/-- A block is given to its owner. -/
theorem Encloses.closeBlock (h : s.Encloses w) {owner : Owner} (hin : s.inside = !owner.isItem)
    (hbegun : owner.Begun v) {body : List StmtTree} {block : Derivation .block}
    (htree : block.tree = body.reverse) :
    ∀ s' ∈ closeBlock? { s with blocks := ⟨owner, body⟩ :: s.blocks },
      s'.Holds (w ++ (v ++ block.yield)) := by
  intro s' hs'
  cases hbegun with
  | func heading params_spelled rpar arrow tag =>
    cases hs'
    obtain ⟨fn, name, lpar⟩ := heading
    obtain ⟨params, rfl, rfl⟩ := params_spelled
    have hitem : Spells .item (.func name.spelled tag.spelled params.tree body.reverse)
        (Derivation.function fn name lpar params rpar arrow tag block).yield :=
      ⟨.function fn name lpar params rpar arrow tag block, by rw [Derivation.tree, htree], rfl⟩
    have hholds := h.addItem hin hitem
    simpa [Derivation.yield] using hholds
  | main word =>
    cases hs'
    have hitem : Spells .item (.main body.reverse) (Derivation.main word block).yield :=
      ⟨.main word block, by rw [Derivation.tree, htree], rfl⟩
    exact h.addItem hin hitem
  | yes word lpar condition_spelled rpar =>
    cases hs'
    have hphase := Phase.Begun.afterBranch word lpar condition_spelled rpar ⟨block, htree, rfl⟩
    have hholds := h.holds hin hphase
    simpa using hholds
  | no word lpar condition_spelled rpar yes_spelled other =>
    cases hs'
    obtain ⟨condition, rfl, rfl⟩ := condition_spelled
    obtain ⟨yes, rfl, rfl⟩ := yes_spelled
    have hstmt : Spells .statement (.branchElse condition.tree yes.tree body.reverse)
        (Derivation.branchElse word lpar condition rpar yes other block).yield :=
      ⟨.branchElse word lpar condition rpar yes other block, by rw [Derivation.tree, htree], rfl⟩
    obtain ⟨hencloses, hinside⟩ := h.addStmt hin hstmt
    have hholds := hencloses.holds hinside .afterBlock
    simpa [Derivation.yield] using hholds
  | body word lpar condition_spelled rpar =>
    cases hs'
    obtain ⟨condition, rfl, rfl⟩ := condition_spelled
    have hstmt : Spells .statement (.loop condition.tree body.reverse)
        (Derivation.loop word lpar condition rpar block).yield :=
      ⟨.loop word lpar condition rpar block, by rw [Derivation.tree, htree], rfl⟩
    obtain ⟨hencloses, hinside⟩ := h.addStmt hin hstmt
    have hholds := hencloses.holds hinside .afterBlock
    simpa [Derivation.yield] using hholds

theorem closeBlock?_holds (h : s.Encloses w) (rbrace : Sign .rbrace) :
    ∀ s' ∈ s.closeBlock?, s'.Holds (w ++ [rbrace.token]) := by
  intro s' hs'
  obtain ⟨phase, blocks, items⟩ := s
  obtain ⟨hitems, hnested⟩ := h
  dsimp only at hitems hnested
  cases hnested with
  | none => cases hs'
  | @more blocks owner body u v x outer place begun lbrace body_spelled =>
    obtain ⟨d, htree, rfl⟩ := body_spelled
    have hencloses : Encloses ⟨phase, blocks, items⟩ _ :=
      .mk hitems outer
    have hin : inside ⟨phase, blocks, items⟩ = !owner.isItem := by
      rw [inside, place]
    have hholds := hencloses.closeBlock hin begun
      (show (Derivation.block lbrace d rbrace).tree = body.reverse from htree) s' hs'
    simpa [Derivation.yield] using hholds

theorem item?_holds (h : s.Encloses w) (hin : s.inside = false) :
    ∀ s' ∈ s.item? t, s'.Holds (w ++ [t]) := by
  intro s' hs'
  rw [Option.mem_def, item?] at hs'
  split at hs'
  next ht =>
    cases hs'
    exact h.holds hin (.funcName ⟨t, ht⟩)
  next ht =>
    cases hs'
    exact h.holds hin (.blockOpen (.main ⟨t, ht⟩))
  next => cases hs'

@[simp] theorem spelled_eq_string (h : t.terminal = .name) : Leaf.spelled ⟨t, h⟩ = t.string := rfl

theorem operand?_holds (h : s.Encloses w) (hin : s.inside = true) (he : e.Begun v) :
    ∀ s' ∈ s.operand? e t, s'.Holds (w ++ (v ++ [t])) := by
  intro s' hs'
  rw [Option.mem_def, operand?] at hs'
  split at hs'
  next ht =>
    cases hs'
    exact h.holds hin (.afterName he ⟨t, ht⟩)
  next ht =>
    cases hs'
    exact h.holds hin (.operand (he.enter (.group ⟨t, ht⟩)))
  next ht =>
    cases hs'
    exact h.holds hin (.operand (he.unary (by rw [ht]; decide)))
  next ht =>
    cases hs'
    exact h.holds hin (.operand (he.unary (by rw [ht]; decide)))
  next =>
    split at hs'
    next rule hrule =>
      cases hs'
      have hliteral : Spells (.layer .primary) (.literal rule t) [t] :=
        ⟨.literal rule ⟨t, Terminal.literalRule?_eq_some_iff.mp hrule⟩, rfl, rfl⟩
      exact h.holds hin (.afterOperand he hliteral)
    next => cases hs'

theorem finish?_holds (h : s.Encloses w) (hin : s.inside = true) {value : ExprTree}
    {u : List Token} (hvalue : Spells .expression value u) {goal : Goal} (hgoal : goal.Begun v) :
    ∀ s' ∈ s.finish? value goal t.terminal, s'.Holds (w ++ (v ++ (u ++ [t]))) := by
  intro s' hs'
  obtain ⟨d, rfl, rfl⟩ := hvalue
  unfold finish? at hs'
  split at hs'
  next tag name ht =>
    cases hs'
    cases hgoal with
    | start tag name equal =>
      exact h.endStmt hin ⟨.start tag name equal d ⟨t, ht⟩, rfl, rfl⟩
  next name ht =>
    cases hs'
    cases hgoal with
    | assign name equal =>
      exact h.endStmt hin ⟨.assign name equal d ⟨t, ht⟩, rfl, rfl⟩
  next ht =>
    cases hs'
    cases hgoal with
    | ret word =>
      exact h.endStmt hin ⟨.ret word d ⟨t, ht⟩, rfl, rfl⟩
  next ht =>
    cases hs'
    cases hgoal with
    | statement =>
      exact h.endStmt hin ⟨.expr d ⟨t, ht⟩, rfl, rfl⟩
  next ht =>
    cases hs'
    cases hgoal with
    | branch word lpar =>
      have hphase := Phase.Begun.blockOpen (.yes word lpar ⟨d, rfl, rfl⟩ ⟨t, ht⟩)
      simpa using h.holds hin hphase
  next ht =>
    cases hs'
    cases hgoal with
    | loop word lpar =>
      have hphase := Phase.Begun.blockOpen (.body word lpar ⟨d, rfl, rfl⟩ ⟨t, ht⟩)
      simpa using h.holds hin hphase
  next => cases hs'

theorem closeOperand?_holds (h : s.Encloses w) (hin : s.inside = true) {pending : List Pending}
    {levels : List Level} {goal : Goal} {g l u : List Token} (hgoal : goal.Begun g)
    (hlevels : Enclosing levels l) {value : ExprTree} (hvalue : Spells .expression value u) :
    ∀ s' ∈ s.closeOperand? value ⟨pending, levels, goal⟩ t.terminal,
      s'.Holds (w ++ (g ++ (l ++ (u ++ [t])))) := by
  intro s' hs'
  cases hlevels with
  | none => exact finish?_holds h hin hvalue hgoal s' hs'
  | more rest waiting begun =>
    obtain ⟨d, rfl, rfl⟩ := hvalue
    cases begun with
    | group lpar =>
      unfold closeOperand? at hs'
      split at hs'
      next hl => cases hl
      next hl ht =>
        cases hl
        cases hs'
        have hgroup : Spells (.layer .primary) d.tree (Derivation.group lpar d ⟨t, ht⟩).yield :=
          ⟨.group lpar d ⟨t, ht⟩, rfl, rfl⟩
        have hholds := h.holds hin (.afterOperand (.mk hgoal rest waiting) hgroup)
        simpa [Derivation.yield] using hholds
      next hl _ => cases hl
      next hl _ => cases hl
      next => cases hs'
    | call name lpar before =>
      unfold closeOperand? at hs'
      split at hs'
      next hl => cases hl
      next hl _ => cases hl
      next hl ht =>
        cases hl
        cases hs'
        obtain ⟨list, htree, hyield⟩ := before.complete ⟨.lastArg d, rfl, rfl⟩
        have hcall : Spells (.layer .primary) _ _ :=
          ⟨.call name lpar (.someArgs list) ⟨t, ht⟩, rfl, rfl⟩
        have hholds := h.holds hin (.afterOperand (.mk hgoal rest waiting) hcall)
        simpa [Derivation.yield, Derivation.tree, htree, hyield] using hholds
      next hl ht =>
        cases hl
        cases hs'
        have hbracket := Bracket.Begun.call name lpar (before.more ⟨d, rfl, rfl⟩ ⟨t, ht⟩)
        have hbegun := Expression.Begun.mk hgoal (rest.more waiting hbracket) .none
        have hholds := h.holds hin (.operand hbegun)
        simpa using hholds
      next => cases hs'

theorem afterOperand?_holds (h : s.Encloses w) (hin : s.inside = true) (he : e.Begun v)
    {value : ExprTree} {u : List Token} (hvalue : Spells (.layer .primary) value u) :
    ∀ s' ∈ s.afterOperand? value e t, s'.Holds (w ++ (v ++ (u ++ [t]))) := by
  intro s' hs'
  rw [Option.mem_def, afterOperand?] at hs'
  split at hs'
  next op hop =>
    cases hs'
    obtain ⟨l, hl⟩ := Terminal.operator_of_binaryOp? hop
    exact h.holds hin (.operand (he.binary hvalue hl))
  next =>
    obtain ⟨hgoal, henclosing, hwaiting⟩ := he
    have hclose := hwaiting.closed hvalue
    simpa using closeOperand?_holds h hin hgoal henclosing hclose s' hs'

theorem afterName?_holds (h : s.Encloses w) (hin : s.inside = true) (he : e.Begun v)
    (name : Leaf .name) :
    ∀ s' ∈ s.afterName? name.spelled e t, s'.Holds (w ++ (v ++ [name.token, t])) := by
  intro s' hs'
  rw [Option.mem_def, afterName?] at hs'
  split at hs'
  next ht =>
    cases hs'
    exact h.holds hin (.arguments he name ⟨t, ht⟩)
  next =>
    have hvar : Spells (.layer .primary) (.var name.spelled) [name.token] := ⟨.var name, rfl, rfl⟩
    exact afterOperand?_holds h hin he hvar s' hs'

theorem arguments?_holds (h : s.Encloses w) (hin : s.inside = true) (he : e.Begun v)
    (name : Leaf .name) (lpar : Sign .lpar) :
    ∀ s' ∈ s.arguments? (e.enter (.call name.spelled [])) t,
      s'.Holds (w ++ (v ++ [name.token, lpar.token, t])) := by
  intro s' hs'
  unfold arguments? at hs'
  split at hs'
  next ht hl =>
    cases hl
    cases hs'
    have hcall : Spells (.layer .primary) (.call name.spelled [])
        [name.token, lpar.token, t] := ⟨.call name lpar .noArg ⟨t, ht⟩, rfl, rfl⟩
    exact h.holds hin (.afterOperand he hcall)
  next =>
    have hholds := operand?_holds h hin (he.enter (.call name lpar .none)) s' hs'
    simpa using hholds

theorem statement?_holds (h : s.Encloses w) (hin : s.inside = true) :
    ∀ s' ∈ s.statement? t, s'.Holds (w ++ [t]) := by
  intro s' hs'
  rw [Option.mem_def, statement?] at hs'
  split at hs'
  next ht =>
    cases hs'
    exact h.holds hin (.branchOpen ⟨t, ht⟩)
  next ht =>
    cases hs'
    exact h.holds hin (.loopOpen ⟨t, ht⟩)
  next ht =>
    cases hs'
    exact h.holds hin (.operand (.new (.ret ⟨t, ht⟩)))
  next ht => exact closeBlock?_holds h ⟨t, ht⟩ s' hs'
  next ht =>
    cases hs'
    exact h.holds hin (.statementName ⟨t, ht⟩)
  next => exact operand?_holds h hin (.new .statement) s' hs'

theorem statementName?_holds (h : s.Encloses w) (hin : s.inside = true) (name : Leaf .name) :
    ∀ s' ∈ s.statementName? name.spelled t, s'.Holds (w ++ [name.token, t]) := by
  intro s' hs'
  rw [Option.mem_def, statementName?] at hs'
  split at hs'
  next ht =>
    cases hs'
    exact h.holds hin (.declared name ⟨t, ht⟩)
  next ht =>
    cases hs'
    exact h.holds hin (.operand (.new (.assign name ⟨t, ht⟩)))
  next => exact afterName?_holds h hin (.new .statement) name s' hs'

theorem declared?_holds (h : s.Encloses w) (hin : s.inside = true) (tag name : Leaf .name) :
    ∀ s' ∈ s.declared? tag.spelled name.spelled t, s'.Holds (w ++ [tag.token, name.token, t]) := by
  intro s' hs'
  rw [Option.mem_def, declared?] at hs'
  split at hs'
  next ht =>
    cases hs'
    exact h.holds hin (.operand (.new (.start tag name ⟨t, ht⟩)))
  next ht =>
    cases hs'
    exact h.endStmt hin ⟨.declare tag name ⟨t, ht⟩, rfl, rfl⟩
  next => cases hs'

/-- A block that may still get an `else`. -/
theorem afterBranch?_holds (h : s.Encloses w) (hin : s.inside = true) {condition : ExprTree}
    {body : List StmtTree} {u : List Token} (word : Word .if) (lpar : Sign .lpar)
    (hcondition : Spells .expression condition v) (rpar : Sign .rpar) (hyes : Spells .block body u) :
    ∀ s' ∈ s.afterBlock? (some (condition, body)) t,
      s'.Holds (w ++ (word.token :: lpar.token :: v ++ rpar.token :: u ++ [t])) := by
  intro s' hs'
  unfold afterBlock? at hs'
  split at hs'
  next hb ht =>
    cases hb
    cases hs'
    exact h.holds hin (.blockOpen (.no word lpar hcondition rpar hyes ⟨t, ht⟩))
  next hb _ =>
    cases hb
    obtain ⟨d, rfl, rfl⟩ := hcondition
    obtain ⟨yes, rfl, rfl⟩ := hyes
    obtain ⟨hencloses, hinside⟩ := h.addStmt hin ⟨.branch word lpar d rpar yes, rfl, rfl⟩
    have hholds := statement?_holds hencloses hinside s' hs'
    simpa [Derivation.yield] using hholds
  next hb => cases hb

/-- A token in the heading of a function. -/
theorem heading?_holds (h : s.Encloses w) {inside : Bool} (hin : s.inside = inside) {phase : Phase}
    (hphase : phase.Begun inside v) :
    ∀ s' ∈ s.heading? phase t, s'.Holds (w ++ (v ++ [t])) := by
  intro s' hs'
  unfold heading? at hs'
  split at hs' <;> cases hs'
  next ht =>
    cases hphase with
    | funcName fn => exact h.holds hin (.funcOpen fn ⟨t, ht⟩)
  next ht =>
    cases hphase with
    | funcOpen fn name => exact h.holds hin (.paramsOpen (.mk fn name ⟨t, ht⟩))
  next ht =>
    cases hphase with
    | paramsOpen heading => exact h.holds hin (.paramName heading .none ⟨t, ht⟩)
  next ht =>
    cases hphase with
    | paramsOpen heading =>
      have hparams : Spells .params (List.reverse []) [] := ⟨.noParam, rfl, rfl⟩
      exact h.holds hin (.arrow heading hparams ⟨t, ht⟩)
  next ht =>
    cases hphase with
    | paramTag heading before =>
      simpa using h.holds hin (.paramName heading before ⟨t, ht⟩)
  next ht =>
    cases hphase with
    | paramName heading before tag =>
      simpa using h.holds hin (.afterParam heading before tag ⟨t, ht⟩)
  next ht =>
    cases hphase with
    | afterParam heading before tag param =>
      simpa using h.holds hin (.paramTag heading (before.more tag param ⟨t, ht⟩))
  next ht =>
    cases hphase with
    | afterParam heading before tag param =>
      simpa using h.holds hin (.arrow heading (before.last tag param) ⟨t, ht⟩)
  next ht =>
    cases hphase with
    | arrow heading params_spelled rpar =>
      simpa using h.holds hin (.returnTag heading params_spelled rpar ⟨t, ht⟩)
  next ht =>
    cases hphase with
    | returnTag heading params_spelled rpar arrow =>
      simpa using h.holds hin (.blockOpen (.func heading params_spelled rpar arrow ⟨t, ht⟩))

theorem blockOpen?_holds (h : s.Encloses w) {owner : Owner} (hin : s.inside = !owner.isItem)
    (howner : owner.Begun v) : ∀ s' ∈ s.blockOpen? owner t, s'.Holds (w ++ (v ++ [t])) := by
  intro s' hs'
  unfold blockOpen? at hs'
  split at hs' <;> cases hs'
  next ht => exact h.openBlock hin howner ⟨t, ht⟩

theorem conditionOpen?_holds (h : s.Encloses w) (hin : s.inside = true) {of : Conditional}
    (hgoal : ∀ lpar : Sign .lpar, (Goal.condition of).Begun (v ++ [lpar.token])) :
    ∀ s' ∈ s.conditionOpen? of t, s'.Holds (w ++ (v ++ [t])) := by
  intro s' hs'
  unfold conditionOpen? at hs'
  split at hs' <;> cases hs'
  next ht => exact h.holds hin (.operand (.new (hgoal ⟨t, ht⟩)))

/-- **A token that is taken is added to the tokens of the state.** -/
theorem feed?_holds (h : s.Holds w) : ∀ s' ∈ s.feed? t, s'.Holds (w ++ [t]) := by
  intro s' hs'
  obtain ⟨hencloses, hbegun⟩ := h
  rw [List.append_assoc]
  obtain ⟨inside, hin⟩ : ∃ inside, s.inside = inside := ⟨_, rfl⟩
  rw [hin] at hbegun
  rw [Option.mem_def, feed?] at hs'
  generalize s.phase = phase at hbegun hs'
  cases hbegun with
  | start => exact item?_holds hencloses hin s' hs'
  | afterItem => exact item?_holds hencloses hin s' hs'
  | blockOpen owner_begun => exact blockOpen?_holds hencloses hin owner_begun s' hs'
  | statement => exact statement?_holds hencloses hin s' hs'
  | afterBlock => exact statement?_holds hencloses hin s' hs'
  | afterBranch word lpar condition_spelled rpar yes_spelled =>
    exact afterBranch?_holds hencloses hin word lpar condition_spelled rpar yes_spelled s' hs'
  | branchOpen word => exact conditionOpen?_holds hencloses hin (.branch word) s' hs'
  | loopOpen word => exact conditionOpen?_holds hencloses hin (.loop word) s' hs'
  | statementName name => exact statementName?_holds hencloses hin name s' hs'
  | declared tag name => exact declared?_holds hencloses hin tag name s' hs'
  | operand begun => exact operand?_holds hencloses hin begun s' hs'
  | arguments begun name lpar => simpa using arguments?_holds hencloses hin begun name lpar s' hs'
  | afterName begun name => simpa using afterName?_holds hencloses hin begun name s' hs'
  | afterOperand begun value_spelled =>
    simpa using afterOperand?_holds hencloses hin begun value_spelled s' hs'
  -- what is left are the headings of functions
  | funcName fn => exact heading?_holds hencloses hin (.funcName fn) s' hs'
  | funcOpen fn name => exact heading?_holds hencloses hin (.funcOpen fn name) s' hs'
  | paramsOpen heading => exact heading?_holds hencloses hin (.paramsOpen heading) s' hs'
  | paramTag heading before => exact heading?_holds hencloses hin (.paramTag heading before) s' hs'
  | paramName heading before tag =>
    exact heading?_holds hencloses hin (.paramName heading before tag) s' hs'
  | afterParam heading before tag param =>
    exact heading?_holds hencloses hin (.afterParam heading before tag param) s' hs'
  | arrow heading params_spelled rpar =>
    exact heading?_holds hencloses hin (.arrow heading params_spelled rpar) s' hs'
  | returnTag heading params_spelled rpar arrow =>
    exact heading?_holds hencloses hin (.returnTag heading params_spelled rpar arrow) s' hs'

/-- Outside of blocks, the tokens of the items are all there are. -/
theorem Encloses.derived (h : s.Encloses w) (hin : s.inside = false) :
    ∃ d : Derivation .program, d.yield = w ∧ d.tree = s.items.reverse := by
  obtain ⟨phase, blocks, items⟩ := s
  obtain ⟨⟨d, htree, rfl⟩, hnested⟩ := h
  cases hnested with
  | more => cases hin
  | none => exact ⟨d, (List.append_nil _).symm, htree⟩

/-- Where a text may end, its tokens are derived, and the items of the state are the tree of the
derivation. -/
theorem Holds.derived (h : s.Holds w) (hend : s.mayEnd = true) :
    ∃ d : Derivation .program, d.yield = w ∧ d.tree = s.items.reverse := by
  obtain ⟨hencloses, hbegun⟩ := h
  obtain ⟨inside, hin⟩ : ∃ inside, s.inside = inside := ⟨_, rfl⟩
  rw [hin] at hbegun
  rw [mayEnd] at hend
  split at hend
  next hp =>
    rw [hp] at hbegun
    cases hbegun with
    | start => simpa using hencloses.derived hin
  next hp =>
    rw [hp] at hbegun
    cases hbegun with
    | afterItem => simpa using hencloses.derived hin
  next => cases hend

end State

end SmallImp.Source

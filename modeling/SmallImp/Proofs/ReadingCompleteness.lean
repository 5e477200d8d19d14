import SmallImp.Proofs.ReadingSoundness
import SmallImp.Proofs.Unambiguity

/-!
# Derived tokens are read

The tokens of a derivation are taken one after the other, and the tree of the derivation is added
to the state. Each statement is about the tokens of a derivation with more tokens after them, since
the next token may decide what has been read: a name becomes a call, operators that wait take their
operand, and an `if` goes on with `else`.

* `State.feedAll` — tokens taken one after the other;
* `Derivation.IsRead` — what reading the tokens of a derivation does to a state;
* `Derivation.isRead` — reading does so for all derivations, production by production;
* `State.feedAll_initial` — the tokens of a program are read.
-/

namespace SmallImp.Source

namespace State

/-- Tokens taken one after the other. -/
def feedAll (s : State) : List Token → Option State
  | [] => some s
  | t :: rest => (s.feed? t).bind fun s' => s'.feedAll rest

theorem feedAll_cons_of_some {s s' : State} {t : Token} (h : s.feed? t = some s')
    (rest : List Token) : s.feedAll (t :: rest) = s'.feedAll rest := by
  rw [feedAll, h, Option.bind_some]

/-- States that take a token alike. -/
theorem feedAll_cons_congr {s s' : State} {t : Token} (h : s.feed? t = s'.feed? t)
    (rest : List Token) : s.feedAll (t :: rest) = s'.feedAll (t :: rest) := by
  rw [feedAll, feedAll, h]

@[simp] theorem goto_goto (s : State) (phase phase' : Phase) :
    (s.goto phase).goto phase' = s.goto phase' := rfl

@[simp] theorem phase_goto (s : State) (phase : Phase) : (s.goto phase).phase = phase := rfl

/-! A phase is left behind by whatever is read in it. -/

section

variable (s : State) (phase : Phase)

theorem addStmt_goto (stmt : StmtTree) : (s.goto phase).addStmt stmt = (s.addStmt stmt).goto phase := by
  obtain ⟨phase', blocks, items⟩ := s
  cases blocks with
  | nil => rfl
  | cons block rest => rfl

@[simp] theorem endStmt_goto (stmt : StmtTree) : (s.goto phase).endStmt stmt = s.endStmt stmt := by
  rw [endStmt, addStmt_goto]
  rfl

@[simp] theorem closeBlock?_goto : (s.goto phase).closeBlock? = s.closeBlock? := by
  obtain ⟨phase', blocks, items⟩ := s
  cases blocks with
  | nil => rfl
  | cons block rest =>
    obtain ⟨owner, body⟩ := block
    cases owner with
    | func name params returnTag => rfl
    | main => rfl
    | yes condition => rfl
    | no condition yes => cases rest <;> rfl
    | body condition => cases rest <;> rfl

@[simp] theorem operand?_goto (e : Expression) (t : Token) :
    (s.goto phase).operand? e t = s.operand? e t := rfl

@[simp] theorem finish?_goto (value : ExprTree) (goal : Goal) (k : Terminal) :
    (s.goto phase).finish? value goal k = s.finish? value goal k := by
  unfold finish?
  split <;> simp

@[simp] theorem closeOperand?_goto (value : ExprTree) (e : Expression) (k : Terminal) :
    (s.goto phase).closeOperand? value e k = s.closeOperand? value e k := by
  unfold closeOperand?
  split <;> simp

@[simp] theorem afterOperand?_goto (value : ExprTree) (e : Expression) (t : Token) :
    (s.goto phase).afterOperand? value e t = s.afterOperand? value e t := by
  unfold afterOperand?
  split <;> simp

@[simp] theorem afterName?_goto (name : String) (e : Expression) (t : Token) :
    (s.goto phase).afterName? name e t = s.afterName? name e t := by
  unfold afterName?
  split <;> simp

@[simp] theorem arguments?_goto (e : Expression) (t : Token) :
    (s.goto phase).arguments? e t = s.arguments? e t := rfl

@[simp] theorem statement?_goto (t : Token) : (s.goto phase).statement? t = s.statement? t := by
  unfold statement?
  split <;> simp

end

/-! What a token does in the phases of expressions and statements. -/

section

variable (s : State) (e : Expression) (t : Token)

theorem feed?_operand : (s.goto (.operand e)).feed? t = s.operand? e t := rfl

theorem feed?_arguments : (s.goto (.arguments e)).feed? t = s.arguments? e t := rfl

theorem feed?_afterName (name : String) : (s.goto (.afterName name e)).feed? t = s.afterName? name e t :=
  afterName?_goto ..

theorem feed?_afterOperand (value : ExprTree) :
    (s.goto (.afterOperand value e)).feed? t = s.afterOperand? value e t :=
  afterOperand?_goto ..

theorem feed?_statement : (s.goto .statement).feed? t = s.statement? t := statement?_goto ..

end

/-- Whether a function or a main block may come next. -/
def BetweenItems (s : State) : Prop := s.phase = .start ∨ s.phase = .afterItem

end State

/-- A token that leaves what waits below a layer alone: no parenthesis that makes a name a call, and
no operator that binds more tightly than those of the layer. -/
structure EndsOperand (l : Layer) (t : Token) : Prop where
  noCall : t.terminal ≠ .symbol .lpar
  looser : ∀ op, t.terminal.binaryOp? = some op → op.rank ≤ l.depth + 1

/-- What reading the tokens of a derivation does. -/
def Derivation.IsRead : {n : Nonterminal} → Derivation n → Prop
  | .program, d => ∀ s : State, s.BetweenItems → s.feedAll d.yield = some (d.tree.foldl .addItem s)
  | .item, d => ∀ (s : State) rest, s.BetweenItems →
      s.feedAll (d.yield ++ rest) = (s.addItem d.tree).feedAll rest
  | .params, d => ∀ (s : State) name (rpar : Sign .rpar) rest,
      (s.goto (.paramsOpen name)).feedAll (d.yield ++ rpar.token :: rest) =
        (s.goto (.arrow name d.tree.reverse)).feedAll rest
  | .paramList, d => ∀ (s : State) name before (rpar : Sign .rpar) rest,
      (s.goto (.paramTag name before)).feedAll (d.yield ++ rpar.token :: rest) =
        (s.goto (.arrow name (d.tree.reverse ++ before))).feedAll rest
  | .block, d => ∀ (s : State) owner rest,
      (s.goto (.blockOpen owner)).feedAll (d.yield ++ rest) =
        (State.closeBlock? { s with blocks := ⟨owner, d.tree.reverse⟩ :: s.blocks }).bind
          fun s' => s'.feedAll rest
  | .statements, d => ∀ (s : State) (rbrace : Sign .rbrace) rest,
      (s.goto .statement).feedAll (d.yield ++ rbrace.token :: rest) =
        ((d.tree.foldl .addStmt s).goto .statement).feedAll (rbrace.token :: rest)
  | .statement, d => ∀ (s : State) (t : Token) rest, t.terminal ≠ .keyword .else →
      (s.goto .statement).feedAll (d.yield ++ t :: rest) = (s.endStmt d.tree).feedAll (t :: rest)
  | .layer l, d => ∀ (s : State) (e : Expression) (t : Token) rest, Admits l e.pending →
      EndsOperand l t → (s.goto (.operand e)).feedAll (d.yield ++ t :: rest) =
        (s.goto (.afterOperand d.tree e)).feedAll (t :: rest)
  | .args, d => ∀ (s : State) (e : Expression) name (rpar : Sign .rpar) rest,
      (s.goto (.arguments (e.enter (.call name [])))).feedAll (d.yield ++ rpar.token :: rest) =
        (s.goto (.afterOperand (.call name d.tree) e)).feedAll rest
  | .argList, d => ∀ (s : State) (e : Expression) name before (rpar : Sign .rpar) rest,
      (s.goto (.operand (e.enter (.call name before)))).feedAll (d.yield ++ rpar.token :: rest) =
        (s.goto (.afterOperand (.call name (before.reverse ++ d.tree)) e)).feedAll rest

/-! ### Operators and operands -/

theorem Terminal.binaryOp?_of_operator {l : Layer} {k : Terminal} {op : BinaryOp}
    (h : (k, op) ∈ l.operators) : k.binaryOp? = some op := by
  cases l <;> simp [Layer.operators] at h <;> grind [Terminal.binaryOp?]

/-- An operator ends an operand of its own layer. -/
theorem EndsOperand.operator {l : Layer} {sign : Token} {op : BinaryOp}
    (h : (sign.terminal, op) ∈ l.operators) : EndsOperand l sign := by
  constructor
  · intro hlpar
    obtain ⟨s, hs, hne, -⟩ := Layer.operator_ne h
    rw [hlpar] at hs
    cases hs
    exact hne rfl
  · intro op' hop'
    rw [Terminal.binaryOp?_of_operator h] at hop'
    cases hop'
    exact Nat.le_of_eq (Layer.rank_of_operator h)

theorem EndsOperand.tighter {l m : Layer} {t : Token} (h : EndsOperand l t)
    (hle : l.depth ≤ m.depth) : EndsOperand m t := by
  refine ⟨h.noCall, ?_⟩
  intro op hop
  have hrank := h.looser op hop
  omega

/-- A separator or a closing parenthesis ends an operand. -/
theorem EndsOperand.sign {l : Layer} {s : Symbol} (hs : s = .rpar ∨ s = .comma ∨ s = .semicolon)
    (sign : Sign s) : EndsOperand l sign.token := by
  constructor
  · rw [sign.terminal_eq]
    rcases hs with rfl | rfl | rfl <;> decide
  · intro op hop
    rw [sign.terminal_eq] at hop
    rcases hs with rfl | rfl | rfl <;> cases hop

theorem Admits.tighter {l m : Layer} {pending : List Pending} (h : Admits l pending)
    (hle : l.depth ≤ m.depth) : Admits m pending := by
  cases pending with
  | nil => trivial
  | cons p rest =>
    cases p with
    | unary op => exact Nat.le_trans h hle
    | binary left op => exact Nat.le_trans h hle

/-- What waits below a binary layer is not given an operand of that layer. -/
theorem Admits.settle {l : Layer} {pending : List Pending} (h : Admits l pending)
    (hl : l.depth < Layer.unary.depth) (value : ExprTree) :
    settle (l.depth + 1) value pending = (value, pending) := by
  cases pending with
  | nil => rfl
  | cons p rest =>
    cases p with
    | unary op =>
      have hle : Layer.unary.depth ≤ l.depth := h
      omega
    | binary left op =>
      have hle : op.rank ≤ l.depth := h
      rw [Source.settle, if_neg (by omega)]

namespace State

variable (s : State) (e : Expression)

/-- A token that ends an operand gives it to a unary operator that waits. -/
theorem afterOperand?_unary (op : UnaryOp) (value : ExprTree) (t : Token) :
    s.afterOperand? value { e with pending := .unary op :: e.pending } t =
      s.afterOperand? (.unary op value) e t := by
  rw [afterOperand?, afterOperand?]
  cases t.terminal.binaryOp? with
  | none => rfl
  | some op' => rfl

/-- A token that ends an operand of a layer gives it to an operator of the layer that waits. -/
theorem afterOperand?_binary {l : Layer} {op : BinaryOp} (hop : op.rank = l.depth + 1)
    (left value : ExprTree) {t : Token} (ht : EndsOperand l t) :
    s.afterOperand? value { e with pending := .binary left op :: e.pending } t =
      s.afterOperand? (.binary left op value) e t := by
  rw [afterOperand?, afterOperand?]
  cases hk : t.terminal.binaryOp? with
  | none => rfl
  | some op' =>
    have hrank := ht.looser op' hk
    dsimp only
    rw [settle, if_pos (by omega)]

end State

/-! ### Tokens of expressions -/

section

variable (s : State) (e : Expression)

theorem feed?_unaryOperator {sign : Token} {op : UnaryOp}
    (isOperator : (sign.terminal, op) ∈ unaryOperators) : (s.goto (.operand e)).feed? sign =
      some (s.goto (.operand { e with pending := .unary op :: e.pending })) := by
  simp only [unaryOperators, List.mem_cons, List.not_mem_nil, or_false, Prod.mk.injEq] at isOperator
  rcases isOperator with ⟨hk, rfl⟩ | ⟨hk, rfl⟩
  · rw [State.feed?_operand, State.operand?, hk]
  · rw [State.feed?_operand, State.operand?, hk]

theorem feed?_literal {rule : LiteralRule} (leaf : Leaf rule.terminal) :
    (s.goto (.operand e)).feed? leaf.token =
      some (s.goto (.afterOperand (.literal rule leaf.token) e)) := by
  rw [State.feed?_operand, State.operand?]
  cases rule <;> rw [leaf.terminal_eq] <;> rfl

theorem feed?_name (name : Leaf .name) : (s.goto (.operand e)).feed? name.token =
    some (s.goto (.afterName name.spelled e)) := by
  rw [State.feed?_operand, State.operand?, name.terminal_eq]
  rfl

theorem feed?_group (lpar : Sign .lpar) :
    (s.goto (.operand e)).feed? lpar.token = some (s.goto (.operand (e.enter .group))) := by
  rw [State.feed?_operand, State.operand?, lpar.terminal_eq]

theorem feed?_call (name : String) (lpar : Sign .lpar) :
    (s.goto (.afterName name e)).feed? lpar.token =
      some (s.goto (.arguments (e.enter (.call name [])))) := by
  rw [State.feed?_afterName, State.afterName?, lpar.terminal_eq]

theorem feed?_noArg (name : String) (rpar : Sign .rpar) :
    (s.goto (.arguments (e.enter (.call name [])))).feed? rpar.token =
      some (s.goto (.afterOperand (.call name []) e)) := by
  rw [State.feed?_arguments, State.arguments?, rpar.terminal_eq]
  rfl

/-- An argument is read like any other expression, since it does not start with the closing
parenthesis. -/
theorem feed?_firstArg {t : Token} (ht : t.terminal.startsOperand = true) :
    (s.goto (.arguments e)).feed? t = (s.goto (.operand e)).feed? t := by
  rw [State.feed?_arguments, State.feed?_operand, State.arguments?]
  split
  next hk _ => simp [hk, Terminal.startsOperand] at ht
  next => rfl

end

/-! ### Productions of expressions -/

theorem isRead_pass {l : Layer} {notLast : l ≠ .primary} {operand : Derivation (.layer l.tighter)}
    (h : operand.IsRead) : (Derivation.pass notLast operand).IsRead := by
  intro s e t rest ha ht
  have hdepth := Layer.depth_tighter notLast
  exact h s e t rest (ha.tighter (by omega)) (ht.tighter (by omega))

theorem isRead_binary {l : Layer} {left : Derivation (.layer l)} {sign : Token} {op : BinaryOp}
    {isOperator : (sign.terminal, op) ∈ l.operators} {right : Derivation (.layer l.tighter)}
    (hleft : left.IsRead) (hright : right.IsRead) :
    (Derivation.binary left sign op isOperator right).IsRead := by
  intro s e t rest ha ht
  have hrank := Layer.rank_of_operator isOperator
  have hbinary : l.depth < Layer.unary.depth := by
    cases l <;> simp [Layer.operators, Layer.depth] at isOperator ⊢
  have hdepth := Layer.depth_tighter (Layer.ne_primary_of_depth_lt hbinary)
  have hsign : (s.goto (.afterOperand left.tree e)).feed? sign =
      some (s.goto (.operand { e with pending := .binary left.tree op :: e.pending })) := by
    rw [State.feed?_afterOperand, State.afterOperand?, Terminal.binaryOp?_of_operator isOperator]
    dsimp only
    rw [hrank, ha.settle hbinary]
  simp only [Derivation.yield, List.append_assoc, List.cons_append]
  rw [hleft s e sign _ ha (.operator isOperator), State.feedAll_cons_of_some hsign,
    hright s _ t rest (show op.rank ≤ _ by omega) (ht.tighter (by omega))]
  refine State.feedAll_cons_congr ?_ rest
  rw [State.feed?_afterOperand, State.feed?_afterOperand]
  exact State.afterOperand?_binary _ _ hrank _ _ ht

theorem isRead_unary {sign : Token} {op : UnaryOp}
    {isOperator : (sign.terminal, op) ∈ unaryOperators} {operand : Derivation (.layer .unary)}
    (h : operand.IsRead) : (Derivation.unary sign op isOperator operand).IsRead := by
  intro s e t rest ha ht
  simp only [Derivation.yield, List.cons_append]
  rw [State.feedAll_cons_of_some (feed?_unaryOperator s e isOperator),
    h s _ t rest (Nat.le_refl _) ht]
  refine State.feedAll_cons_congr ?_ rest
  rw [State.feed?_afterOperand, State.feed?_afterOperand]
  exact State.afterOperand?_unary ..

theorem isRead_literal {rule : LiteralRule} {leaf : Leaf rule.terminal} :
    (Derivation.literal rule leaf).IsRead := by
  intro s e t rest ha ht
  exact State.feedAll_cons_of_some (feed?_literal s e leaf) _

theorem isRead_var {name : Leaf .name} : (Derivation.var name).IsRead := by
  intro s e t rest ha ht
  simp only [Derivation.yield, List.cons_append, List.nil_append]
  rw [State.feedAll_cons_of_some (feed?_name s e name)]
  refine State.feedAll_cons_congr ?_ rest
  rw [State.feed?_afterName, State.feed?_afterOperand, State.afterName?]
  split
  next hlpar => exact absurd hlpar ht.noCall
  next => rfl

theorem isRead_group {lpar : Sign .lpar} {inner : Derivation .expression} {rpar : Sign .rpar}
    (h : inner.IsRead) : (Derivation.group lpar inner rpar).IsRead := by
  intro s e t rest ha ht
  have hrpar : (s.goto (.afterOperand inner.tree (e.enter .group))).feed? rpar.token =
      some (s.goto (.afterOperand inner.tree e)) := by
    rw [State.feed?_afterOperand, State.afterOperand?, rpar.terminal_eq]
    rfl
  simp only [Derivation.yield, List.cons_append, List.append_assoc, List.nil_append]
  rw [State.feedAll_cons_of_some (feed?_group s e lpar),
    h s (e.enter .group) rpar.token _ trivial (.sign (.inl rfl) rpar), State.feedAll_cons_of_some hrpar]
  rfl

theorem isRead_call {name : Leaf .name} {lpar : Sign .lpar} {args : Derivation .args}
    {rpar : Sign .rpar} (h : args.IsRead) : (Derivation.call name lpar args rpar).IsRead := by
  intro s e t rest ha ht
  simp only [Derivation.yield, List.cons_append, List.append_assoc, List.nil_append]
  rw [State.feedAll_cons_of_some (feed?_name s e name),
    State.feedAll_cons_of_some (feed?_call s e name.spelled lpar), h s e name.spelled rpar]
  rfl

theorem isRead_noArg : Derivation.noArg.IsRead := by
  intro s e name rpar rest
  exact State.feedAll_cons_of_some (feed?_noArg s e name rpar) rest

theorem isRead_lastArg {value : Derivation .expression} (h : value.IsRead) :
    (Derivation.lastArg value).IsRead := by
  intro s e name before rpar rest
  have hrpar : (s.goto (.afterOperand value.tree (e.enter (.call name before)))).feed? rpar.token =
      some (s.goto (.afterOperand (.call name (before.reverse ++ [value.tree])) e)) := by
    rw [State.feed?_afterOperand, State.afterOperand?, rpar.terminal_eq, ← List.reverse_cons]
    rfl
  simp only [Derivation.yield]
  rw [h s (e.enter (.call name before)) rpar.token _ trivial (.sign (.inl rfl) rpar),
    State.feedAll_cons_of_some hrpar]
  rfl

theorem isRead_moreArgs {value : Derivation .expression} {comma : Sign .comma}
    {list : Derivation .argList} (h : value.IsRead) (hlist : list.IsRead) :
    (Derivation.moreArgs value comma list).IsRead := by
  intro s e name before rpar rest
  have hcomma : (s.goto (.afterOperand value.tree (e.enter (.call name before)))).feed? comma.token =
      some (s.goto (.operand (e.enter (.call name (value.tree :: before))))) := by
    rw [State.feed?_afterOperand, State.afterOperand?, comma.terminal_eq]
    rfl
  simp only [Derivation.yield, List.cons_append, List.append_assoc]
  rw [h s (e.enter (.call name before)) comma.token _ trivial (.sign (.inr (.inl rfl)) comma),
    State.feedAll_cons_of_some hcomma,
    hlist s e name (value.tree :: before) rpar, List.reverse_cons, List.append_assoc]
  rfl

theorem argList_head (list : Derivation .argList) :
    ∃ t rest, list.yield = t :: rest ∧ t.terminal.startsOperand = true := by
  cases list with
  | lastArg value => exact layer_head value
  | moreArgs value comma rest =>
    obtain ⟨t, tail, hyield, ht⟩ := layer_head value
    exact ⟨t, tail ++ comma.token :: rest.yield, by rw [Derivation.yield, hyield]; rfl, ht⟩

theorem isRead_someArgs {list : Derivation .argList} (h : list.IsRead) :
    (Derivation.someArgs list).IsRead := by
  intro s e name rpar rest
  obtain ⟨t, tail, hyield, ht⟩ := argList_head list
  have hlist := h s e name [] rpar rest
  simp only [Derivation.yield]
  rw [hyield, List.cons_append] at hlist ⊢
  rw [State.feedAll_cons_congr (feed?_firstArg s _ ht), hlist]
  rfl

/-! ### Productions of statements -/

section

variable {s : State} {rest : List Token}

/-- A whole expression, with the token that ends it and uses it for what it was read for. -/
theorem feedAll_finish {value : Derivation .expression} (h : value.IsRead) {k : Symbol}
    (hk : k = .rpar ∨ k = .comma ∨ k = .semicolon) (sign : Sign k) {goal : Goal} {s' : State}
    (hfinish : s.finish? value.tree goal (.symbol k) = some s') :
    (s.goto (.operand (.new goal))).feedAll (value.yield ++ sign.token :: rest) = s'.feedAll rest := by
  have hop : (Terminal.symbol k).binaryOp? = none := by rcases hk with rfl | rfl | rfl <;> rfl
  have hsign : (s.goto (.afterOperand value.tree (.new goal))).feed? sign.token = some s' := by
    rw [State.feed?_afterOperand, State.afterOperand?, sign.terminal_eq, hop]
    exact hfinish
  rw [h s (.new goal) sign.token rest trivial (.sign hk sign), State.feedAll_cons_of_some hsign]

theorem feed?_statementName (name : Leaf .name) :
    (s.goto .statement).feed? name.token = some (s.goto (.statementName name.spelled)) := by
  rw [State.feed?_statement, State.statement?, name.terminal_eq]
  rfl

theorem feed?_declared (tag name : Leaf .name) :
    (s.goto (.statementName tag.spelled)).feed? name.token =
      some (s.goto (.declared tag.spelled name.spelled)) := by
  show State.statementName? _ _ _ = _
  rw [State.statementName?, name.terminal_eq]
  rfl

theorem feed?_declaration (tag name : String) (semicolon : Sign .semicolon) :
    (s.goto (.declared tag name)).feed? semicolon.token =
      some (s.endStmt (.declare tag name)) := by
  show State.declared? _ _ _ _ = _
  rw [State.declared?, semicolon.terminal_eq, ← State.endStmt_goto s]

theorem feed?_startValue (tag name : String) (equal : Sign .equal) :
    (s.goto (.declared tag name)).feed? equal.token =
      some (s.goto (.operand (.new (.start tag name)))) := by
  show State.declared? _ _ _ _ = _
  rw [State.declared?, equal.terminal_eq]
  rfl

theorem feed?_assignment (name : String) (equal : Sign .equal) :
    (s.goto (.statementName name)).feed? equal.token =
      some (s.goto (.operand (.new (.assign name)))) := by
  show State.statementName? _ _ _ = _
  rw [State.statementName?, equal.terminal_eq]
  rfl

theorem feed?_return (word : Word .return) :
    (s.goto .statement).feed? word.token = some (s.goto (.operand (.new .ret))) := by
  rw [State.feed?_statement, State.statement?, word.terminal_eq]

theorem isRead_declare {tag name : Leaf .name} {semicolon : Sign .semicolon} :
    (Derivation.declare tag name semicolon).IsRead := by
  intro s t rest _
  simp only [Derivation.yield, List.cons_append, List.nil_append]
  rw [State.feedAll_cons_of_some (feed?_statementName tag),
    State.feedAll_cons_of_some (feed?_declared tag name),
    State.feedAll_cons_of_some (feed?_declaration _ _ semicolon)]
  rfl

theorem isRead_start {tag name : Leaf .name} {equal : Sign .equal} {value : Derivation .expression}
    {semicolon : Sign .semicolon} (h : value.IsRead) :
    (Derivation.start tag name equal value semicolon).IsRead := by
  intro s t rest _
  simp only [Derivation.yield, List.cons_append, List.append_assoc, List.nil_append]
  rw [State.feedAll_cons_of_some (feed?_statementName tag),
    State.feedAll_cons_of_some (feed?_declared tag name),
    State.feedAll_cons_of_some (feed?_startValue _ _ equal)]
  exact feedAll_finish h (.inr (.inr rfl)) semicolon rfl

theorem isRead_assign {name : Leaf .name} {equal : Sign .equal} {value : Derivation .expression}
    {semicolon : Sign .semicolon} (h : value.IsRead) :
    (Derivation.assign name equal value semicolon).IsRead := by
  intro s t rest _
  simp only [Derivation.yield, List.cons_append, List.append_assoc, List.nil_append]
  rw [State.feedAll_cons_of_some (feed?_statementName name),
    State.feedAll_cons_of_some (feed?_assignment _ equal)]
  exact feedAll_finish h (.inr (.inr rfl)) semicolon rfl

theorem isRead_ret {word : Word .return} {value : Derivation .expression}
    {semicolon : Sign .semicolon} (h : value.IsRead) :
    (Derivation.ret word value semicolon).IsRead := by
  intro s t rest _
  simp only [Derivation.yield, List.cons_append, List.append_assoc, List.nil_append]
  rw [State.feedAll_cons_of_some (feed?_return word)]
  exact feedAll_finish h (.inr (.inr rfl)) semicolon rfl

/-- An expression before a semicolon does not go on after a name with a token that ends it. -/
theorem not_named {value : Derivation .expression} {semicolon : Sign .semicolon} {t t' : Token}
    {tail : List Token} (ht : t.terminal = .name) {k : Terminal} (hk : t'.terminal = k)
    (hends : ¬Nonterminal.expression.Continues k) (hne : k ≠ .symbol .semicolon) :
    value.yield ++ semicolon.token :: rest ≠ t :: t' :: tail := by
  intro h
  have hunique : ∀ v : List Token, v.length < (t :: t' :: tail).length → ∀ n, UniqueIn v n :=
    fun v _ n => uniqueIn v n
  have hrow : (⟨t, ht⟩ : Leaf .name).token :: (⟨t', hk⟩ : Leaf k).token :: tail = t :: t' :: tail := rfl
  exact named_ne_expression hunique hends hne hrow h

/-- An expression before a semicolon that starts with a name is no declaration and no assignment. -/
theorem expression_next {value : Derivation .expression} {semicolon : Sign .semicolon} {t t' : Token}
    {tail : List Token} (ht : t.terminal = .name)
    (hrow : value.yield ++ semicolon.token :: rest = t :: t' :: tail) :
    t'.terminal ≠ .name ∧ t'.terminal ≠ .symbol .equal := by
  have hequal := Layer.not_continues_symbol (l := .disjunction) (s := .equal) (by simp)
  refine ⟨fun hk => ?_, fun hk => ?_⟩
  · exact not_named ht hk Layer.not_continues_name (by decide) hrow
  · exact not_named ht hk hequal (by decide) hrow

/-- After a name that starts a statement, a token that makes it no declaration and no assignment is
taken as after any other name. -/
theorem feed?_afterStatementName (name : String) {t : Token} (hname : t.terminal ≠ .name)
    (hequal : t.terminal ≠ .symbol .equal) : (s.goto (.statementName name)).feed? t =
      (s.goto (.afterName name (.new .statement))).feed? t := by
  rw [State.feed?_afterName, ← State.afterName?_goto s (.statementName name)]
  show State.statementName? _ _ t = _
  rw [State.statementName?]
  split
  next hk => exact absurd hk hname
  next hk => exact absurd hk hequal
  next => rfl

/-- An expression that does not start with a name is read alike at the start of a statement. -/
theorem feed?_statementOperand {t : Token} (ht : t.terminal.startsOperand = true)
    (hname : t.terminal ≠ .name) :
    (s.goto .statement).feed? t = (s.goto (.operand (.new .statement))).feed? t := by
  rw [State.feed?_statement, State.feed?_operand, State.statement?]
  split
  next hk => simp [hk, Terminal.startsOperand] at ht
  next hk => simp [hk, Terminal.startsOperand] at ht
  next hk => simp [hk, Terminal.startsOperand] at ht
  next hk => simp [hk, Terminal.startsOperand] at ht
  next hk => exact absurd hk hname
  next => rfl

/-- An expression at the start of a statement is read like any other: if it starts with a name, the
token after it is none that makes the statement a declaration or an assignment. -/
theorem feedAll_statement {value : Derivation .expression} {semicolon : Sign .semicolon} :
    (s.goto .statement).feedAll (value.yield ++ semicolon.token :: rest) =
      (s.goto (.operand (.new .statement))).feedAll (value.yield ++ semicolon.token :: rest) := by
  obtain ⟨t, tail, hyield, ht⟩ := layer_head value
  by_cases hname : t.terminal = .name
  · obtain ⟨t', tail', htail⟩ : ∃ t' tail', tail ++ semicolon.token :: rest = t' :: tail' := by
      cases tail with
      | nil => exact ⟨_, _, rfl⟩
      | cons t' tail => exact ⟨_, _, rfl⟩
    have hrow : value.yield ++ semicolon.token :: rest = t :: t' :: tail' := by
      rw [hyield, List.cons_append, htail]
    have hnext := expression_next hname hrow
    rw [hrow, State.feedAll_cons_of_some (feed?_statementName ⟨t, hname⟩),
      State.feedAll_cons_of_some (feed?_name s _ ⟨t, hname⟩)]
    exact State.feedAll_cons_congr (feed?_afterStatementName _ hnext.1 hnext.2) tail'
  · rw [hyield, List.cons_append]
    exact State.feedAll_cons_congr (feed?_statementOperand ht hname) _

theorem isRead_expr {value : Derivation .expression} {semicolon : Sign .semicolon}
    (h : value.IsRead) : (Derivation.expr value semicolon).IsRead := by
  intro s t rest _
  simp only [Derivation.yield, List.append_assoc, List.cons_append, List.nil_append]
  rw [feedAll_statement]
  exact feedAll_finish h (.inr (.inr rfl)) semicolon rfl

theorem feed?_if (word : Word .if) :
    (s.goto .statement).feed? word.token = some (s.goto (.conditionOpen .branch)) := by
  rw [State.feed?_statement, State.statement?, word.terminal_eq]

theorem feed?_while (word : Word .while) :
    (s.goto .statement).feed? word.token = some (s.goto (.conditionOpen .loop)) := by
  rw [State.feed?_statement, State.statement?, word.terminal_eq]

theorem feed?_condition (of : Conditional) (lpar : Sign .lpar) :
    (s.goto (.conditionOpen of)).feed? lpar.token =
      some (s.goto (.operand (.new (.condition of)))) := by
  show State.conditionOpen? _ _ _ = _
  rw [State.conditionOpen?, lpar.terminal_eq]
  rfl

theorem feed?_else (condition : ExprTree) (yes : List StmtTree) (other : Word .else) :
    (s.goto (.afterBlock (some (condition, yes)))).feed? other.token =
      some (s.goto (.blockOpen (.no condition yes))) := by
  show State.afterBlock? _ _ other.token = _
  simp [State.afterBlock?, other.terminal_eq]

theorem feed?_lbrace (owner : Owner) (lbrace : Sign .lbrace) :
    (s.goto (.blockOpen owner)).feed? lbrace.token = some (s.openBlock owner) := by
  show State.blockOpen? _ _ _ = _
  rw [State.blockOpen?, lbrace.terminal_eq]
  rfl

/-- The states after a block inside of a block. -/
theorem feed?_afterBlock (t : Token) :
    (s.goto (.afterBlock none)).feed? t = (s.goto .statement).feed? t := by
  rw [State.feed?_statement]
  exact State.statement?_goto ..

/-- An `if` that gets no `else` is a statement of its own. -/
theorem feed?_afterBranch (condition : ExprTree) (yes : List StmtTree) {t : Token}
    (ht : t.terminal ≠ .keyword .else) :
    (s.goto (.afterBlock (some (condition, yes)))).feed? t =
      (s.endStmt (.branch condition yes)).feed? t := by
  rw [State.endStmt, State.feed?_statement]
  show State.afterBlock? _ _ t = _
  unfold State.afterBlock?
  split
  next hk => exact absurd hk ht
  next hb _ =>
    cases hb
    rw [State.addStmt_goto, State.statement?_goto]
  next hb => cases hb

theorem isRead_branch {word : Word .if} {lpar : Sign .lpar} {condition : Derivation .expression}
    {rpar : Sign .rpar} {yes : Derivation .block} (hcondition : condition.IsRead)
    (hyes : yes.IsRead) : (Derivation.branch word lpar condition rpar yes).IsRead := by
  intro s t rest ht
  simp only [Derivation.yield, List.cons_append, List.append_assoc]
  rw [State.feedAll_cons_of_some (feed?_if word),
    State.feedAll_cons_of_some (feed?_condition .branch lpar),
    feedAll_finish hcondition (.inl rfl) rpar rfl, hyes]
  simp only [State.closeBlock?, List.reverse_reverse, Option.bind_some]
  exact State.feedAll_cons_congr (feed?_afterBranch _ _ ht) rest

theorem isRead_branchElse {word : Word .if} {lpar : Sign .lpar}
    {condition : Derivation .expression} {rpar : Sign .rpar} {yes : Derivation .block}
    {other : Word .else} {no : Derivation .block} (hcondition : condition.IsRead)
    (hyes : yes.IsRead) (hno : no.IsRead) :
    (Derivation.branchElse word lpar condition rpar yes other no).IsRead := by
  intro s t rest ht
  simp only [Derivation.yield, List.cons_append, List.append_assoc]
  rw [State.feedAll_cons_of_some (feed?_if word),
    State.feedAll_cons_of_some (feed?_condition .branch lpar),
    feedAll_finish hcondition (.inl rfl) rpar rfl, hyes]
  simp only [State.closeBlock?, List.reverse_reverse, Option.bind_some]
  refine (State.feedAll_cons_of_some (feed?_else _ _ other) _).trans ?_
  rw [hno]
  simp only [State.closeBlock?, List.reverse_reverse, Option.bind_some]
  exact State.feedAll_cons_congr (feed?_afterBlock t) rest

theorem isRead_loop {word : Word .while} {lpar : Sign .lpar} {condition : Derivation .expression}
    {rpar : Sign .rpar} {body : Derivation .block} (hcondition : condition.IsRead)
    (hbody : body.IsRead) : (Derivation.loop word lpar condition rpar body).IsRead := by
  intro s t rest ht
  simp only [Derivation.yield, List.cons_append, List.append_assoc]
  rw [State.feedAll_cons_of_some (feed?_while word),
    State.feedAll_cons_of_some (feed?_condition .loop lpar),
    feedAll_finish hcondition (.inl rfl) rpar rfl, hbody]
  simp only [State.closeBlock?, List.reverse_reverse, Option.bind_some]
  exact State.feedAll_cons_congr (feed?_afterBlock t) rest

/-- What follows a statement of a block is no `else`. -/
theorem statements_next (d : Derivation .statements) (rbrace : Sign .rbrace) (rest : List Token) :
    ∃ t tail, d.yield ++ rbrace.token :: rest = t :: tail ∧ t.terminal ≠ .keyword .else := by
  cases d with
  | noStatement =>
    refine ⟨rbrace.token, rest, rfl, ?_⟩
    rw [rbrace.terminal_eq]
    decide
  | moreStatements first more =>
    obtain ⟨t, tail, hyield, -, helse⟩ := statement_head first
    refine ⟨t, tail ++ more.yield ++ rbrace.token :: rest, ?_, helse⟩
    rw [Derivation.yield, hyield]
    simp

theorem isRead_noStatement : Derivation.noStatement.IsRead := by
  intro s rbrace rest
  rfl

theorem isRead_moreStatements {first : Derivation .statement} {more : Derivation .statements}
    (hfirst : first.IsRead) (hmore : more.IsRead) :
    (Derivation.moreStatements first more).IsRead := by
  intro s rbrace rest
  obtain ⟨t, tail, hnext, helse⟩ := statements_next more rbrace rest
  rw [Derivation.yield, List.append_assoc, hnext, hfirst s t tail helse, State.endStmt, ← hnext,
    hmore (s.addStmt first.tree)]
  rfl

theorem foldl_addStmt (phase : Phase) (owner : Owner) (blocks : List OpenBlock)
    (items : List ItemTree) (stmts : List StmtTree) : ∀ body : List StmtTree,
    stmts.foldl .addStmt (⟨phase, ⟨owner, body⟩ :: blocks, items⟩ : State) =
      ⟨phase, ⟨owner, stmts.reverse ++ body⟩ :: blocks, items⟩ := by
  induction stmts with
  | nil => exact fun _ => rfl
  | cons stmt rest ih =>
    intro body
    rw [List.foldl_cons, List.reverse_cons, List.append_assoc]
    exact ih (stmt :: body)

theorem isRead_block {lbrace : Sign .lbrace} {body : Derivation .statements} {rbrace : Sign .rbrace}
    (h : body.IsRead) : (Derivation.block lbrace body rbrace).IsRead := by
  intro s owner rest
  have hopen : s.openBlock owner =
      State.goto { s with blocks := ⟨owner, []⟩ :: s.blocks } .statement := rfl
  simp only [Derivation.yield, List.cons_append, List.append_assoc, List.nil_append]
  rw [State.feedAll_cons_of_some (feed?_lbrace owner lbrace), hopen, h, foldl_addStmt,
    List.append_nil, State.feedAll, State.feed?_statement, State.statement?, rbrace.terminal_eq]
  rfl

end

/-! ### Productions of functions and programs -/

section

variable {s : State} {func : String} {before : List ParamTree} {rest : List Token}

theorem feed?_paramTag (tag : Leaf .name) : (s.goto (.paramTag func before)).feed? tag.token =
    some (s.goto (.paramName func before tag.spelled)) := by
  show State.heading? _ _ _ = _
  simp [State.heading?, tag.terminal_eq, Leaf.spelled]

theorem feed?_paramName (tag : String) (name : Leaf .name) :
    (s.goto (.paramName func before tag)).feed? name.token =
      some (s.goto (.afterParam func (⟨tag, name.spelled⟩ :: before))) := by
  show State.heading? _ _ _ = _
  simp [State.heading?, name.terminal_eq, Leaf.spelled]

theorem feed?_paramComma (comma : Sign .comma) : (s.goto (.afterParam func before)).feed? comma.token =
    some (s.goto (.paramTag func before)) := by
  show State.heading? _ _ _ = _
  simp [State.heading?, comma.terminal_eq]

theorem feed?_paramsEnd (rpar : Sign .rpar) : (s.goto (.afterParam func before)).feed? rpar.token =
    some (s.goto (.arrow func before)) := by
  show State.heading? _ _ _ = _
  simp [State.heading?, rpar.terminal_eq]

theorem feed?_noParam (rpar : Sign .rpar) : (s.goto (.paramsOpen func)).feed? rpar.token =
    some (s.goto (.arrow func [])) := by
  show State.heading? _ _ _ = _
  simp [State.heading?, rpar.terminal_eq]

/-- The first token of parameters is a name, which both phases take as a type. -/
theorem feed?_firstParam (tag : Leaf .name) : (s.goto (.paramsOpen func)).feed? tag.token =
    (s.goto (.paramTag func [])).feed? tag.token := by
  show State.heading? _ _ _ = State.heading? _ _ _
  simp [State.heading?, tag.terminal_eq]

theorem paramList_head (list : Derivation .paramList) :
    ∃ (tag : Leaf .name) (tail : List Token), list.yield = tag.token :: tail := by
  cases list with
  | lastParam tag name => exact ⟨tag, _, rfl⟩
  | moreParams tag name comma more => exact ⟨tag, _, rfl⟩

theorem isRead_lastParam {tag name : Leaf .name} : (Derivation.lastParam tag name).IsRead := by
  intro s func before rpar rest
  simp only [Derivation.yield, List.cons_append, List.nil_append]
  rw [State.feedAll_cons_of_some (feed?_paramTag tag),
    State.feedAll_cons_of_some (feed?_paramName tag.spelled name)]
  exact State.feedAll_cons_of_some (feed?_paramsEnd rpar) rest

theorem isRead_moreParams {tag name : Leaf .name} {comma : Sign .comma}
    {list : Derivation .paramList} (h : list.IsRead) :
    (Derivation.moreParams tag name comma list).IsRead := by
  intro s func before rpar rest
  simp only [Derivation.yield, List.cons_append]
  rw [State.feedAll_cons_of_some (feed?_paramTag tag),
    State.feedAll_cons_of_some (feed?_paramName tag.spelled name),
    State.feedAll_cons_of_some (feed?_paramComma comma), h, Derivation.tree, List.reverse_cons,
    List.append_assoc]
  rfl

theorem isRead_noParam : Derivation.noParam.IsRead := by
  intro s func rpar rest
  exact State.feedAll_cons_of_some (feed?_noParam rpar) rest

theorem isRead_someParams {list : Derivation .paramList} (h : list.IsRead) :
    (Derivation.someParams list).IsRead := by
  intro s func rpar rest
  have hlist := h s func [] rpar rest
  obtain ⟨tag, tail, hyield⟩ := paramList_head list
  rw [hyield, List.cons_append] at hlist
  rw [Derivation.yield, hyield, List.cons_append, State.feedAll_cons_congr (feed?_firstParam tag), hlist,
    List.append_nil]
  rfl

theorem feed?_betweenItems (hs : s.BetweenItems) (t : Token) : s.feed? t = s.item? t := by
  rcases hs with hp | hp
  · rw [State.feed?, hp]
  · rw [State.feed?, hp]

theorem feed?_main (hs : s.BetweenItems) (word : Word .main) :
    s.feed? word.token = some (s.goto (.blockOpen .main)) := by
  rw [feed?_betweenItems hs, State.item?, word.terminal_eq]

theorem feed?_fn (hs : s.BetweenItems) (fn : Word .fn) : s.feed? fn.token = some (s.goto .funcName) := by
  rw [feed?_betweenItems hs, State.item?, fn.terminal_eq]

theorem feed?_funcName (name : Leaf .name) :
    (s.goto .funcName).feed? name.token = some (s.goto (.funcOpen name.spelled)) := by
  show State.heading? _ _ _ = _
  simp [State.heading?, name.terminal_eq, Leaf.spelled]

theorem feed?_funcOpen (lpar : Sign .lpar) :
    (s.goto (.funcOpen func)).feed? lpar.token = some (s.goto (.paramsOpen func)) := by
  show State.heading? _ _ _ = _
  simp [State.heading?, lpar.terminal_eq]

theorem feed?_arrow (arrow : Sign .arrow) : (s.goto (.arrow func before)).feed? arrow.token =
    some (s.goto (.returnTag func before)) := by
  show State.heading? _ _ _ = _
  simp [State.heading?, arrow.terminal_eq]

theorem feed?_returnTag (tag : Leaf .name) : (s.goto (.returnTag func before)).feed? tag.token =
    some (s.goto (.blockOpen (.func func before.reverse tag.spelled))) := by
  show State.heading? _ _ _ = _
  simp [State.heading?, tag.terminal_eq, Leaf.spelled]

theorem isRead_main {word : Word .main} {body : Derivation .block} (h : body.IsRead) :
    (Derivation.main word body).IsRead := by
  intro s rest hs
  rw [Derivation.yield, List.cons_append, State.feedAll_cons_of_some (feed?_main hs word), h]
  simp only [State.closeBlock?, List.reverse_reverse, Option.bind_some]
  rfl

theorem isRead_function {fn : Word .fn} {name : Leaf .name} {lpar : Sign .lpar}
    {params : Derivation .params} {rpar : Sign .rpar} {arrow : Sign .arrow} {tag : Leaf .name}
    {body : Derivation .block} (hparams : params.IsRead) (hbody : body.IsRead) :
    (Derivation.function fn name lpar params rpar arrow tag body).IsRead := by
  intro s rest hs
  simp only [Derivation.yield, List.cons_append, List.append_assoc]
  rw [State.feedAll_cons_of_some (feed?_fn hs fn), State.feedAll_cons_of_some (feed?_funcName name),
    State.feedAll_cons_of_some (feed?_funcOpen lpar), hparams,
    State.feedAll_cons_of_some (feed?_arrow arrow), State.feedAll_cons_of_some (feed?_returnTag tag),
    List.reverse_reverse, hbody]
  simp only [State.closeBlock?, List.reverse_reverse, Option.bind_some]
  rfl

theorem isRead_noItem : Derivation.noItem.IsRead := by
  intro s hs
  rfl

theorem isRead_moreItems {first : Derivation .item} {more : Derivation .program}
    (hfirst : first.IsRead) (hmore : more.IsRead) : (Derivation.moreItems first more).IsRead := by
  intro s hs
  have hnext : (s.addItem first.tree).BetweenItems := .inr rfl
  rw [Derivation.yield, hfirst s _ hs, hmore _ hnext]
  rfl

end

/-! ### Programs -/

/-- **The tokens of every derivation are read.** -/
theorem Derivation.isRead {n : Nonterminal} (d : Derivation n) : d.IsRead := by
  induction d with
  | noItem => exact isRead_noItem
  | moreItems first rest hfirst hrest => exact isRead_moreItems hfirst hrest
  | function fn name lpar params rpar arrow tag body hparams hbody =>
    exact isRead_function hparams hbody
  | main word body hbody => exact isRead_main hbody
  | noParam => exact isRead_noParam
  | someParams list hlist => exact isRead_someParams hlist
  | lastParam tag name => exact isRead_lastParam
  | moreParams tag name comma rest hrest => exact isRead_moreParams hrest
  | block lbrace body rbrace hbody => exact isRead_block hbody
  | noStatement => exact isRead_noStatement
  | moreStatements first rest hfirst hrest => exact isRead_moreStatements hfirst hrest
  | declare tag name semicolon => exact isRead_declare
  | start tag name equal value semicolon hvalue => exact isRead_start hvalue
  | assign name equal value semicolon hvalue => exact isRead_assign hvalue
  | branch word lpar condition rpar yes hcondition hyes => exact isRead_branch hcondition hyes
  | branchElse word lpar condition rpar yes other no hcondition hyes hno =>
    exact isRead_branchElse hcondition hyes hno
  | loop word lpar condition rpar body hcondition hbody => exact isRead_loop hcondition hbody
  | ret word value semicolon hvalue => exact isRead_ret hvalue
  | expr value semicolon hvalue => exact isRead_expr hvalue
  | pass notLast operand hoperand => exact isRead_pass hoperand
  | binary left sign op isOperator right hleft hright => exact isRead_binary hleft hright
  | unary sign op isOperator operand hoperand => exact isRead_unary hoperand
  | literal rule leaf => exact isRead_literal
  | call name lpar args rpar hargs => exact isRead_call hargs
  | var name => exact isRead_var
  | group lpar inner rpar hinner => exact isRead_group hinner
  | noArg => exact isRead_noArg
  | someArgs list hlist => exact isRead_someArgs hlist
  | lastArg value hvalue => exact isRead_lastArg hvalue
  | moreArgs value comma rest hvalue hrest => exact isRead_moreArgs hvalue hrest

/-- Items one after the other. -/
theorem foldl_addItem (items : List ItemTree) : ∀ s : State, s.BetweenItems →
    (items.foldl .addItem s).items = items.reverse ++ s.items ∧
      (items.foldl .addItem s).mayEnd = true := by
  induction items with
  | nil =>
    rintro s (hp | hp)
    · exact ⟨rfl, by rw [List.foldl_nil, State.mayEnd, hp]⟩
    · exact ⟨rfl, by rw [List.foldl_nil, State.mayEnd, hp]⟩
  | cons item rest ih =>
    intro s _
    obtain ⟨hitems, hend⟩ := ih (s.addItem item) (.inr rfl)
    refine ⟨?_, hend⟩
    rw [List.foldl_cons, hitems, List.reverse_cons, List.append_assoc]
    rfl

/-- The tokens of a program are read, to a state that holds their tree. -/
theorem State.feedAll_initial (d : Derivation .program) :
    ∃ s : State, State.initial.feedAll d.yield = some s ∧ s.mayEnd = true ∧
      s.items.reverse = d.tree := by
  obtain ⟨hitems, hend⟩ := foldl_addItem d.tree .initial (.inl rfl)
  refine ⟨_, d.isRead .initial (.inl rfl), hend, ?_⟩
  rw [hitems]
  simp [State.initial]

end SmallImp.Source

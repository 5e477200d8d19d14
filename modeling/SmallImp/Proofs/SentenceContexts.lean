import SmallImp.Proofs.Completion

/-!
# The contexts of a derivation

Which terminals may come next is a matter of the grammar: it depends on the last token and on the
production that the token belongs to. So a derivation tells the context that each of its tokens leaves,
without any state of reading. Reading the tokens goes through these contexts.

* `Derivation.contexts` — the contexts that the tokens of a derivation leave;
* `Passes` — tokens that are taken one after the other, with the contexts on the way;
* `Derivation.Traces` — reading the tokens of a derivation goes through its contexts;
* `Derivation.traces` — reading does so for all derivations, production by production.
-/

namespace SmallImp.Source

/-! ### Contexts -/

/-- A name leaves another context where it starts a statement, which may be a declaration or an
assignment. -/
def Context.opening : Context → Context
  | .afterName => .statementName
  | c => c

/-- The contexts that the tokens of a derivation leave, in the order of the text. -/
def Derivation.contexts : {n : Nonterminal} → Derivation n → List Context
  | _, .noItem => []
  | _, .moreItems first rest => first.contexts ++ rest.contexts
  | _, .function _ _ _ params _ _ _ body =>
    .name :: .paren :: .paramsOpen :: params.contexts ++ .arrow :: .name :: .brace :: body.contexts
  | _, .main _ body => .brace :: body.contexts
  | _, .noParam => []
  | _, .someParams list => list.contexts
  | _, .lastParam _ _ => [.name, .afterParam]
  | _, .moreParams _ _ _ rest => .name :: .afterParam :: .name :: rest.contexts
  | _, .block _ body _ => .statement :: body.contexts ++ [.afterBlock]
  | _, .noStatement => []
  | _, .moreStatements first rest => first.contexts ++ rest.contexts
  | _, .declare _ _ _ => [.statementName, .declared, .statement]
  | _, .start _ _ _ value _ => .statementName :: .declared :: .operand :: value.contexts ++ [.statement]
  | _, .assign _ _ value _ => .statementName :: .operand :: value.contexts ++ [.statement]
  | _, .branch _ _ condition _ yes =>
    .paren :: .operand :: condition.contexts ++ .brace :: yes.contexts
  | _, .branchElse _ _ condition _ yes _ no =>
    .paren :: .operand :: condition.contexts ++ .brace :: yes.contexts ++ .brace :: no.contexts
  | _, .loop _ _ condition _ body =>
    .paren :: .operand :: condition.contexts ++ .brace :: body.contexts
  | _, .ret _ value _ => .operand :: value.contexts ++ [.statement]
  | _, .expr value _ => value.contexts.modifyHead .opening ++ [.statement]
  | _, .pass _ operand => operand.contexts
  | _, .binary left _ _ _ right => left.contexts ++ .operand :: right.contexts
  | _, .unary _ _ _ operand => .operand :: operand.contexts
  | _, .literal _ _ => [.afterOperand]
  | _, .call _ _ args _ => .afterName :: .arguments :: args.contexts ++ [.afterOperand]
  | _, .var _ => [.afterName]
  | _, .group _ inner _ => .operand :: inner.contexts ++ [.afterOperand]
  | _, .noArg => []
  | _, .someArgs list => list.contexts
  | _, .lastArg value => value.contexts
  | _, .moreArgs value _ rest => value.contexts ++ .operand :: rest.contexts

/-! ### Tokens and the contexts on the way -/

/-- From a state, tokens are taken one after the other, each leaving the given context, and lead to a
state of which `P` holds. -/
inductive Passes (P : State → Prop) : State → List Token → List Context → Prop where
  | done {s : State} (h : P s) : Passes P s [] []
  | more {s s' : State} {t : Token} {tokens : List Token} {contexts : List Context}
      (feed : s.feed? t = some s') (rest : Passes P s' tokens contexts) :
      Passes P s (t :: tokens) (s'.context :: contexts)

namespace Passes

variable {P Q : State → Prop} {s s' : State} {t : Token} {tokens tokens' : List Token} {c : Context}
  {contexts contexts' : List Context}

theorem next (feed : s.feed? t = some s') (hc : s'.context = c) (rest : Passes P s' tokens contexts) :
    Passes P s (t :: tokens) (c :: contexts) := hc ▸ .more feed rest

theorem append (h : Passes P s tokens contexts)
    (h' : ∀ s', P s' → Passes Q s' tokens' contexts') :
    Passes Q s (tokens ++ tokens') (contexts ++ contexts') := by
  induction h with
  | done h => exact h' _ h
  | more feed rest ih => exact .more feed ih

theorem mono (h : Passes P s tokens contexts) (hPQ : ∀ s', P s' → Q s') :
    Passes Q s tokens contexts := by
  induction h with
  | done h => exact .done (hPQ _ h)
  | more feed rest ih => exact .more feed ih

/-- States that take a token alike. -/
theorem congr (h : Passes P s (t :: tokens) contexts) (heq : s'.feed? t = s.feed? t) :
    Passes P s' (t :: tokens) contexts := by
  cases h with
  | more feed rest => exact .more (heq.trans feed) rest

theorem tail (h : Passes P s (t :: tokens) (c :: contexts)) (feed : s.feed? t = some s') :
    s'.context = c ∧ Passes P s' tokens contexts := by
  cases h with
  | more feed' rest =>
    obtain rfl := Option.some.inj (feed'.symm.trans feed)
    exact ⟨rfl, rest⟩

/-- Tokens determine the contexts on the way. -/
theorem unique (h : Passes P s tokens contexts) (h' : Passes Q s tokens contexts') :
    contexts = contexts' := by
  induction h generalizing contexts' with
  | done _ =>
    cases h'
    rfl
  | more feed rest ih =>
    cases h' with
    | more feed' rest' =>
      obtain rfl := Option.some.inj (feed.symm.trans feed')
      rw [ih rest']

end Passes

/-- After an operand of an expression with the given open brackets and the given purpose. -/
inductive State.Ends (s : State) (levels : List Level) (goal : Goal) : State → Prop where
  | name (name : String) (pending : List Pending) :
      Ends s levels goal (s.goto (.afterName name ⟨pending, levels, goal⟩))
  | operand (value : ExprTree) (pending : List Pending) :
      Ends s levels goal (s.goto (.afterOperand value ⟨pending, levels, goal⟩))

/-- Reading the tokens of a derivation goes through its contexts. -/
def Derivation.Traces : {n : Nonterminal} → Derivation n → Prop
  | .program, d => ∀ s : State, s.BetweenItems → Passes State.BetweenItems s d.yield d.contexts
  | .item, d => ∀ s : State, s.BetweenItems → Passes State.BetweenItems s d.yield d.contexts
  | .params, d => ∀ (s : State) name (rpar : Sign .rpar),
      Passes (fun s' => ∃ params, s' = s.goto (.arrow name params)) (s.goto (.paramsOpen name))
        (d.yield ++ [rpar.token]) (d.contexts ++ [.arrow])
  | .paramList, d => ∀ (s : State) name before (rpar : Sign .rpar),
      Passes (fun s' => ∃ params, s' = s.goto (.arrow name params)) (s.goto (.paramTag name before))
        (d.yield ++ [rpar.token]) (d.contexts ++ [.arrow])
  | .block, d => ∀ (s : State) owner, Passes (fun s' => s'.owners = s.owners ∧ owner.Closed s')
      (s.goto (.blockOpen owner)) d.yield d.contexts
  | .statements, d => ∀ s : State, s.AtStatement →
      Passes (fun s' => s'.owners = s.owners ∧ s'.AtStatement) s d.yield d.contexts
  | .statement, d => ∀ s : State, Passes (fun s' => s'.owners = s.owners ∧ s'.AtStatement)
      (s.goto .statement) d.yield d.contexts
  | .layer _, d => ∀ (s : State) pending levels goal, Passes (s.Ends levels goal)
      (s.goto (.operand ⟨pending, levels, goal⟩)) d.yield d.contexts
  | .args, d => ∀ (s : State) name pending levels goal (rpar : Sign .rpar),
      Passes (s.Ends levels goal) (s.goto (.arguments ⟨[], ⟨.call name [], pending⟩ :: levels, goal⟩))
        (d.yield ++ [rpar.token]) (d.contexts ++ [.afterOperand])
  | .argList, d => ∀ (s : State) name args pending levels goal (rpar : Sign .rpar),
      Passes (s.Ends levels goal) (s.goto (.operand ⟨[], ⟨.call name args, pending⟩ :: levels, goal⟩))
        (d.yield ++ [rpar.token]) (d.contexts ++ [.afterOperand])

/-! ### Productions of expressions -/

namespace State.Ends

variable {s s' : State} {levels : List Level} {goal : Goal}

theorem feed? (h : s.Ends levels goal s') {t : Token} (ht : t.terminal ≠ .symbol .lpar) :
    ∃ value pending, s'.feed? t = s.afterOperand? value ⟨pending, levels, goal⟩ t := by
  cases h with
  | name name pending =>
    refine ⟨.var name, pending, ?_⟩
    rw [feed?_afterName, afterName?]
    split
    next hlpar => exact absurd hlpar ht
    next => rfl
  | operand value pending => exact ⟨value, pending, feed?_afterOperand ..⟩

/-- A separator or a closing parenthesis. -/
theorem feed?_sign (h : s.Ends levels goal s') {k : Symbol}
    (hk : k = .rpar ∨ k = .comma ∨ k = .semicolon) (sign : Sign k) :
    ∃ value pending, s'.feed? sign.token =
      s.closeOperand? value ⟨pending, levels, goal⟩ (.symbol k) := by
  have hends : EndsOperand .primary sign.token := .sign hk sign
  obtain ⟨value, pending, hfeed⟩ := h.feed? hends.noCall
  have hop : (Terminal.symbol k).binaryOp? = none := by rcases hk with rfl | rfl | rfl <;> rfl
  refine ⟨close value pending, pending, ?_⟩
  rw [hfeed, afterOperand?, sign.terminal_eq, hop]

end State.Ends

theorem traces_binary {l : Layer} {left : Derivation (.layer l)} {sign : Token} {op : BinaryOp}
    {isOperator : (sign.terminal, op) ∈ l.operators} {right : Derivation (.layer l.tighter)}
    (hleft : left.Traces) (hright : right.Traces) :
    (Derivation.binary left sign op isOperator right).Traces := by
  intro s pending levels goal
  refine (hleft s pending levels goal).append fun s' hs' => ?_
  have hends : EndsOperand l sign := .operator isOperator
  obtain ⟨value, pending', hfeed⟩ := hs'.feed? hends.noCall
  rw [State.afterOperand?, Terminal.binaryOp?_of_operator isOperator] at hfeed
  exact .next hfeed rfl (hright s _ levels goal)

theorem traces_unary {sign : Token} {op : UnaryOp}
    {isOperator : (sign.terminal, op) ∈ unaryOperators} {operand : Derivation (.layer .unary)}
    (h : operand.Traces) : (Derivation.unary sign op isOperator operand).Traces := by
  intro s pending levels goal
  exact .next (feed?_unaryOperator s _ isOperator) rfl (h s _ levels goal)

theorem traces_literal {rule : LiteralRule} {leaf : Leaf rule.terminal} :
    (Derivation.literal rule leaf).Traces := by
  intro s pending levels goal
  exact .next (feed?_literal s _ leaf) rfl (.done (.operand _ pending))

theorem traces_var {name : Leaf .name} : (Derivation.var name).Traces := by
  intro s pending levels goal
  exact .next (feed?_name s _ name) rfl (.done (.name _ pending))

theorem traces_group {lpar : Sign .lpar} {inner : Derivation .expression} {rpar : Sign .rpar}
    (h : inner.Traces) : (Derivation.group lpar inner rpar).Traces := by
  intro s pending levels goal
  refine .next (feed?_group s _ lpar) rfl ((h s [] _ goal).append fun s' hs' => ?_)
  obtain ⟨value, _, hfeed⟩ := hs'.feed?_sign (.inl rfl) rpar
  exact .next hfeed rfl (.done (.operand value pending))

theorem traces_call {name : Leaf .name} {lpar : Sign .lpar} {args : Derivation .args}
    {rpar : Sign .rpar} (h : args.Traces) : (Derivation.call name lpar args rpar).Traces := by
  intro s pending levels goal
  exact .next (feed?_name s _ name) rfl
    (.next (feed?_call s _ name.spelled lpar) rfl (h s name.spelled pending levels goal rpar))

theorem traces_noArg : Derivation.noArg.Traces := by
  intro s name pending levels goal rpar
  exact .next (feed?_noArg s ⟨pending, levels, goal⟩ name rpar) rfl (.done (.operand _ pending))

theorem traces_someArgs {list : Derivation .argList} (h : list.Traces) :
    (Derivation.someArgs list).Traces := by
  intro s name pending levels goal rpar
  obtain ⟨t, tail, hyield, ht⟩ := argList_head list
  have hlist := h s name [] pending levels goal rpar
  rw [hyield] at hlist
  rw [Derivation.yield, hyield]
  exact hlist.congr (feed?_firstArg s _ ht)

theorem traces_lastArg {value : Derivation .expression} (h : value.Traces) :
    (Derivation.lastArg value).Traces := by
  intro s name args pending levels goal rpar
  refine (h s [] _ goal).append fun s' hs' => ?_
  obtain ⟨value, _, hfeed⟩ := hs'.feed?_sign (.inl rfl) rpar
  exact .next hfeed rfl (.done (.operand _ pending))

theorem traces_moreArgs {value : Derivation .expression} {comma : Sign .comma}
    {list : Derivation .argList} (h : value.Traces) (hlist : list.Traces) :
    (Derivation.moreArgs value comma list).Traces := by
  intro s name args pending levels goal rpar
  rw [Derivation.yield, Derivation.contexts, List.append_assoc, List.append_assoc]
  refine (h s [] _ goal).append fun s' hs' => ?_
  obtain ⟨value, _, hfeed⟩ := hs'.feed?_sign (.inr (.inl rfl)) comma
  exact .next hfeed rfl (hlist s name (value :: args) pending levels goal rpar)

/-! ### Productions of statements -/

section

variable {s : State} {P : State → Prop}

/-- A whole expression, with the token that ends it and uses it for what it was read for. -/
theorem passes_finish {value : Derivation .expression} (h : value.Traces) {k : Symbol}
    (hk : k = .rpar ∨ k = .comma ∨ k = .semicolon) (sign : Sign k) {goal : Goal} {c : Context}
    {tokens : List Token} {contexts : List Context}
    (hfinish : ∀ v, ∃ s', s.finish? v goal (.symbol k) = some s' ∧ s'.context = c ∧
      Passes P s' tokens contexts) :
    Passes P (s.goto (.operand (.new goal))) (value.yield ++ sign.token :: tokens)
      (value.contexts ++ c :: contexts) := by
  refine (h s [] [] goal).append fun s' hs' => ?_
  obtain ⟨v, _, hfeed⟩ := hs'.feed?_sign hk sign
  obtain ⟨s'', hs'', hc, hrest⟩ := hfinish v
  exact .next (hfeed.trans hs'') hc hrest

/-- A statement that ends with a semicolon. -/
theorem passes_endStmt (stmt : StmtTree) :
    Passes (fun s' => s'.owners = s.owners ∧ s'.AtStatement) (s.endStmt stmt) [] [] :=
  .done ⟨State.owners_endStmt s stmt, .inl rfl⟩

theorem traces_declare {tag name : Leaf .name} {semicolon : Sign .semicolon} :
    (Derivation.declare tag name semicolon).Traces := by
  intro s
  exact .next (feed?_statementName tag) rfl (.next (feed?_declared tag name) rfl
    (.next (feed?_declaration _ _ semicolon) rfl (passes_endStmt _)))

theorem traces_start {tag name : Leaf .name} {equal : Sign .equal} {value : Derivation .expression}
    {semicolon : Sign .semicolon} (h : value.Traces) :
    (Derivation.start tag name equal value semicolon).Traces := by
  intro s
  refine .next (feed?_statementName tag) rfl (.next (feed?_declared tag name) rfl
    (.next (feed?_startValue _ _ equal) rfl ?_))
  exact passes_finish h (.inr (.inr rfl)) semicolon fun v => ⟨_, rfl, rfl, passes_endStmt _⟩

theorem traces_assign {name : Leaf .name} {equal : Sign .equal} {value : Derivation .expression}
    {semicolon : Sign .semicolon} (h : value.Traces) :
    (Derivation.assign name equal value semicolon).Traces := by
  intro s
  refine .next (feed?_statementName name) rfl (.next (feed?_assignment _ equal) rfl ?_)
  exact passes_finish h (.inr (.inr rfl)) semicolon fun v => ⟨_, rfl, rfl, passes_endStmt _⟩

theorem traces_ret {word : Word .return} {value : Derivation .expression}
    {semicolon : Sign .semicolon} (h : value.Traces) :
    (Derivation.ret word value semicolon).Traces := by
  intro s
  refine .next (feed?_return word) rfl ?_
  exact passes_finish h (.inr (.inr rfl)) semicolon fun v => ⟨_, rfl, rfl, passes_endStmt _⟩

/-- A token that starts an expression leaves the context after a name only if it is a name. -/
theorem opening_context {e : Expression} {t : Token} {s' : State} (hname : t.terminal ≠ .name)
    (h : (s.goto (.operand e)).feed? t = some s') : s'.context.opening = s'.context := by
  rw [State.feed?_operand, State.operand?] at h
  split at h
  next hk => exact absurd hk hname
  next =>
    cases h
    rfl
  next =>
    cases h
    rfl
  next =>
    cases h
    rfl
  next =>
    split at h
    next =>
      cases h
      rfl
    next => cases h

theorem traces_expr {value : Derivation .expression} {semicolon : Sign .semicolon}
    (h : value.Traces) : (Derivation.expr value semicolon).Traces := by
  intro s
  have hall : Passes (fun s' => s'.owners = s.owners ∧ s'.AtStatement)
      (s.goto (.operand (.new .statement))) (value.yield ++ [semicolon.token])
      (value.contexts ++ [.statement]) :=
    passes_finish h (.inr (.inr rfl)) semicolon fun v => ⟨_, rfl, rfl, passes_endStmt _⟩
  have hvalue := h s [] [] .statement
  obtain ⟨t, tail, hyield, ht⟩ := layer_head value
  have hrow : value.yield ++ [semicolon.token] = t :: (tail ++ [semicolon.token]) := by rw [hyield]; rfl
  rw [Derivation.yield, Derivation.contexts, hrow]
  rw [hrow] at hall
  rw [hyield] at hvalue
  generalize value.contexts = contexts at hall hvalue ⊢
  cases hvalue with
  | @more _ s' _ _ contexts feed _ =>
    obtain ⟨-, hrest⟩ := hall.tail feed
    by_cases hname : t.terminal = .name
    · obtain rfl := Option.some.inj ((feed?_name s _ ⟨t, hname⟩).symm.trans feed)
      refine .next (feed?_statementName ⟨t, hname⟩) rfl ?_
      obtain ⟨t', tail', htail⟩ := List.exists_cons_of_ne_nil
        (List.append_ne_nil_of_right_ne_nil tail (List.cons_ne_nil semicolon.token []))
      rw [htail] at hrow hrest ⊢
      obtain ⟨hnotName, hnotEqual⟩ := expression_next hname hrow
      exact hrest.congr (feed?_afterStatementName _ hnotName hnotEqual)
    · exact .next ((feed?_statementOperand ht hname).trans feed) (opening_context hname feed).symm hrest

theorem traces_branch {word : Word .if} {lpar : Sign .lpar} {condition : Derivation .expression}
    {rpar : Sign .rpar} {yes : Derivation .block} (hcondition : condition.Traces)
    (hyes : yes.Traces) : (Derivation.branch word lpar condition rpar yes).Traces := by
  intro s
  refine .next (feed?_if word) rfl (.next (feed?_condition .branch lpar) rfl ?_)
  refine passes_finish hcondition (.inl rfl) rpar fun v => ⟨_, rfl, rfl, ?_⟩
  exact (hyes s (.yes v)).mono fun s' hs' => ⟨hs'.1, hs'.2.atStatement rfl⟩

theorem traces_branchElse {word : Word .if} {lpar : Sign .lpar}
    {condition : Derivation .expression} {rpar : Sign .rpar} {yes : Derivation .block}
    {other : Word .else} {no : Derivation .block} (hcondition : condition.Traces)
    (hyes : yes.Traces) (hno : no.Traces) :
    (Derivation.branchElse word lpar condition rpar yes other no).Traces := by
  intro s
  simp only [Derivation.yield, Derivation.contexts, List.cons_append, List.append_assoc]
  refine .next (feed?_if word) rfl (.next (feed?_condition .branch lpar) rfl ?_)
  refine passes_finish hcondition (.inl rfl) rpar fun v => ⟨_, rfl, rfl, ?_⟩
  refine (hyes s (.yes v)).append fun s' hs' => ?_
  obtain ⟨howners, branch, hphase⟩ := hs'
  have helse : s'.feed? other.token = some (s'.goto (.blockOpen (.no branch.1 branch.2))) := by
    have hbranch := feed?_else (s := s') branch.1 branch.2 other
    rwa [State.goto_of_phase hphase] at hbranch
  refine .next helse rfl ((hno s' _).mono fun s'' hs'' => ?_)
  exact ⟨hs''.1.trans howners, hs''.2.atStatement rfl⟩

theorem traces_loop {word : Word .while} {lpar : Sign .lpar} {condition : Derivation .expression}
    {rpar : Sign .rpar} {body : Derivation .block} (hcondition : condition.Traces)
    (hbody : body.Traces) : (Derivation.loop word lpar condition rpar body).Traces := by
  intro s
  refine .next (feed?_while word) rfl (.next (feed?_condition .loop lpar) rfl ?_)
  refine passes_finish hcondition (.inl rfl) rpar fun v => ⟨_, rfl, rfl, ?_⟩
  exact (hbody s (.body v)).mono fun s' hs' => ⟨hs'.1, hs'.2.atStatement rfl⟩

theorem traces_noStatement : Derivation.noStatement.Traces := by
  intro s hs
  exact .done ⟨rfl, hs⟩

theorem traces_moreStatements {first : Derivation .statement} {more : Derivation .statements}
    (hfirst : first.Traces) (hmore : more.Traces) :
    (Derivation.moreStatements first more).Traces := by
  intro s hs
  obtain ⟨s₀, howners, hfeed⟩ := hs.feed?
  obtain ⟨t, rest, hyield, -, helse⟩ := statement_head first
  have hstart : Passes (fun s' => s'.owners = s₀.owners ∧ s'.AtStatement) s first.yield
      first.contexts := by
    have hfirst := hfirst s₀
    rw [hyield] at hfirst ⊢
    exact hfirst.congr (hfeed t helse)
  refine hstart.append fun s' hs' => (hmore s' hs'.2).mono fun s'' hs'' => ?_
  exact ⟨hs''.1.trans (hs'.1.trans howners), hs''.2⟩

/-- The brace of a block leaves the same context whatever the block is part of. -/
theorem Owner.Closed.context {owner : Owner} (h : owner.Closed s) : s.context = .afterBlock := by
  have hphase : s.phase = .afterItem ∨ ∃ branch, s.phase = .afterBlock branch := by
    cases owner with
    | func name params returnTag => exact .inl h
    | main => exact .inl h
    | yes condition =>
      obtain ⟨branch, hphase⟩ := h
      exact .inr ⟨some branch, hphase⟩
    | no condition yes => exact .inr ⟨none, h⟩
    | body condition => exact .inr ⟨none, h⟩
  rcases hphase with hphase | ⟨branch, hphase⟩
  · rw [State.context, hphase]
  · rw [State.context, hphase]

theorem traces_block {lbrace : Sign .lbrace} {body : Derivation .statements} {rbrace : Sign .rbrace}
    (h : body.Traces) : (Derivation.block lbrace body rbrace).Traces := by
  intro s owner
  refine .next (feed?_lbrace owner lbrace) rfl ?_
  refine (h (s.openBlock owner) (.inl rfl)).append fun s' hs' => ?_
  obtain ⟨t, hfeed, howners, hclosed⟩ := hs'.2.feed?_rbrace hs'.1 rbrace
  exact .next hfeed hclosed.context (.done ⟨howners, hclosed⟩)

end

/-! ### Productions of functions and programs -/

theorem traces_noParam : Derivation.noParam.Traces := by
  intro s name rpar
  exact .next (feed?_noParam rpar) rfl (.done ⟨[], rfl⟩)

theorem traces_someParams {list : Derivation .paramList} (h : list.Traces) :
    (Derivation.someParams list).Traces := by
  intro s name rpar
  have hlist := h s name [] rpar
  obtain ⟨tag, tail, hyield⟩ := paramList_head list
  rw [hyield] at hlist
  rw [Derivation.yield, hyield]
  exact hlist.congr (feed?_firstParam tag)

theorem traces_lastParam {tag name : Leaf .name} : (Derivation.lastParam tag name).Traces := by
  intro s func before rpar
  exact .next (feed?_paramTag tag) rfl (.next (feed?_paramName _ name) rfl
    (.next (feed?_paramsEnd rpar) rfl (.done ⟨_, rfl⟩)))

theorem traces_moreParams {tag name : Leaf .name} {comma : Sign .comma}
    {list : Derivation .paramList} (h : list.Traces) :
    (Derivation.moreParams tag name comma list).Traces := by
  intro s func before rpar
  exact .next (feed?_paramTag tag) rfl (.next (feed?_paramName _ name) rfl
    (.next (feed?_paramComma comma) rfl (h s func _ rpar)))

theorem traces_main {word : Word .main} {body : Derivation .block} (h : body.Traces) :
    (Derivation.main word body).Traces := by
  intro s hs
  refine .next (feed?_main hs word) rfl ((h s .main).mono fun s' hs' => ?_)
  exact hs'.2.betweenItems rfl

theorem traces_function {fn : Word .fn} {name : Leaf .name} {lpar : Sign .lpar}
    {params : Derivation .params} {rpar : Sign .rpar} {arrow : Sign .arrow} {tag : Leaf .name}
    {body : Derivation .block} (hparams : params.Traces) (hbody : body.Traces) :
    (Derivation.function fn name lpar params rpar arrow tag body).Traces := by
  intro s hs
  refine .next (feed?_fn hs fn) rfl (.next (feed?_funcName name) rfl
    (.next (feed?_funcOpen lpar) rfl ?_))
  have hrest : ∀ s', (∃ before, s' = s.goto (.arrow name.spelled before)) →
      Passes State.BetweenItems s' (arrow.token :: tag.token :: body.yield)
        (.name :: .brace :: body.contexts) := by
    rintro _ ⟨before, rfl⟩
    refine .next (feed?_arrow arrow) rfl (.next (feed?_returnTag tag) rfl ?_)
    exact (hbody s _).mono fun s' hs' => hs'.2.betweenItems rfl
  simpa using (hparams s name.spelled rpar).append hrest

theorem traces_moreItems {first : Derivation .item} {more : Derivation .program}
    (hfirst : first.Traces) (hmore : more.Traces) : (Derivation.moreItems first more).Traces := by
  intro s hs
  exact (hfirst s hs).append fun s' hs' => hmore s' hs'

/-! ### Derivations -/

/-- **Reading the tokens of a derivation goes through its contexts.** -/
theorem Derivation.traces {n : Nonterminal} (d : Derivation n) : d.Traces := by
  induction d with
  | noItem => exact fun s hs => .done hs
  | moreItems first rest hfirst hrest => exact traces_moreItems hfirst hrest
  | function fn name lpar params rpar arrow tag body hparams hbody =>
    exact traces_function hparams hbody
  | main word body hbody => exact traces_main hbody
  | noParam => exact traces_noParam
  | someParams list hlist => exact traces_someParams hlist
  | lastParam tag name => exact traces_lastParam
  | moreParams tag name comma rest hrest => exact traces_moreParams hrest
  | block lbrace body rbrace hbody => exact traces_block hbody
  | noStatement => exact traces_noStatement
  | moreStatements first rest hfirst hrest => exact traces_moreStatements hfirst hrest
  | declare tag name semicolon => exact traces_declare
  | start tag name equal value semicolon hvalue => exact traces_start hvalue
  | assign name equal value semicolon hvalue => exact traces_assign hvalue
  | branch word lpar condition rpar yes hcondition hyes => exact traces_branch hcondition hyes
  | branchElse word lpar condition rpar yes other no hcondition hyes hno =>
    exact traces_branchElse hcondition hyes hno
  | loop word lpar condition rpar body hcondition hbody => exact traces_loop hcondition hbody
  | ret word value semicolon hvalue => exact traces_ret hvalue
  | expr value semicolon hvalue => exact traces_expr hvalue
  | pass notLast operand hoperand => exact hoperand
  | binary left sign op isOperator right hleft hright => exact traces_binary hleft hright
  | unary sign op isOperator operand hoperand => exact traces_unary hoperand
  | literal token isLiteral => exact traces_literal
  | call name lpar args rpar hargs => exact traces_call hargs
  | var name => exact traces_var
  | group lpar inner rpar hinner => exact traces_group hinner
  | noArg => exact traces_noArg
  | someArgs list hlist => exact traces_someArgs hlist
  | lastArg value hvalue => exact traces_lastArg hvalue
  | moreArgs value comma rest hvalue hrest => exact traces_moreArgs hvalue hrest

end SmallImp.Source

import SmallImp.Proofs.PrintParse

/-!
# Every reading state can be completed

Whatever has been read, some tokens lead on to a place where the text may end: an expression is closed
with a literal and the brackets it lacks, a statement with its semicolon, a block with its brace, and
the heading of a function with what it lacks.

* `Completable` — tokens that lead to the end of a text;
* `Placed`, `State.owners` — the owners of the open blocks, the outermost of which is an item;
* `Owner.Closed` — where reading goes on after the brace of a block;
* `State.Holds.completable` — every state that reading comes to can be completed.
-/

namespace SmallImp.Source

section

variable [Host]

/-- Some tokens that can be written down lead to a place where the text may end. -/
def Completable (s : State) : Prop := ∃ (xs : List Piece) (s' : State), (∀ x ∈ xs, x.Fits) ∧
  s.feedAll (xs.map (·.token .start)) = some s' ∧ s'.mayEnd = true

/-- A name to go on with. -/
def sampleName : Piece := ⟨.name, ['x']⟩

/-- A number to go on with. -/
def sampleNumber : Piece := ⟨.int, ['0']⟩

theorem sampleName_fits : sampleName.Fits := by
  refine ⟨.mk (by decide) (by simp), ?_, fun p => rfl⟩
  intro _
  rfl

theorem sampleNumber_fits : sampleNumber.Fits := by
  refine ⟨⟨by simp [sampleNumber], ?_⟩, ?_, fun p => rfl⟩
  · exact List.all_eq_true.mp (by decide)
  · intro h
    cases h

namespace Completable

variable {s t : State}

theorem of_mayEnd (h : s.mayEnd = true) : Completable s := ⟨[], s, by simp, rfl, h⟩

theorem of_feed? {x : Piece} (hx : x.Fits) (h : s.feed? (x.token .start) = some t)
    (ht : Completable t) : Completable s := by
  obtain ⟨xs, s', hfits, hfeed, hend⟩ := ht
  refine ⟨x :: xs, s', List.forall_mem_cons.mpr ⟨hx, hfits⟩, ?_, hend⟩
  rw [List.map_cons, State.feedAll_cons_of_some h, hfeed]

end Completable

end

/-! ### Blocks -/

/-- The owners of open blocks, the innermost first: the outermost is an item, the others are not. -/
inductive Placed : List Owner → Prop where
  | item {owner : Owner} (isItem : owner.isItem = true) : Placed [owner]
  | inner {owner : Owner} {owners : List Owner} (isInner : owner.isItem = false)
      (outer : Placed owners) : Placed (owner :: owners)

namespace State

/-- The owners of the open blocks. -/
def owners (s : State) : List Owner := s.blocks.map (·.owner)

@[simp] theorem owners_goto (s : State) (phase : Phase) : (s.goto phase).owners = s.owners := rfl

@[simp] theorem owners_addStmt (s : State) (stmt : StmtTree) : (s.addStmt stmt).owners = s.owners := by
  obtain ⟨phase, blocks, items⟩ := s
  cases blocks <;> rfl

@[simp] theorem owners_endStmt (s : State) (stmt : StmtTree) : (s.endStmt stmt).owners = s.owners :=
  owners_addStmt s stmt

theorem goto_of_phase {s : State} {phase : Phase} (h : s.phase = phase) : s.goto phase = s := by
  rw [← h]
  rfl

/-- At the start of a statement. -/
def AtStatement (s : State) : Prop := s.phase = .statement ∨ ∃ branch, s.phase = .afterBlock branch

/-- After a block inside a block, a token other than `else` is taken as at the start of a statement. -/
theorem AtStatement.feed? {s : State} (h : s.AtStatement) : ∃ t : State, t.owners = s.owners ∧
    ∀ token : Token, token.terminal ≠ .keyword .else → s.feed? token = (t.goto .statement).feed? token := by
  rcases h with hphase | ⟨branch, hphase⟩
  · exact ⟨s, rfl, fun _ _ => by rw [goto_of_phase hphase]⟩
  · cases branch with
    | none =>
      refine ⟨s, rfl, fun token _ => ?_⟩
      rw [← feed?_afterBlock, goto_of_phase hphase]
    | some b =>
      refine ⟨s.addStmt (.branch b.1 b.2), owners_addStmt .., fun token htoken => ?_⟩
      have hbranch : (s.goto (.afterBlock (some b))).feed? token = _ :=
        feed?_afterBranch b.1 b.2 htoken
      rwa [goto_of_phase hphase] at hbranch

end State

/-- What the brace that closes the block of an owner leads to. -/
def Owner.Closed (s : State) : Owner → Prop
  | .func _ _ _ => s.phase = .afterItem
  | .main => s.phase = .afterItem
  | .yes _ => ∃ branch, s.phase = .afterBlock (some branch)
  | .no _ _ => s.phase = .afterBlock none
  | .body _ => s.phase = .afterBlock none

namespace Owner.Closed

variable {s : State} {owner : Owner}

theorem betweenItems (h : owner.Closed s) (hitem : owner.isItem = true) : s.BetweenItems := by
  cases owner with
  | func name params returnTag => exact .inr h
  | main => exact .inr h
  | _ => cases hitem

theorem atStatement (h : owner.Closed s) (hinner : owner.isItem = false) : s.AtStatement := by
  cases owner with
  | func name params returnTag => cases hinner
  | main => cases hinner
  | yes condition =>
    obtain ⟨branch, hphase⟩ := h
    exact .inr ⟨_, hphase⟩
  | no condition yes => exact .inr ⟨_, h⟩
  | body condition => exact .inr ⟨_, h⟩

end Owner.Closed

namespace State

theorem closeBlock?_owners {s : State} {owner : Owner} {owners : List Owner}
    (h : s.owners = owner :: owners) :
    ∃ t : State, s.closeBlock? = some t ∧ t.owners = owners ∧ owner.Closed t := by
  obtain ⟨phase, blocks, items⟩ := s
  cases blocks with
  | nil => cases h
  | cons block blocks =>
    obtain ⟨owner', body⟩ := block
    obtain ⟨rfl, rfl⟩ := List.cons.inj h
    cases owner' with
    | func name params returnTag => exact ⟨_, rfl, rfl, rfl⟩
    | main => exact ⟨_, rfl, rfl, rfl⟩
    | yes condition => exact ⟨_, rfl, rfl, _, rfl⟩
    | no condition yes => exact ⟨_, rfl, owners_addStmt .., rfl⟩
    | body condition => exact ⟨_, rfl, owners_addStmt .., rfl⟩

/-- A brace closes the innermost block. -/
theorem AtStatement.feed?_rbrace {s : State} (h : s.AtStatement) {owner : Owner}
    {owners : List Owner} (howners : s.owners = owner :: owners) (rbrace : Sign .rbrace) :
    ∃ t : State, s.feed? rbrace.token = some t ∧ t.owners = owners ∧ owner.Closed t := by
  obtain ⟨t, ht, hfeed⟩ := h.feed?
  obtain ⟨t', hclose, hclosed⟩ := closeBlock?_owners (ht.trans howners)
  refine ⟨t', ?_, hclosed⟩
  rw [hfeed rbrace.token (by rw [rbrace.terminal_eq]; decide), feed?_statement, statement?,
    rbrace.terminal_eq, hclose]

theorem BetweenItems.mayEnd {s : State} (h : s.BetweenItems) : s.mayEnd = true := by
  rcases h with hphase | hphase
  · rw [State.mayEnd, hphase]
  · rw [State.mayEnd, hphase]

end State

namespace Completable

variable [Host]

/-- Open blocks are closed one after the other. -/
theorem atStatement {owners : List Owner} (h : Placed owners) : ∀ {s : State}, s.owners = owners →
    s.AtStatement → Completable s := by
  have hrbrace : ((sign .rbrace).token .start).terminal = .symbol .rbrace := rfl
  induction h with
  | item isItem =>
    intro s howners hs
    obtain ⟨t, hfeed, -, hclosed⟩ := hs.feed?_rbrace howners ⟨_, hrbrace⟩
    exact of_feed? (sign_fits .rbrace) hfeed (of_mayEnd (hclosed.betweenItems isItem).mayEnd)
  | inner isInner _ ih =>
    intro s howners hs
    obtain ⟨t, hfeed, howners', hclosed⟩ := hs.feed?_rbrace howners ⟨_, hrbrace⟩
    exact of_feed? (sign_fits .rbrace) hfeed (ih howners' (hclosed.atStatement isInner))

variable {s : State}

theorem blockOpen {owner : Owner} (h : Placed (owner :: s.owners)) :
    Completable (s.goto (.blockOpen owner)) :=
  of_feed? (sign_fits .lbrace) rfl (atStatement h rfl (.inl rfl))

/-! ### Expressions -/

theorem endStmt (h : Placed s.owners) (phase : Phase) (stmt : StmtTree) :
    Completable ((s.goto phase).endStmt stmt) :=
  atStatement h (State.owners_endStmt ..) (.inl rfl)

/-- A complete expression is used for what it was read for. -/
theorem finished (h : Placed s.owners) (value : ExprTree) (e : Expression) (hlevels : e.levels = []) :
    Completable (s.goto (.afterOperand value e)) := by
  obtain ⟨pending, levels, goal⟩ := e
  obtain rfl : levels = [] := hlevels
  cases goal with
  | condition of =>
    cases of with
    | branch => exact of_feed? (sign_fits .rpar) rfl (blockOpen (.inner rfl h))
    | loop => exact of_feed? (sign_fits .rpar) rfl (blockOpen (.inner rfl h))
  | start tag name => exact of_feed? (sign_fits .semicolon) rfl (endStmt h _ _)
  | assign name => exact of_feed? (sign_fits .semicolon) rfl (endStmt h _ _)
  | ret => exact of_feed? (sign_fits .semicolon) rfl (endStmt h _ _)
  | statement => exact of_feed? (sign_fits .semicolon) rfl (endStmt h _ _)

/-- The open parentheses are closed one after the other. -/
theorem afterOperand (h : Placed s.owners) (levels : List Level) : ∀ (value : ExprTree)
    (pending : List Pending) (goal : Goal),
    Completable (s.goto (.afterOperand value ⟨pending, levels, goal⟩)) := by
  induction levels with
  | nil =>
    intro value pending goal
    exact finished h value _ rfl
  | cons level levels ih =>
    intro value pending goal
    obtain ⟨bracket, outer⟩ := level
    cases bracket with
    | group => exact of_feed? (sign_fits .rpar) rfl (ih _ outer goal)
    | call name args => exact of_feed? (sign_fits .rpar) rfl (ih _ outer goal)

theorem operand (h : Placed s.owners) (e : Expression) : Completable (s.goto (.operand e)) :=
  of_feed? sampleNumber_fits rfl (afterOperand h e.levels _ e.pending e.goal)

theorem arguments (h : Placed s.owners) (e : Expression) : Completable (s.goto (.arguments e)) :=
  of_feed? sampleNumber_fits rfl (afterOperand h e.levels _ e.pending e.goal)

theorem afterName (h : Placed s.owners) (name : String) (e : Expression) :
    Completable (s.goto (.afterName name e)) :=
  of_feed? (sign_fits .plus) rfl (operand h _)

/-! ### Statements and items -/

theorem statementName (h : Placed s.owners) (name : String) :
    Completable (s.goto (.statementName name)) :=
  of_feed? (sign_fits .equal) rfl (operand h _)

theorem declared (h : Placed s.owners) (tag : String) (name : String) :
    Completable (s.goto (.declared tag name)) :=
  of_feed? (sign_fits .semicolon) rfl (endStmt h _ _)

theorem conditionOpen (h : Placed s.owners) (of : Conditional) :
    Completable (s.goto (.conditionOpen of)) :=
  of_feed? (sign_fits .lpar) rfl (operand h _)

theorem returnTag (h : s.owners = []) (name : String) (params : List ParamTree) :
    Completable (s.goto (.returnTag name params)) := by
  refine of_feed? sampleName_fits rfl (blockOpen ?_)
  rw [State.owners_goto, h]
  exact .item rfl

theorem arrow (h : s.owners = []) (name : String) (params : List ParamTree) :
    Completable (s.goto (.arrow name params)) :=
  of_feed? (sign_fits .arrow) rfl (returnTag h name params)

theorem afterParam (h : s.owners = []) (name : String) (params : List ParamTree) :
    Completable (s.goto (.afterParam name params)) :=
  of_feed? (sign_fits .rpar) rfl (arrow h name params)

theorem paramName (h : s.owners = []) (name : String) (params : List ParamTree) (tag : String) :
    Completable (s.goto (.paramName name params tag)) :=
  of_feed? sampleName_fits rfl (afterParam h name _)

theorem paramTag (h : s.owners = []) (name : String) (params : List ParamTree) :
    Completable (s.goto (.paramTag name params)) :=
  of_feed? sampleName_fits rfl (paramName h name params _)

theorem paramsOpen (h : s.owners = []) (name : String) : Completable (s.goto (.paramsOpen name)) :=
  of_feed? (sign_fits .rpar) rfl (arrow h name [])

theorem funcOpen (h : s.owners = []) (name : String) : Completable (s.goto (.funcOpen name)) :=
  of_feed? (sign_fits .lpar) rfl (paramsOpen h name)

theorem funcName (h : s.owners = []) : Completable (s.goto .funcName) :=
  of_feed? sampleName_fits rfl (funcOpen h _)

end Completable

/-! ### Every state that reading comes to -/

/-- Either no block is open, or the owners of the open blocks are placed. -/
theorem Nested.placed {blocks : List OpenBlock} {w : List Token} (h : Nested blocks w) :
    if blocks.isEmpty then blocks.map (·.owner) = [] else Placed (blocks.map (·.owner)) := by
  induction h with
  | none => rfl
  | @more blocks owner body _ _ _ outer place begun lbrace body_spelled ih =>
    by_cases hempty : blocks.isEmpty = true
    · rw [if_pos hempty] at ih
      simp only [List.isEmpty_cons, List.map_cons, ih]
      exact .item (place.trans hempty)
    · rw [if_neg hempty] at ih
      rw [Bool.not_eq_true] at hempty
      exact .inner (place.trans hempty) ih

/-- **Every state that reading comes to can be completed.** -/
theorem State.Holds.completable [Host] {s : State} {w : List Token} (h : s.Holds w) : Completable s := by
  obtain ⟨hencloses, hbegun⟩ := h
  obtain ⟨-, hnested⟩ := hencloses
  have hplaced := hnested.placed
  have houtside : s.inside = false → s.owners = [] := by
    intro hin
    rw [State.inside, Bool.not_eq_false'] at hin
    rwa [if_pos hin] at hplaced
  have hinside : s.inside = true → Placed s.owners := by
    intro hin
    rw [State.inside, Bool.not_eq_true'] at hin
    rwa [hin] at hplaced
  obtain ⟨phase, blocks, items⟩ := s
  dsimp only at hbegun
  generalize hin : State.inside ⟨phase, blocks, items⟩ = inside at hbegun
  cases hbegun with
  | start => exact .of_mayEnd rfl
  | afterItem => exact .of_mayEnd rfl
  | funcName fn => exact .funcName (houtside hin)
  | funcOpen fn name => exact .funcOpen (houtside hin) _
  | paramsOpen heading => exact .paramsOpen (houtside hin) _
  | paramTag heading before => exact .paramTag (houtside hin) _ _
  | paramName heading before tag => exact .paramName (houtside hin) _ _ _
  | afterParam heading before tag param => exact .afterParam (houtside hin) _ _
  | arrow heading params_spelled rpar => exact .arrow (houtside hin) _ _
  | returnTag heading params_spelled rpar arrow => exact .returnTag (houtside hin) _ _
  | @blockOpen owner _ owner_begun =>
    refine .blockOpen (s := ⟨.blockOpen owner, blocks, items⟩) ?_
    cases hitem : owner.isItem with
    | true =>
      rw [hitem] at hin
      rw [houtside hin]
      exact .item hitem
    | false =>
      rw [hitem] at hin
      exact .inner hitem (hinside hin)
  | statement => exact .atStatement (hinside hin) rfl (.inl rfl)
  | afterBlock => exact .atStatement (hinside hin) rfl (.inr ⟨_, rfl⟩)
  | afterBranch word lpar condition_spelled rpar yes_spelled =>
    exact .atStatement (hinside hin) rfl (.inr ⟨_, rfl⟩)
  | branchOpen word => exact .conditionOpen (hinside hin) _
  | loopOpen word => exact .conditionOpen (hinside hin) _
  | statementName name => exact .statementName (hinside hin) _
  | declared tag name => exact .declared (hinside hin) _ _
  | operand begun => exact .operand (hinside hin) _
  | arguments begun name lpar => exact .arguments (hinside hin) _
  | afterName begun name => exact .afterName (hinside hin) _ _
  | @afterOperand e value _ _ begun value_spelled =>
    exact .afterOperand (hinside hin) e.levels value e.pending e.goal

end SmallImp.Source

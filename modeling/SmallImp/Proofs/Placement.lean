import Mathlib.Tactic.Common
import SmallImp.Source.Reading

/-!
# Places do not matter

The tokens in a syntax tree know where they stand, but only the wording of a fault looks at it. Moving
all tokens to the first place of the text commutes with reading them and with making a program of what
was read.

* `Token.unplaced`, `ExprTree.unplaced`, …, `State.unplaced` — all tokens moved to the first place;
* `State.feed?_unplaced` — reading a token commutes with moving;
* `buildProgram_unplaced` — the program of trees is that of the moved ones.
-/

namespace SmallImp.Source

/-! ### Moving tokens -/

/-- The token at the first place of a text. -/
def Token.unplaced (t : Token) : Token := { t with position := .start }

theorem Token.terminal_unplaced (t : Token) : t.unplaced.terminal = t.terminal := rfl

mutual

/-- The tree of an expression without the places of its tokens. -/
def ExprTree.unplaced : ExprTree → ExprTree
  | .literal rule token => .literal rule token.unplaced
  | .var name => .var name
  | .binary left op right => .binary left.unplaced op right.unplaced
  | .unary op operand => .unary op operand.unplaced
  | .call name args => .call name (ExprTree.unplacedAll args)

/-- Trees of expressions without the places of their tokens. -/
def ExprTree.unplacedAll : List ExprTree → List ExprTree
  | [] => []
  | tree :: rest => tree.unplaced :: ExprTree.unplacedAll rest

end

mutual

/-- The tree of a statement without the places of its tokens. -/
def StmtTree.unplaced : StmtTree → StmtTree
  | .declare tag name => .declare tag name
  | .start tag name value => .start tag name value.unplaced
  | .assign name value => .assign name value.unplaced
  | .branch condition yes => .branch condition.unplaced (StmtTree.unplacedAll yes)
  | .branchElse condition yes no =>
    .branchElse condition.unplaced (StmtTree.unplacedAll yes) (StmtTree.unplacedAll no)
  | .loop condition body => .loop condition.unplaced (StmtTree.unplacedAll body)
  | .ret value => .ret value.unplaced
  | .expr value => .expr value.unplaced

/-- Trees of statements without the places of their tokens. -/
def StmtTree.unplacedAll : List StmtTree → List StmtTree
  | [] => []
  | tree :: rest => tree.unplaced :: StmtTree.unplacedAll rest

end

theorem ExprTree.unplacedAll_eq_map (trees : List ExprTree) :
    ExprTree.unplacedAll trees = trees.map ExprTree.unplaced := by
  induction trees with
  | nil => rfl
  | cons tree rest ih => rw [ExprTree.unplacedAll, ih, List.map_cons]

theorem StmtTree.unplacedAll_eq_map (trees : List StmtTree) :
    StmtTree.unplacedAll trees = trees.map StmtTree.unplaced := by
  induction trees with
  | nil => rfl
  | cons tree rest ih => rw [StmtTree.unplacedAll, ih, List.map_cons]

/-- The tree of an item without the places of its tokens. -/
def ItemTree.unplaced : ItemTree → ItemTree
  | .func name tag params body => .func name tag params (body.map StmtTree.unplaced)
  | .main body => .main (body.map StmtTree.unplaced)

/-- An operator that waits, without places. -/
def Pending.unplaced : Pending → Pending
  | .unary op => .unary op
  | .binary left op => .binary left.unplaced op

/-- What a parenthesis encloses, without places. -/
def Bracket.unplaced : Bracket → Bracket
  | .group => .group
  | .call name args => .call name (args.map ExprTree.unplaced)

/-- An open parenthesis without places. -/
def Level.unplaced (level : Level) : Level :=
  ⟨level.bracket.unplaced, level.outer.map Pending.unplaced⟩

/-- An expression in progress without places. -/
def Expression.unplaced (e : Expression) : Expression :=
  ⟨e.pending.map Pending.unplaced, e.levels.map Level.unplaced, e.goal⟩

/-- The owner of a block without places. -/
def Owner.unplaced : Owner → Owner
  | .func name params tag => .func name params tag
  | .main => .main
  | .yes condition => .yes condition.unplaced
  | .no condition block => .no condition.unplaced (block.map StmtTree.unplaced)
  | .body condition => .body condition.unplaced

/-- A block in progress without places. -/
def OpenBlock.unplaced (block : OpenBlock) : OpenBlock :=
  ⟨block.owner.unplaced, block.body.map StmtTree.unplaced⟩

/-- A phase without places. -/
def Phase.unplaced : Phase → Phase
  | .blockOpen owner => .blockOpen owner.unplaced
  | .afterBlock branch =>
    .afterBlock (branch.map fun b => (b.1.unplaced, b.2.map StmtTree.unplaced))
  | .operand e => .operand e.unplaced
  | .arguments e => .arguments e.unplaced
  | .afterName name e => .afterName name e.unplaced
  | .afterOperand value e => .afterOperand value.unplaced e.unplaced
  | phase => phase

/-- A state of reading without places. -/
def State.unplaced (s : State) : State :=
  ⟨s.phase.unplaced, s.blocks.map OpenBlock.unplaced, s.items.map ItemTree.unplaced⟩

/-! ### Reading -/

theorem settle_unplaced (rank : Nat) (pending : List Pending) : ∀ operand : ExprTree,
    settle rank operand.unplaced (pending.map Pending.unplaced) =
      ((settle rank operand pending).1.unplaced,
        (settle rank operand pending).2.map Pending.unplaced) := by
  induction pending with
  | nil => exact fun _ => rfl
  | cons p rest ih =>
    intro operand
    cases p with
    | unary op => exact ih (.unary op operand)
    | binary left op =>
      rw [List.map_cons, Pending.unplaced, settle, settle]
      split
      · exact ih (.binary left op operand)
      · rfl

theorem close_unplaced (operand : ExprTree) (pending : List Pending) :
    close operand.unplaced (pending.map Pending.unplaced) = (close operand pending).unplaced := by
  rw [close, settle_unplaced, close]

namespace State

@[simp] theorem context_unplaced (s : State) : s.unplaced.context = s.context := by
  obtain ⟨phase, blocks, items⟩ := s
  cases phase <;> rfl

@[simp] theorem mayEnd_unplaced (s : State) : s.unplaced.mayEnd = s.mayEnd := by
  obtain ⟨phase, blocks, items⟩ := s
  cases phase <;> rfl

section

variable (s : State) (t : Token)

theorem addStmt_unplaced (stmt : StmtTree) :
    s.unplaced.addStmt stmt.unplaced = (s.addStmt stmt).unplaced := by
  obtain ⟨phase, blocks, items⟩ := s
  cases blocks <;> rfl

theorem endStmt_unplaced (stmt : StmtTree) :
    s.unplaced.endStmt stmt.unplaced = (s.endStmt stmt).unplaced := by
  rw [endStmt, addStmt_unplaced]
  rfl

theorem closeBlock?_unplaced : s.unplaced.closeBlock? = s.closeBlock?.map unplaced := by
  obtain ⟨phase, blocks, items⟩ := s
  cases blocks with
  | nil => rfl
  | cons block rest =>
    obtain ⟨owner, body⟩ := block
    have hbody : (body.map StmtTree.unplaced).reverse = body.reverse.map StmtTree.unplaced :=
      List.map_reverse.symm
    have hadd := addStmt_unplaced ⟨phase, rest, items⟩
    cases owner with
    | func name params tag =>
      simp only [closeBlock?, unplaced, OpenBlock.unplaced, Owner.unplaced, List.map_cons, hbody]
      rfl
    | main =>
      simp only [closeBlock?, unplaced, OpenBlock.unplaced, Owner.unplaced, List.map_cons, hbody]
      rfl
    | yes condition =>
      simp only [closeBlock?, unplaced, OpenBlock.unplaced, Owner.unplaced, List.map_cons, hbody]
      rfl
    | no condition yes =>
      have hstmt := hadd (.branchElse condition yes body.reverse)
      simp only [StmtTree.unplaced, StmtTree.unplacedAll_eq_map, ← hbody] at hstmt
      exact congrArg (fun s => some (s.goto (.afterBlock none))) hstmt
    | body condition =>
      have hstmt := hadd (.loop condition body.reverse)
      simp only [StmtTree.unplaced, StmtTree.unplacedAll_eq_map, ← hbody] at hstmt
      exact congrArg (fun s => some (s.goto (.afterBlock none))) hstmt

theorem item?_unplaced : s.unplaced.item? t.unplaced = (s.item? t).map unplaced := by
  unfold item?
  rw [t.terminal_unplaced]
  split <;> rfl

theorem operand?_unplaced (e : Expression) :
    s.unplaced.operand? e.unplaced t.unplaced = (s.operand? e t).map unplaced := by
  unfold operand?
  rw [t.terminal_unplaced]
  split
  · rfl
  · rfl
  · rfl
  · rfl
  · split <;> rfl

theorem finish?_unplaced (value : ExprTree) (goal : Goal) (k : Terminal) :
    s.unplaced.finish? value.unplaced goal k = (s.finish? value goal k).map unplaced := by
  unfold finish?
  split
  · exact congrArg some (endStmt_unplaced s (.start _ _ value))
  · exact congrArg some (endStmt_unplaced s (.assign _ value))
  · exact congrArg some (endStmt_unplaced s (.ret value))
  · exact congrArg some (endStmt_unplaced s (.expr value))
  · rfl
  · rfl
  · rfl

theorem closeOperand?_unplaced (value : ExprTree) (e : Expression) (k : Terminal) :
    s.unplaced.closeOperand? value.unplaced e.unplaced k =
      (s.closeOperand? value e k).map unplaced := by
  obtain ⟨pending, levels, goal⟩ := e
  cases levels with
  | nil => exact finish?_unplaced s value goal k
  | cons level levels =>
    obtain ⟨bracket, outer⟩ := level
    cases k with
    | symbol sign =>
      cases bracket with
      | group => cases sign <;> rfl
      | call name args =>
        cases sign with
        | rpar =>
          simp [closeOperand?, unplaced, goto, Phase.unplaced, ExprTree.unplaced,
            ExprTree.unplacedAll_eq_map, Expression.unplaced, Level.unplaced, Bracket.unplaced]
        | _ => rfl
    | _ => cases bracket <;> rfl

theorem afterOperand?_unplaced (value : ExprTree) (e : Expression) :
    s.unplaced.afterOperand? value.unplaced e.unplaced t.unplaced =
      (s.afterOperand? value e t).map unplaced := by
  unfold afterOperand?
  rw [t.terminal_unplaced]
  cases t.terminal.binaryOp? with
  | none =>
    dsimp only
    rw [show e.unplaced.pending = e.pending.map Pending.unplaced from rfl, close_unplaced]
    exact closeOperand?_unplaced s _ e _
  | some op =>
    dsimp only
    rw [show e.unplaced.pending = e.pending.map Pending.unplaced from rfl, settle_unplaced]
    rfl

theorem afterName?_unplaced (name : String) (e : Expression) :
    s.unplaced.afterName? name e.unplaced t.unplaced = (s.afterName? name e t).map unplaced := by
  unfold afterName?
  rw [t.terminal_unplaced]
  split
  · rfl
  · exact afterOperand?_unplaced s t (.var name) e

theorem arguments?_of_ne {s : State} {e : Expression} {t : Token} (h : t.terminal ≠ .symbol .rpar) :
    s.arguments? e t = s.operand? e t := by
  unfold arguments?
  split
  next hk _ => exact absurd hk h
  next => rfl

theorem arguments?_unplaced (e : Expression) :
    s.unplaced.arguments? e.unplaced t.unplaced = (s.arguments? e t).map unplaced := by
  by_cases hk : t.terminal = .symbol .rpar
  · obtain ⟨k, text, p⟩ := t
    obtain ⟨pending, levels, goal⟩ := e
    obtain rfl : k = .symbol .rpar := hk
    rcases levels with - | ⟨⟨- | ⟨name, args⟩, outer⟩, levels⟩
    · rfl
    · rfl
    · simp [arguments?, Token.unplaced, unplaced, goto, Phase.unplaced, ExprTree.unplaced,
        ExprTree.unplacedAll_eq_map, Expression.unplaced, Level.unplaced, Bracket.unplaced]
  · rw [arguments?_of_ne hk, arguments?_of_ne (t := t.unplaced) hk, operand?_unplaced]

theorem statement?_unplaced :
    s.unplaced.statement? t.unplaced = (s.statement? t).map unplaced := by
  unfold statement?
  rw [t.terminal_unplaced]
  split
  · rfl
  · rfl
  · rfl
  · exact closeBlock?_unplaced s
  · rfl
  · exact operand?_unplaced s t (.new .statement)

theorem afterBlock?_of_ne {s : State} {condition : ExprTree} {yes : List StmtTree} {t : Token}
    (h : t.terminal ≠ .keyword .else) :
    s.afterBlock? (some (condition, yes)) t = (s.addStmt (.branch condition yes)).statement? t := by
  unfold afterBlock?
  split
  next hk => exact absurd hk h
  next heq _ =>
    cases heq
    rfl
  next heq => cases heq

theorem afterBlock?_unplaced (branch : Option (ExprTree × List StmtTree)) :
    s.unplaced.afterBlock? (branch.map fun b => (b.1.unplaced, b.2.map StmtTree.unplaced)) t.unplaced =
      (s.afterBlock? branch t).map unplaced := by
  cases branch with
  | none => exact statement?_unplaced s t
  | some b =>
    obtain ⟨condition, yes⟩ := b
    rw [Option.map_some]
    by_cases hk : t.terminal = .keyword .else
    · obtain ⟨k, text, p⟩ := t
      obtain rfl : k = .keyword .else := hk
      rfl
    · have hstmt := addStmt_unplaced s (.branch condition yes)
      rw [StmtTree.unplaced, StmtTree.unplacedAll_eq_map] at hstmt
      rw [afterBlock?_of_ne hk, afterBlock?_of_ne (t := t.unplaced) hk, hstmt]
      exact statement?_unplaced _ t

theorem statementName?_unplaced (name : String) :
    s.unplaced.statementName? name t.unplaced = (s.statementName? name t).map unplaced := by
  unfold statementName?
  rw [t.terminal_unplaced]
  split
  · rfl
  · rfl
  · exact afterName?_unplaced s t name (.new .statement)

theorem declared?_unplaced (tag name : String) :
    s.unplaced.declared? tag name t.unplaced = (s.declared? tag name t).map unplaced := by
  unfold declared?
  rw [t.terminal_unplaced]
  split
  · rfl
  · exact congrArg some (endStmt_unplaced s (.declare tag name))
  · rfl

theorem heading?_unplaced (phase : Phase) :
    s.unplaced.heading? phase t.unplaced = (s.heading? phase t).map unplaced := by
  unfold heading?
  rw [t.terminal_unplaced]
  split <;> rfl

theorem blockOpen?_unplaced (owner : Owner) :
    s.unplaced.blockOpen? owner.unplaced t.unplaced = (s.blockOpen? owner t).map unplaced := by
  unfold blockOpen?
  rw [t.terminal_unplaced]
  split <;> rfl

theorem conditionOpen?_unplaced (of : Conditional) :
    s.unplaced.conditionOpen? of t.unplaced = (s.conditionOpen? of t).map unplaced := by
  unfold conditionOpen?
  rw [t.terminal_unplaced]
  split <;> rfl

/-- **Reading a token commutes with moving tokens.** -/
theorem feed?_unplaced : s.unplaced.feed? t.unplaced = (s.feed? t).map unplaced := by
  obtain ⟨phase, blocks, items⟩ := s
  cases phase with
  | start => exact item?_unplaced _ t
  | afterItem => exact item?_unplaced _ t
  | blockOpen owner => exact blockOpen?_unplaced _ t owner
  | statement => exact statement?_unplaced _ t
  | afterBlock branch => exact afterBlock?_unplaced _ t branch
  | conditionOpen of => exact conditionOpen?_unplaced _ t of
  | statementName name => exact statementName?_unplaced _ t name
  | declared tag name => exact declared?_unplaced _ t tag name
  | operand e => exact operand?_unplaced _ t e
  | arguments e => exact arguments?_unplaced _ t e
  | afterName name e => exact afterName?_unplaced _ t name e
  | afterOperand value e => exact afterOperand?_unplaced _ t value e
  | _ => exact heading?_unplaced _ t _

end

end State

/-! ### Making programs -/

/-- A fault without the place of its token. -/
def LiteralFault.unplaced : LiteralFault → LiteralFault
  | .outOfRange token => .outOfRange token.unplaced
  | fault => fault

theorem bind_mapError {α β : Type} (f : LiteralFault → LiteralFault) (x : Except LiteralFault α)
    (k : α → Except LiteralFault β) :
    (x >>= k).mapError f = x.mapError f >>= fun a => (k a).mapError f := by
  cases x <;> rfl

variable [Host]

theorem LiteralRule.literal_unplaced (rule : LiteralRule) (t : Token) :
    rule.literal t.unplaced = (rule.literal t).mapError LiteralFault.unplaced := by
  cases rule with
  | int =>
    show intLiteral t.unplaced = (intLiteral t).mapError _
    obtain ⟨k, text, p⟩ := t
    by_cases hdigits : Text.maxDigits < text.length
    · simp [intLiteral, Token.unplaced, hdigits, Except.mapError, LiteralFault.unplaced]
    · by_cases hmax : (Text.digitsValue text : Int) ≤ maxInt
      · simp [intLiteral, Token.unplaced, hdigits, hmax, Except.mapError]
      · simp [intLiteral, Token.unplaced, hdigits, hmax, Except.mapError, LiteralFault.unplaced]
  | float => rfl
  | yes => rfl
  | no => rfl
  | text =>
    show (unescape (t.text.drop 1).dropLast).map Literal.str =
      ((unescape (t.text.drop 1).dropLast).map Literal.str).mapError _
    unfold unescape
    split
    · rfl
    · split <;> rfl

mutual

theorem ExprTree.build_unplaced : ∀ tree : ExprTree,
    tree.unplaced.build = tree.build.mapError LiteralFault.unplaced
  | .literal rule token => by
    rw [ExprTree.unplaced, ExprTree.build, ExprTree.build, bind_mapError, rule.literal_unplaced]
    rfl
  | .var name => rfl
  | .binary left op right => by
    rw [ExprTree.unplaced, ExprTree.build, ExprTree.build, left.build_unplaced, right.build_unplaced]
    simp only [bind_mapError]
    rfl
  | .unary op operand => by
    rw [ExprTree.unplaced, ExprTree.build, ExprTree.build, operand.build_unplaced]
    simp only [bind_mapError]
    rfl
  | .call name args => by
    rw [ExprTree.unplaced, ExprTree.build, ExprTree.build, ExprTree.buildAll_unplaced]
    simp only [bind_mapError]
    rfl

theorem ExprTree.buildAll_unplaced : ∀ trees : List ExprTree,
    ExprTree.buildAll (ExprTree.unplacedAll trees) =
      (ExprTree.buildAll trees).mapError LiteralFault.unplaced
  | [] => rfl
  | tree :: rest => by
    rw [ExprTree.unplacedAll, ExprTree.buildAll, ExprTree.buildAll, tree.build_unplaced,
      ExprTree.buildAll_unplaced]
    simp only [bind_mapError]
    rfl

end

mutual

theorem StmtTree.build_unplaced : ∀ tree : StmtTree,
    tree.unplaced.build = tree.build.mapError LiteralFault.unplaced
  | .declare tag name => rfl
  | .start tag name value => by
    rw [StmtTree.unplaced, StmtTree.build, StmtTree.build, value.build_unplaced, bind_mapError]
    rfl
  | .assign name value => by
    rw [StmtTree.unplaced, StmtTree.build, StmtTree.build, value.build_unplaced, bind_mapError]
    rfl
  | .branch condition yes => by
    rw [StmtTree.unplaced, StmtTree.build, StmtTree.build, condition.build_unplaced,
      StmtTree.buildAll_unplaced]
    simp only [bind_mapError]
    rfl
  | .branchElse condition yes no => by
    rw [StmtTree.unplaced, StmtTree.build, StmtTree.build, condition.build_unplaced,
      StmtTree.buildAll_unplaced, StmtTree.buildAll_unplaced]
    simp only [bind_mapError]
    rfl
  | .loop condition body => by
    rw [StmtTree.unplaced, StmtTree.build, StmtTree.build, condition.build_unplaced,
      StmtTree.buildAll_unplaced]
    simp only [bind_mapError]
    rfl
  | .ret value => by
    rw [StmtTree.unplaced, StmtTree.build, StmtTree.build, value.build_unplaced, bind_mapError]
    rfl
  | .expr value => by
    rw [StmtTree.unplaced, StmtTree.build, StmtTree.build, value.build_unplaced, bind_mapError]
    rfl

theorem StmtTree.buildAll_unplaced : ∀ trees : List StmtTree,
    StmtTree.buildAll (StmtTree.unplacedAll trees) =
      (StmtTree.buildAll trees).mapError LiteralFault.unplaced
  | [] => rfl
  | tree :: rest => by
    rw [StmtTree.unplacedAll, StmtTree.buildAll, StmtTree.buildAll, tree.build_unplaced,
      StmtTree.buildAll_unplaced]
    simp only [bind_mapError]
    rfl

end

theorem ItemTree.build_unplaced (tree : ItemTree) :
    tree.unplaced.build = tree.build.mapError LiteralFault.unplaced := by
  cases tree with
  | func name tag params body =>
    rw [ItemTree.unplaced, ItemTree.build, ItemTree.build, ← StmtTree.unplacedAll_eq_map,
      StmtTree.buildAll_unplaced, bind_mapError]
    rfl
  | main body =>
    rw [ItemTree.unplaced, ItemTree.build, ItemTree.build, ← StmtTree.unplacedAll_eq_map,
      StmtTree.buildAll_unplaced, bind_mapError]
    rfl

theorem ItemTree.buildAll_unplaced (trees : List ItemTree) :
    ItemTree.buildAll (trees.map ItemTree.unplaced) =
      (ItemTree.buildAll trees).mapError LiteralFault.unplaced := by
  induction trees with
  | nil => rfl
  | cons tree rest ih =>
    rw [List.map_cons, ItemTree.buildAll, ItemTree.buildAll, tree.build_unplaced, ih]
    simp only [bind_mapError]
    rfl

/-- **The program of trees does not depend on the places of their tokens.** -/
theorem buildProgram_unplaced {trees : List ItemTree} {p : Program} :
    buildProgram (trees.map ItemTree.unplaced) = .ok p ↔ buildProgram trees = .ok p := by
  rw [buildProgram, buildProgram, ItemTree.buildAll_unplaced]
  cases ItemTree.buildAll trees with
  | ok items => rfl
  | error fault => exact ⟨nofun, nofun⟩

end SmallImp.Source

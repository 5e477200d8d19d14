import SmallImp.Source.Context
import SmallImp.Source.Tree

/-!
# Reading tokens

A program is read one token at a time. The state holds all that is still open: the expression in
progress with its operators and brackets, the enclosing blocks, and the functions read so far. It
also says which terminals the lexer may take next.

* `BinaryOp.rank` — how tightly the binary operators bind; all of them associate to the left;
* `Pending`, `Expression` — an expression in progress;
* `Phase`, `State` — the state of reading;
* `State.context` — the terminals that may come next;
* `State.feed?` — the state after a token, unless the token cannot come next.

The parts read are trees of the grammar; nothing is made of their literals yet.
-/

namespace SmallImp

/-- How tightly an operator binds. -/
def BinaryOp.rank : BinaryOp → Nat
  | .or => 1
  | .and => 2
  | .eq => 3
  | .gt => 4
  | .lt => 4
  | .ge => 4
  | .le => 4
  | .add => 5
  | .sub => 5
  | .mul => 6
  | .div => 6

namespace Source

/-- The binary operator of a terminal. -/
def Terminal.binaryOp? : Terminal → Option BinaryOp
  | .symbol .bars => some .or
  | .symbol .ampersand => some .and
  | .symbol .equals => some .eq
  | .symbol .more => some .gt
  | .symbol .less => some .lt
  | .symbol .moreEqual => some .ge
  | .symbol .lessEqual => some .le
  | .symbol .plus => some .add
  | .symbol .minus => some .sub
  | .symbol .star => some .mul
  | .symbol .slash => some .div
  | _ => none

/-! ### Expressions in progress -/

/-- An operator that waits for its last operand. -/
inductive Pending where
  | unary (op : UnaryOp)
  | binary (left : ExprTree) (op : BinaryOp)

/-- Gives an operand to the operators waiting for it that bind at least as tightly as the given
rank, the innermost first. -/
def settle (rank : Nat) (operand : ExprTree) : List Pending → ExprTree × List Pending
  | [] => (operand, [])
  | .unary op :: rest => settle rank (.unary op operand) rest
  | .binary left op :: rest =>
    if rank ≤ op.rank then settle rank (.binary left op operand) rest
    else (operand, .binary left op :: rest)

/-- Gives an operand to all operators waiting for it. -/
def close (operand : ExprTree) (pending : List Pending) : ExprTree := (settle 0 operand pending).1

/-- What an open parenthesis encloses. -/
inductive Bracket where
  | group
  /-- The arguments of a call; those read before are held in reverse. -/
  | call (name : String) (args : List ExprTree)

/-- An open parenthesis and the operators waiting outside of it. -/
structure Level where
  bracket : Bracket
  outer : List Pending

/-- The statements that have a condition. -/
inductive Conditional where
  | branch | loop
deriving DecidableEq

/-- What an expression is read for. -/
inductive Goal where
  | start (tag name : String)
  | assign (name : String)
  | condition (of : Conditional)
  | ret
  | statement

/-- An expression in progress: operators that wait within the innermost parenthesis, the open
parentheses, and what the whole is for. -/
structure Expression where
  pending : List Pending
  levels : List Level
  goal : Goal

/-- An expression of which nothing has been read. -/
def Expression.new (goal : Goal) : Expression := ⟨[], [], goal⟩

/-- Opens a parenthesis. -/
def Expression.enter (e : Expression) (bracket : Bracket) : Expression :=
  ⟨[], ⟨bracket, e.pending⟩ :: e.levels, e.goal⟩

/-! ### States -/

/-- What an open block belongs to. -/
inductive Owner where
  | func (name : String) (params : List ParamTree) (tag : String)
  | main
  | yes (condition : ExprTree)
  | no (condition : ExprTree) (yes : List StmtTree)
  | body (condition : ExprTree)

/-- A block in progress; the statements read are held in reverse. -/
structure OpenBlock where
  owner : Owner
  body : List StmtTree

/-- What is being read; parameters read before are held in reverse. -/
inductive Phase where
  | start
  /-- After a function or a main block. -/
  | afterItem
  | funcName
  | funcOpen (name : String)
  | paramsOpen (name : String)
  | paramTag (name : String) (params : List ParamTree)
  | paramName (name : String) (params : List ParamTree) (tag : String)
  | afterParam (name : String) (params : List ParamTree)
  | arrow (name : String) (params : List ParamTree)
  | returnTag (name : String) (params : List ParamTree)
  | blockOpen (owner : Owner)
  | statement
  /-- After a block inside a block: the condition and the block of an `if` that may still get an
  `else`. -/
  | afterBlock (branch : Option (ExprTree × List StmtTree))
  | conditionOpen (of : Conditional)
  | statementName (name : String)
  | declared (tag name : String)
  | operand (e : Expression)
  | arguments (e : Expression)
  | afterName (name : String) (e : Expression)
  | afterOperand (value : ExprTree) (e : Expression)

/-- The state of reading. The items read are held in reverse. -/
structure State where
  phase : Phase
  blocks : List OpenBlock
  items : List ItemTree

namespace State

/-- The state before the first token. -/
def initial : State := ⟨.start, [], []⟩

/-- The terminals that may come next. -/
def context (s : State) : Context :=
  match s.phase with
  | .start => .start
  | .afterItem => .afterBlock
  | .funcName => .name
  | .funcOpen _ => .paren
  | .paramsOpen _ => .paramsOpen
  | .paramTag _ _ => .name
  | .paramName _ _ _ => .name
  | .afterParam _ _ => .afterParam
  | .arrow _ _ => .arrow
  | .returnTag _ _ => .name
  | .blockOpen _ => .brace
  | .statement => .statement
  | .afterBlock _ => .afterBlock
  | .conditionOpen _ => .paren
  | .statementName _ => .statementName
  | .declared _ _ => .declared
  | .operand _ => .operand
  | .arguments _ => .arguments
  | .afterName _ _ => .afterName
  | .afterOperand _ _ => .afterOperand

/-- Whether the text may end here. -/
def mayEnd (s : State) : Bool :=
  match s.phase with
  | .start => true
  | .afterItem => true
  | _ => false

/-- Moves to another phase. -/
def goto (s : State) (phase : Phase) : State := { s with phase }

/-- Adds a statement to the innermost block. -/
def addStmt (s : State) (stmt : StmtTree) : State :=
  match s.blocks with
  | [] => s
  | block :: rest => { s with blocks := { block with body := stmt :: block.body } :: rest }

/-- Adds a statement to the innermost block and goes on after it. -/
def endStmt (s : State) (stmt : StmtTree) : State := (s.addStmt stmt).goto .statement

/-- Opens the block of an owner. -/
def openBlock (s : State) (owner : Owner) : State :=
  { s with phase := .statement, blocks := ⟨owner, []⟩ :: s.blocks }

/-- Adds a function or a main block. -/
def addItem (s : State) (item : ItemTree) : State :=
  { s with phase := .afterItem, items := item :: s.items }

/-- Closes the innermost block and gives it to its owner. -/
def closeBlock? (s : State) : Option State :=
  match s.blocks with
  | [] => none
  | ⟨owner, body⟩ :: blocks =>
    let s := { s with blocks }
    let body := body.reverse
    match owner with
    | .func name params tag => some (s.addItem (.func name tag params body))
    | .main => some (s.addItem (.main body))
    | .yes condition => some (s.goto (.afterBlock (some (condition, body))))
    | .no condition yes =>
      some ((s.addStmt (.branchElse condition yes body)).goto (.afterBlock none))
    | .body condition => some ((s.addStmt (.loop condition body)).goto (.afterBlock none))

/-- A token that starts a function or a main block. -/
def item? (s : State) (t : Token) : Option State :=
  match t.terminal with
  | .keyword .fn => some (s.goto .funcName)
  | .keyword .main => some (s.goto (.blockOpen .main))
  | _ => none

/-- A token where an operand is due. -/
def operand? (s : State) (e : Expression) (t : Token) : Option State :=
  match t.terminal with
  | .name => some (s.goto (.afterName t.string e))
  | .symbol .lpar => some (s.goto (.operand (e.enter .group)))
  | .symbol .minus => some (s.goto (.operand { e with pending := .unary .neg :: e.pending }))
  | .symbol .bang => some (s.goto (.operand { e with pending := .unary .not :: e.pending }))
  | _ =>
    match t.terminal.literalRule? with
    | some rule => some (s.goto (.afterOperand (.literal rule t) e))
    | none => none

/-- A complete expression used for what it was read for, at the token that ends it. -/
def finish? (s : State) (value : ExprTree) (goal : Goal) (t : Terminal) : Option State :=
  match t, goal with
  | .symbol .semicolon, .start tag name => some (s.endStmt (.start tag name value))
  | .symbol .semicolon, .assign name => some (s.endStmt (.assign name value))
  | .symbol .semicolon, .ret => some (s.endStmt (.ret value))
  | .symbol .semicolon, .statement => some (s.endStmt (.expr value))
  | .symbol .rpar, .condition .branch => some (s.goto (.blockOpen (.yes value)))
  | .symbol .rpar, .condition .loop => some (s.goto (.blockOpen (.body value)))
  | _, _ => none

/-- The token that ends an operand and all operators that wait within the innermost parenthesis. -/
def closeOperand? (s : State) (value : ExprTree) (e : Expression) (t : Terminal) : Option State :=
  match e.levels, t with
  | [], t => s.finish? value e.goal t
  | ⟨.group, outer⟩ :: levels, .symbol .rpar =>
    some (s.goto (.afterOperand value ⟨outer, levels, e.goal⟩))
  | ⟨.call name args, outer⟩ :: levels, .symbol .rpar =>
    some (s.goto (.afterOperand (.call name (value :: args).reverse) ⟨outer, levels, e.goal⟩))
  | ⟨.call name args, outer⟩ :: levels, .symbol .comma =>
    some (s.goto (.operand ⟨[], ⟨.call name (value :: args), outer⟩ :: levels, e.goal⟩))
  | _, _ => none

/-- A token after an operand. -/
def afterOperand? (s : State) (value : ExprTree) (e : Expression) (t : Token) : Option State :=
  match t.terminal.binaryOp? with
  | some op =>
    let (left, rest) := settle op.rank value e.pending
    some (s.goto (.operand { e with pending := .binary left op :: rest }))
  | none => s.closeOperand? (close value e.pending) e t.terminal

/-- A token after a name inside an expression. -/
def afterName? (s : State) (name : String) (e : Expression) (t : Token) : Option State :=
  match t.terminal with
  | .symbol .lpar => some (s.goto (.arguments (e.enter (.call name []))))
  | _ => s.afterOperand? (.var name) e t

/-- A token after the parenthesis that opens arguments. -/
def arguments? (s : State) (e : Expression) (t : Token) : Option State :=
  match t.terminal, e.levels with
  | .symbol .rpar, ⟨.call name args, outer⟩ :: levels =>
    some (s.goto (.afterOperand (.call name args.reverse) ⟨outer, levels, e.goal⟩))
  | _, _ => s.operand? e t

/-- A token at the start of a statement. -/
def statement? (s : State) (t : Token) : Option State :=
  match t.terminal with
  | .keyword .if => some (s.goto (.conditionOpen .branch))
  | .keyword .while => some (s.goto (.conditionOpen .loop))
  | .keyword .return => some (s.goto (.operand (.new .ret)))
  | .symbol .rbrace => s.closeBlock?
  | .name => some (s.goto (.statementName t.string))
  | _ => s.operand? (.new .statement) t

/-- A token after a block inside a block. -/
def afterBlock? (s : State) (branch : Option (ExprTree × List StmtTree)) (t : Token) : Option State :=
  match branch, t.terminal with
  | some (condition, yes), .keyword .else => some (s.goto (.blockOpen (.no condition yes)))
  | some (condition, yes), _ => (s.addStmt (.branch condition yes)).statement? t
  | none, _ => s.statement? t

/-- A token after the name that starts a statement. -/
def statementName? (s : State) (name : String) (t : Token) : Option State :=
  match t.terminal with
  | .name => some (s.goto (.declared name t.string))
  | .symbol .equal => some (s.goto (.operand (.new (.assign name))))
  | _ => s.afterName? name (.new .statement) t

/-- A token after the name of a declared variable. -/
def declared? (s : State) (tag name : String) (t : Token) : Option State :=
  match t.terminal with
  | .symbol .equal => some (s.goto (.operand (.new (.start tag name))))
  | .symbol .semicolon => some (s.endStmt (.declare tag name))
  | _ => none

/-- A token in the heading of a function. -/
def heading? (s : State) (phase : Phase) (t : Token) : Option State :=
  match phase, t.terminal with
  | .funcName, .name => some (s.goto (.funcOpen t.string))
  | .funcOpen name, .symbol .lpar => some (s.goto (.paramsOpen name))
  | .paramsOpen name, .name => some (s.goto (.paramName name [] t.string))
  | .paramsOpen name, .symbol .rpar => some (s.goto (.arrow name []))
  | .paramTag name params, .name => some (s.goto (.paramName name params t.string))
  | .paramName name params tag, .name =>
    some (s.goto (.afterParam name (⟨tag, t.string⟩ :: params)))
  | .afterParam name params, .symbol .comma => some (s.goto (.paramTag name params))
  | .afterParam name params, .symbol .rpar => some (s.goto (.arrow name params))
  | .arrow name params, .symbol .arrow => some (s.goto (.returnTag name params))
  | .returnTag name params, .name =>
    some (s.goto (.blockOpen (.func name params.reverse t.string)))
  | _, _ => none

/-- A token where a block has to be opened. -/
def blockOpen? (s : State) (owner : Owner) (t : Token) : Option State :=
  match t.terminal with
  | .symbol .lbrace => some (s.openBlock owner)
  | _ => none

/-- A token where a condition has to be opened. -/
def conditionOpen? (s : State) (of : Conditional) (t : Token) : Option State :=
  match t.terminal with
  | .symbol .lpar => some (s.goto (.operand (.new (.condition of))))
  | _ => none

/-- The state after a token, unless the token cannot come next. -/
def feed? (s : State) (t : Token) : Option State :=
  match s.phase with
  | .start => s.item? t
  | .afterItem => s.item? t
  | .blockOpen owner => s.blockOpen? owner t
  | .statement => s.statement? t
  | .afterBlock branch => s.afterBlock? branch t
  | .conditionOpen of => s.conditionOpen? of t
  | .statementName name => s.statementName? name t
  | .declared tag name => s.declared? tag name t
  | .operand e => s.operand? e t
  | .arguments e => s.arguments? e t
  | .afterName name e => s.afterName? name e t
  | .afterOperand value e => s.afterOperand? value e t
  | phase => s.heading? phase t

end State

end Source

end SmallImp

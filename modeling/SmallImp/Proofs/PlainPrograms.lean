import SmallImp.Proofs.CodePoints
import SmallImp.Proofs.SourceSorts

/-!
# Programs without surrogates

The names of a program that is read from a text are made of characters. So are its literals, unless one
of them writes a surrogate by its code.

* `Expr.Each`, …, `Program.Each` — what holds of each literal and of each name of a program;
* `Program.PlainLiterals`, `Program.Plain` — no literal has a surrogate, and no name has one either;
* `Source.parse_plain` — a program of a text whose literals are plain is plain.
-/

namespace SmallImp

/-! ### Literals and names of a program -/

section

variable (ofLiteral : Literal → Prop) (ofName : Name → Prop)

mutual

/-- An expression without misfits, with what holds of each of its literals and names. -/
def Expr.Each : Expr → Prop
  | .lit value => ofLiteral value
  | .var name => ofName name
  | .binary left _ right => Expr.Each left ∧ Expr.Each right
  | .unary _ operand => Expr.Each operand
  | .call name args => ofName name ∧ Expr.AllEach args
  | .misfit _ => False

/-- Expressions, with what holds of each of their literals and names. -/
def Expr.AllEach : List Expr → Prop
  | [] => True
  | e :: rest => Expr.Each e ∧ Expr.AllEach rest

end

mutual

/-- A statement without misfits, with what holds of each of its literals, names and types. -/
def Stmt.Each : Stmt → Prop
  | .declare tag name start =>
    ofName tag ∧ ofName name ∧ ∀ e ∈ start, e.Each ofLiteral ofName
  | .assign name value => ofName name ∧ value.Each ofLiteral ofName
  | .branch condition yes no =>
    condition.Each ofLiteral ofName ∧ Block.Each yes ∧ Block.Each no
  | .loop condition body => condition.Each ofLiteral ofName ∧ Block.Each body
  | .ret value => value.Each ofLiteral ofName
  | .expr value => value.Each ofLiteral ofName
  | .block body => Stmt.AllEach body
  | .misfit _ => False

/-- A block without misfits, with what holds of each of its literals, names and types. -/
def Block.Each : Block → Prop
  | .stmts body => Stmt.AllEach body
  | .main body => Stmt.AllEach body
  | .absent => True
  | .misfit _ => False

/-- Statements, with what holds of each of their literals, names and types. -/
def Stmt.AllEach : List Stmt → Prop
  | [] => True
  | stmt :: rest => Stmt.Each stmt ∧ Stmt.AllEach rest

end

/-- A parameter, with what holds of its name and its type. -/
def Param.Each : Param → Prop
  | .param tag name => ofName tag ∧ ofName name
  | .misfit _ => False

/-- A function declaration, with what holds of each of its literals, names and types. -/
structure FuncDecl.Each (f : FuncDecl) : Prop where
  name : ofName f.name
  returnTag : ofName f.returnTag
  params : ∀ p ∈ f.params, p.Each ofName
  body : f.body.Each ofLiteral ofName

/-- A function, with what holds of each of its literals, names and types. -/
def Func.Each : Func → Prop
  | .decl f => f.Each ofLiteral ofName
  | .misfit _ => False

/-- A program, with what holds of each of its literals, names and types. -/
structure Program.Each (p : Program) : Prop where
  functions : ∀ func ∈ p.functions, func.Each ofLiteral ofName
  main : p.main.Each ofLiteral ofName

end

/-! ### Plain programs -/

/-- A literal without a surrogate. -/
def Literal.Plain : Literal → Prop
  | .str s => Codes.isPlain s = true
  | _ => True

/-- A name or a type that is a text of characters. -/
def Json.IsPlainText (name : Json) : Prop := ∃ s : String, name = .str s

theorem Json.IsPlainText.isPlain {name : Json} (h : name.IsPlainText) :
    Codes.isPlain name.text = true := by
  obtain ⟨s, rfl⟩ := h
  exact Codes.isPlain_ofString s

/-- No literal of the program has a surrogate. -/
abbrev Program.PlainLiterals (p : Program) : Prop := p.Each Literal.Plain fun _ => True

section

variable (e : Expr) (es : List Expr) (stmt : Stmt) (block : Block) (body : List Stmt) (param : Param)
variable (f : FuncDecl) (func : Func) (p : Program)

/-- Neither a literal nor a name of the expression has a surrogate. -/
abbrev Expr.Plain : Prop := e.Each Literal.Plain Json.IsPlainText

abbrev Expr.AllPlain : Prop := Expr.AllEach Literal.Plain Json.IsPlainText es

abbrev Stmt.Plain : Prop := stmt.Each Literal.Plain Json.IsPlainText

abbrev Block.Plain : Prop := block.Each Literal.Plain Json.IsPlainText

abbrev Stmt.AllPlain : Prop := Stmt.AllEach Literal.Plain Json.IsPlainText body

abbrev Param.Plain : Prop := param.Each Json.IsPlainText

abbrev FuncDecl.Plain : Prop := f.Each Literal.Plain Json.IsPlainText

abbrev Func.Plain : Prop := func.Each Literal.Plain Json.IsPlainText

/-- Neither a literal nor a name of the program has a surrogate. -/
abbrev Program.Plain : Prop := p.Each Literal.Plain Json.IsPlainText

end

/-! ### Programs of source texts -/

namespace Source

theorem text_isPlainText (name : String) : (Json.str name).IsPlainText := ⟨name, rfl⟩

variable [Host] {ofLiteral : Literal → Prop}

mutual

theorem ExprTree.build_each : ∀ (tree : ExprTree) {e : Expr}, tree.build = .ok e →
    e.Each ofLiteral (fun _ => True) → e.Each ofLiteral Json.IsPlainText
  | .literal rule token, e, h, he => by
    obtain ⟨value, -, ⟨⟩⟩ := bind_eq_ok.mp h
    exact he
  | .var name, e, h, he => by
    cases h
    exact text_isPlainText name
  | .binary left op right, e, h, he => by
    obtain ⟨x, hx, h⟩ := bind_eq_ok.mp h
    obtain ⟨y, hy, ⟨⟩⟩ := bind_eq_ok.mp h
    exact ⟨left.build_each hx he.1, right.build_each hy he.2⟩
  | .unary op operand, e, h, he => by
    obtain ⟨x, hx, ⟨⟩⟩ := bind_eq_ok.mp h
    rw [Expr.Each] at he ⊢
    exact operand.build_each hx he
  | .call name args, e, h, he => by
    obtain ⟨xs, hxs, ⟨⟩⟩ := bind_eq_ok.mp h
    exact ⟨text_isPlainText name, ExprTree.buildAll_each args hxs he.2⟩

theorem ExprTree.buildAll_each : ∀ (trees : List ExprTree) {es : List Expr},
    ExprTree.buildAll trees = .ok es → Expr.AllEach ofLiteral (fun _ => True) es →
      Expr.AllEach ofLiteral Json.IsPlainText es
  | [], es, h, hes => by
    cases h
    trivial
  | tree :: rest, es, h, hes => by
    obtain ⟨e, he, h⟩ := bind_eq_ok.mp h
    obtain ⟨others, hothers, ⟨⟩⟩ := bind_eq_ok.mp h
    exact ⟨tree.build_each he hes.1, ExprTree.buildAll_each rest hothers hes.2⟩

end

mutual

theorem StmtTree.build_each : ∀ (tree : StmtTree) {stmt : Stmt}, tree.build = .ok stmt →
    stmt.Each ofLiteral (fun _ => True) → stmt.Each ofLiteral Json.IsPlainText
  | .declare tag name, stmt, h, hstmt => by
    cases h
    exact ⟨text_isPlainText tag, text_isPlainText name, nofun⟩
  | .start tag name value, stmt, h, hstmt => by
    obtain ⟨e, he, ⟨⟩⟩ := bind_eq_ok.mp h
    refine ⟨text_isPlainText tag, text_isPlainText name, ?_⟩
    rintro _ ⟨rfl⟩
    exact value.build_each he (hstmt.2.2 e rfl)
  | .assign name value, stmt, h, hstmt => by
    obtain ⟨e, he, ⟨⟩⟩ := bind_eq_ok.mp h
    exact ⟨text_isPlainText name, value.build_each he hstmt.2⟩
  | .branch condition yes, stmt, h, hstmt => by
    obtain ⟨e, he, h⟩ := bind_eq_ok.mp h
    obtain ⟨body, hbody, ⟨⟩⟩ := bind_eq_ok.mp h
    exact ⟨condition.build_each he hstmt.1, StmtTree.buildAll_each yes hbody hstmt.2.1, trivial⟩
  | .branchElse condition yes no, stmt, h, hstmt => by
    obtain ⟨e, he, h⟩ := bind_eq_ok.mp h
    obtain ⟨body, hbody, h⟩ := bind_eq_ok.mp h
    obtain ⟨other, hother, ⟨⟩⟩ := bind_eq_ok.mp h
    exact ⟨condition.build_each he hstmt.1, StmtTree.buildAll_each yes hbody hstmt.2.1,
      StmtTree.buildAll_each no hother hstmt.2.2⟩
  | .loop condition body, stmt, h, hstmt => by
    obtain ⟨e, he, h⟩ := bind_eq_ok.mp h
    obtain ⟨stmts, hstmts, ⟨⟩⟩ := bind_eq_ok.mp h
    exact ⟨condition.build_each he hstmt.1, StmtTree.buildAll_each body hstmts hstmt.2⟩
  | .ret value, stmt, h, hstmt => by
    obtain ⟨e, he, ⟨⟩⟩ := bind_eq_ok.mp h
    exact value.build_each he hstmt
  | .expr value, stmt, h, hstmt => by
    obtain ⟨e, he, ⟨⟩⟩ := bind_eq_ok.mp h
    exact value.build_each he hstmt

theorem StmtTree.buildAll_each : ∀ (trees : List StmtTree) {body : List Stmt},
    StmtTree.buildAll trees = .ok body → Stmt.AllEach ofLiteral (fun _ => True) body →
      Stmt.AllEach ofLiteral Json.IsPlainText body
  | [], body, h, hbody => by
    cases h
    trivial
  | tree :: rest, body, h, hbody => by
    obtain ⟨stmt, hstmt, h⟩ := bind_eq_ok.mp h
    obtain ⟨stmts, hstmts, ⟨⟩⟩ := bind_eq_ok.mp h
    exact ⟨tree.build_each hstmt hbody.1, StmtTree.buildAll_each rest hstmts hbody.2⟩

end

/-- The function or the statements of an item, with what holds of each literal and name. -/
def Item.Each (ofLiteral : Literal → Prop) (ofName : Name → Prop) : Item → Prop
  | .func f => f.Each ofLiteral ofName
  | .main body => Stmt.AllEach ofLiteral ofName body

theorem ItemTree.build_each : ∀ (tree : ItemTree) {item : Item}, tree.build = .ok item →
    item.Each ofLiteral (fun _ => True) → item.Each ofLiteral Json.IsPlainText
  | .func name tag params body, item, h, hitem => by
    obtain ⟨stmts, hstmts, ⟨⟩⟩ := bind_eq_ok.mp h
    refine ⟨text_isPlainText name, text_isPlainText tag, ?_,
      StmtTree.buildAll_each body hstmts hitem.body⟩
    intro p hp
    obtain ⟨param, -, rfl⟩ := List.mem_map.mp hp
    exact ⟨text_isPlainText param.tag, text_isPlainText param.name⟩
  | .main body, item, h, hitem => by
    obtain ⟨stmts, hstmts, ⟨⟩⟩ := bind_eq_ok.mp h
    exact StmtTree.buildAll_each body hstmts hitem

theorem ItemTree.buildAll_each : ∀ (trees : List ItemTree) {items : List Item},
    ItemTree.buildAll trees = .ok items → ∀ item ∈ items,
      item.Each ofLiteral (fun _ => True) → item.Each ofLiteral Json.IsPlainText
  | [], items, h => by
    cases h
    exact nofun
  | tree :: rest, items, h => by
    obtain ⟨first, hfirst, h⟩ := bind_eq_ok.mp h
    obtain ⟨others, hothers, ⟨⟩⟩ := bind_eq_ok.mp h
    exact List.forall_mem_cons.mpr
      ⟨tree.build_each hfirst, ItemTree.buildAll_each rest hothers⟩

/-- **A program of a text whose literals have no surrogate has none at all.** -/
theorem parse_plain {text : String} {p : Program} (h : parse text = .ok p) (hp : p.PlainLiterals) :
    p.Plain := by
  obtain ⟨trees, items, hbuild, hassemble⟩ := parse_items h
  have hitems : ∀ item ∈ items, item.Each Literal.Plain (fun _ => True) →
      item.Each Literal.Plain Json.IsPlainText := ItemTree.buildAll_each trees hbuild
  obtain ⟨hfunctions, hmain⟩ := assemble_items hassemble
  refine ⟨fun f hf => hitems _ (hfunctions f hf) (hp.functions f hf), ?_⟩
  have hpmain := hp.main
  rcases hmain with hmain | ⟨body, hmain, hbody⟩
  · rw [hmain]
    trivial
  · rw [hmain] at hpmain ⊢
    exact hitems _ hbody hpmain

end Source

end SmallImp

import SmallImp.Proofs.Sorts
import SmallImp.Source.Parser

/-!
# Programs of source texts are well-sorted

Whatever tree a text is read as, each part that is made of it is of the sort that its place asks for:
names are texts, blocks stand where blocks are expected, and an integer literal that is too large is
refused when it is made.

* `LiteralRule.literal_inRange` — literals are in range;
* `ExprTree.build_sorted`, `StmtTree.build_sorted`, `ItemTree.build_sorted` — what is made of a tree;
* `parse_wellSorted` — the program of a text is well-sorted.
-/

namespace SmallImp.Source

/-- What is made in two steps is made by both of them. -/
theorem bind_eq_ok {ε α β : Type} {x : Except ε α} {f : α → Except ε β} {b : β} :
    (x >>= f) = .ok b ↔ ∃ a, x = .ok a ∧ f a = .ok b := by
  cases x with
  | error e => exact ⟨nofun, nofun⟩
  | ok a => exact ⟨fun h => ⟨a, rfl, h⟩, fun ⟨_, rfl, h⟩ => h⟩

theorem text_isText (name : String) : (Json.str name).IsText := ⟨name, rfl⟩

/-! ### Literals -/

theorem intLiteral_inRange {t : Token} {value : Literal} (h : intLiteral t = .ok value) :
    value.InRange := by
  rw [intLiteral] at h
  split at h
  · cases h
  · dsimp only at h
    split at h
    next hle =>
      cases h
      refine ⟨?_, hle⟩
      unfold minInt
      omega
    next => cases h

variable [Host]

theorem LiteralRule.literal_inRange {rule : LiteralRule} {t : Token} {value : Literal}
    (h : rule.literal t = .ok value) : value.InRange := by
  cases rule with
  | int => exact intLiteral_inRange h
  | float =>
    cases h
    trivial
  | yes =>
    cases h
    trivial
  | no =>
    cases h
    trivial
  | text =>
    rw [literal] at h
    cases hu : unescape (t.text.drop 1).dropLast with
    | ok text =>
      rw [hu] at h
      cases h
      trivial
    | error fault =>
      rw [hu] at h
      cases h

/-! ### Trees -/

mutual

theorem ExprTree.build_sorted : ∀ (tree : ExprTree) {e : Expr}, tree.build = .ok e → e.Sorted True
  | .literal rule token, e, h => by
    obtain ⟨value, hvalue, ⟨⟩⟩ := bind_eq_ok.mp h
    exact LiteralRule.literal_inRange hvalue
  | .var name, e, h => by
    cases h
    exact fun _ => text_isText name
  | .binary left op right, e, h => by
    obtain ⟨x, hx, h⟩ := bind_eq_ok.mp h
    obtain ⟨y, hy, ⟨⟩⟩ := bind_eq_ok.mp h
    exact ⟨left.build_sorted hx, right.build_sorted hy⟩
  | .unary op operand, e, h => by
    obtain ⟨x, hx, ⟨⟩⟩ := bind_eq_ok.mp h
    have hsorted : x.Sorted True := operand.build_sorted hx
    exact hsorted
  | .call name args, e, h => by
    obtain ⟨xs, hxs, ⟨⟩⟩ := bind_eq_ok.mp h
    exact ⟨fun _ => text_isText name, ExprTree.buildAll_sorted args hxs⟩

theorem ExprTree.buildAll_sorted : ∀ (trees : List ExprTree) {es : List Expr},
    ExprTree.buildAll trees = .ok es → Expr.AllSorted True es
  | [], es, h => by
    cases h
    trivial
  | tree :: rest, es, h => by
    obtain ⟨e, he, h⟩ := bind_eq_ok.mp h
    obtain ⟨es, hes, ⟨⟩⟩ := bind_eq_ok.mp h
    exact ⟨tree.build_sorted he, ExprTree.buildAll_sorted rest hes⟩

end

mutual

theorem StmtTree.build_sorted : ∀ (tree : StmtTree) {stmt : Stmt}, tree.build = .ok stmt →
    stmt.Sorted True
  | .declare tag name, stmt, h => by
    cases h
    exact ⟨fun _ => ⟨text_isText tag, text_isText name⟩, nofun⟩
  | .start tag name value, stmt, h => by
    obtain ⟨e, he, ⟨⟩⟩ := bind_eq_ok.mp h
    refine ⟨fun _ => ⟨text_isText tag, text_isText name⟩, ?_⟩
    rintro _ ⟨rfl⟩
    exact value.build_sorted he
  | .assign name value, stmt, h => by
    obtain ⟨e, he, ⟨⟩⟩ := bind_eq_ok.mp h
    exact ⟨fun _ => text_isText name, value.build_sorted he⟩
  | .branch condition yes, stmt, h => by
    obtain ⟨e, he, h⟩ := bind_eq_ok.mp h
    obtain ⟨body, hbody, ⟨⟩⟩ := bind_eq_ok.mp h
    exact ⟨condition.build_sorted he, StmtTree.buildAll_sorted yes hbody, fun _ => trivial⟩
  | .branchElse condition yes no, stmt, h => by
    obtain ⟨e, he, h⟩ := bind_eq_ok.mp h
    obtain ⟨body, hbody, h⟩ := bind_eq_ok.mp h
    obtain ⟨other, hother, ⟨⟩⟩ := bind_eq_ok.mp h
    exact ⟨condition.build_sorted he, StmtTree.buildAll_sorted yes hbody,
      StmtTree.buildAll_sorted no hother⟩
  | .loop condition body, stmt, h => by
    obtain ⟨e, he, h⟩ := bind_eq_ok.mp h
    obtain ⟨stmts, hstmts, ⟨⟩⟩ := bind_eq_ok.mp h
    exact ⟨condition.build_sorted he, StmtTree.buildAll_sorted body hstmts⟩
  | .ret value, stmt, h => by
    obtain ⟨e, he, ⟨⟩⟩ := bind_eq_ok.mp h
    exact value.build_sorted he
  | .expr value, stmt, h => by
    obtain ⟨e, he, ⟨⟩⟩ := bind_eq_ok.mp h
    exact value.build_sorted he

theorem StmtTree.buildAll_sorted : ∀ (trees : List StmtTree) {body : List Stmt},
    StmtTree.buildAll trees = .ok body → Stmt.AllSorted True body
  | [], body, h => by
    cases h
    trivial
  | tree :: rest, body, h => by
    obtain ⟨stmt, hstmt, h⟩ := bind_eq_ok.mp h
    obtain ⟨stmts, hstmts, ⟨⟩⟩ := bind_eq_ok.mp h
    exact ⟨tree.build_sorted hstmt, StmtTree.buildAll_sorted rest hstmts⟩

end

/-! ### Programs -/

/-- The function or the statements of an item are sorted. -/
def Item.Sorted : Item → Prop
  | .func f => f.Sorted True
  | .main body => Stmt.AllSorted True body

theorem ItemTree.build_sorted : ∀ (tree : ItemTree) {item : Item}, tree.build = .ok item →
    item.Sorted
  | .func name tag params body, item, h => by
    obtain ⟨stmts, hstmts, ⟨⟩⟩ := bind_eq_ok.mp h
    refine ⟨fun _ => ⟨text_isText name, text_isText tag⟩, ?_, StmtTree.buildAll_sorted body hstmts⟩
    intro p hp
    obtain ⟨param, -, rfl⟩ := List.mem_map.mp hp
    exact fun _ => ⟨text_isText param.tag, text_isText param.name⟩
  | .main body, item, h => by
    obtain ⟨stmts, hstmts, ⟨⟩⟩ := bind_eq_ok.mp h
    exact StmtTree.buildAll_sorted body hstmts

theorem ItemTree.buildAll_sorted : ∀ (trees : List ItemTree) {items : List Item},
    ItemTree.buildAll trees = .ok items → ∀ item ∈ items, item.Sorted
  | [], items, h => by
    cases h
    exact nofun
  | tree :: rest, items, h => by
    obtain ⟨first, hfirst, h⟩ := bind_eq_ok.mp h
    obtain ⟨others, hothers, ⟨⟩⟩ := bind_eq_ok.mp h
    exact List.forall_mem_cons.mpr
      ⟨tree.build_sorted hfirst, ItemTree.buildAll_sorted rest hothers⟩

omit [Host] in
/-- The parts of a program are the items that it is made of. -/
theorem assemble_items {items : List Item} {p : Program} (h : assemble items = .ok p) :
    (∀ f ∈ p.functions, Item.func f ∈ items) ∧
      (p.main = .absent ∨ ∃ body, p.main = .main body ∧ Item.main body ∈ items) := by
  have hfunctions : ∀ f ∈ items.filterMap Item.func?, Item.func f ∈ items := by
    intro f hf
    obtain ⟨item, hitem, hfunc⟩ := List.mem_filterMap.mp hf
    cases item with
    | func g =>
      cases hfunc
      exact hitem
    | main => cases hfunc
  have hmains : ∀ body ∈ items.filterMap Item.main?, Item.main body ∈ items := by
    intro body hbody
    obtain ⟨item, hitem, hmain⟩ := List.mem_filterMap.mp hbody
    cases item with
    | func => cases hmain
    | main stmts =>
      cases hmain
      exact hitem
  rw [assemble] at h
  split at h
  next =>
    cases h
    exact ⟨hfunctions, .inl rfl⟩
  next body heq =>
    cases h
    refine ⟨hfunctions, .inr ⟨body, rfl, hmains body ?_⟩⟩
    rw [heq]
    exact List.mem_singleton_self body
  next => cases h

/-- The program of a text is made of the items of a tree. -/
theorem parse_items {text : String} {p : Program} (h : parse text = .ok p) :
    ∃ trees items, ItemTree.buildAll trees = .ok items ∧ assemble items = .ok p := by
  rw [parse] at h
  split at h
  next => cases h
  next c _ =>
    obtain ⟨items, hitems, h⟩ := bind_eq_ok.mp h
    cases hbuild : ItemTree.buildAll c.state.items.reverse with
    | error fault =>
      rw [hbuild] at hitems
      cases hitems
    | ok made =>
      rw [hbuild] at hitems
      cases hitems
      exact ⟨_, items, hbuild, h⟩

/-- **The program of a text is well-sorted.** -/
theorem parse_wellSorted {text : String} {p : Program} (h : parse text = .ok p) : p.WellSorted := by
  obtain ⟨trees, items, hbuild, hassemble⟩ := parse_items h
  have hsorted := ItemTree.buildAll_sorted trees hbuild
  obtain ⟨hfunctions, hmain⟩ := assemble_items hassemble
  refine ⟨fun f hf => hsorted _ (hfunctions f hf), ?_⟩
  rcases hmain with hmain | ⟨body, hmain, hbody⟩
  · rw [hmain]
    trivial
  · rw [hmain]
    exact hsorted _ hbody

end SmallImp.Source

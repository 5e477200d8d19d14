import SmallImp.Proofs.Unambiguity

/-!
# What is made of a derivation

A program is made of the tree of a derivation node by node, and the first node that cannot be made ends
it. As the parts of a node are made from left to right and before it, the fault that ends it is that of
the first literal of the text without a value, however deep in the tree it stands.

* `literalFault?` — the fault of the first literal without a value;
* `Nonterminal.build` — what is made of the trees of a nonterminal;
* `Derivation.build_tree` — it is the image of the derivation, unless a literal has no value;
* `buildProgram_of_fault`, `buildProgram_of_values` — the same for whole programs.
-/

namespace SmallImp.Source

variable [Host]

/-! ### The first fault of a row of tokens -/

/-- The fault of the first literal, in the order of the text, that has no value. -/
def literalFault? (tokens : List Token) : Option LiteralFault := tokens.findSome? Token.fault?

@[simp] theorem literalFault?_nil : literalFault? [] = none := rfl

@[simp] theorem literalFault?_append (u v : List Token) :
    literalFault? (u ++ v) = (literalFault? u).or (literalFault? v) := List.findSome?_append

theorem Token.fault?_eq_none {t : Token} (h : t.terminal.literalRule? = none) : t.fault? = none := by
  rw [fault?, literal?, h, Option.map_none]

theorem literalFault?_cons {t : Token} (h : t.terminal.literalRule? = none) (rest : List Token) :
    literalFault? (t :: rest) = literalFault? rest := by
  rw [literalFault?, List.findSome?_cons, Token.fault?_eq_none h]
  rfl

theorem Leaf.literalFault?_cons {k : Terminal} (leaf : Leaf k) (h : k.literalRule? = none)
    (rest : List Token) : literalFault? (leaf.token :: rest) = literalFault? rest :=
  Source.literalFault?_cons (by rw [leaf.terminal_eq, h]) rest

@[simp] theorem literalFault?_name (name : Leaf .name) (rest : List Token) :
    literalFault? (name.token :: rest) = literalFault? rest := name.literalFault?_cons rfl rest

@[simp] theorem literalFault?_sign {s : Symbol} (sign : Sign s) (rest : List Token) :
    literalFault? (sign.token :: rest) = literalFault? rest := sign.literalFault?_cons rfl rest

@[simp] theorem literalFault?_word {k : Keyword} (word : Word k) (hk : k ≠ .true ∧ k ≠ .false)
    (rest : List Token) : literalFault? (word.token :: rest) = literalFault? rest := by
  refine word.literalFault?_cons ?_ rest
  cases k with
  | true => exact absurd rfl hk.1
  | false => exact absurd rfl hk.2
  | _ => rfl

theorem literalFault?_operator {l : Layer} {sign : Token} {op : BinaryOp}
    (h : (sign.terminal, op) ∈ l.operators) (rest : List Token) :
    literalFault? (sign :: rest) = literalFault? rest := by
  obtain ⟨s, hs, -⟩ := Layer.operator_ne h
  exact literalFault?_cons (by rw [hs]; rfl) rest

theorem literalFault?_unaryOperator {sign : Token} {op : UnaryOp}
    (h : (sign.terminal, op) ∈ unaryOperators) (rest : List Token) :
    literalFault? (sign :: rest) = literalFault? rest := by
  simp only [unaryOperators, List.mem_cons, Prod.mk.injEq, List.not_mem_nil, or_false] at h
  rcases h with ⟨hs, -⟩ | ⟨hs, -⟩
  · exact literalFault?_cons (by rw [hs]; rfl) rest
  · exact literalFault?_cons (by rw [hs]; rfl) rest

/-! ### Derivations -/

/-- What is made of the trees of a nonterminal. -/
def Nonterminal.build : (n : Nonterminal) → n.Tree → Except LiteralFault n.Image
  | .program, trees => ItemTree.buildAll trees
  | .item, tree => tree.build
  | .params, trees => .ok (trees.map ParamTree.build)
  | .paramList, trees => .ok (trees.map ParamTree.build)
  | .block, trees => StmtTree.buildAll trees
  | .statements, trees => StmtTree.buildAll trees
  | .statement, tree => tree.build
  | .layer _, tree => tree.build
  | .args, trees => ExprTree.buildAll trees
  | .argList, trees => ExprTree.buildAll trees

/-- A value, unless there is a fault. -/
def unlessFault {α : Type} (fault : Option LiteralFault) (value : α) : Except LiteralFault α :=
  match fault with
  | some fault => .error fault
  | none => .ok value

theorem LiteralRule.literal_eq {rule : LiteralRule} (leaf : Leaf rule.terminal) :
    rule.literal leaf.token = unlessFault leaf.token.fault? leaf.token.value := by
  rw [Token.fault?, Token.value, Token.literal?_eq leaf.terminal_eq]
  cases rule.literal leaf.token with
  | ok value => rfl
  | error fault => rfl

omit [Host] in
/-- The last part of a node. -/
@[simp] theorem unlessFault_map {α β : Type} (f : Option LiteralFault) (a : α) (k : α → β) :
    k <$> unlessFault f a = unlessFault f (k a) := by
  cases f <;> rfl

omit [Host] in
/-- A part of a node, with what is made of it and the parts after it. -/
@[simp] theorem unlessFault_bind {α β : Type} (f g : Option LiteralFault) (a : α) (k : α → β) :
    (unlessFault f a >>= fun a => unlessFault g (k a)) = unlessFault (f.or g) (k a) := by
  cases f <;> rfl

omit [Host] in
theorem eq_of_unlessFault {α : Type} {f : Option LiteralFault} {a b : α}
    (h : .ok a = unlessFault f b) : f = none ∧ b = a := by
  cases f with
  | some fault => cases h
  | none =>
    cases h
    exact ⟨rfl, rfl⟩

/-- **What is made of the tree of a derivation is its image**, unless a literal has no value: then it is
the fault of the first such literal of the text. -/
theorem Derivation.build_tree {n : Nonterminal} (d : Derivation n) :
    n.build d.tree = unlessFault (literalFault? d.yield) d.image := by
  induction d with
  | noItem => rfl
  | moreItems first rest hfirst hrest =>
    simp only [Nonterminal.build] at hfirst hrest ⊢
    simp [tree, yield, image, ItemTree.buildAll, hfirst, hrest]
  | function fn name lpar params rpar arrow tag body hparams hbody =>
    simp only [Nonterminal.build] at hparams hbody ⊢
    obtain ⟨hnone, himage⟩ := eq_of_unlessFault hparams
    simp [tree, yield, image, ItemTree.build, hbody, hnone, himage]
  | main word body hbody =>
    simp only [Nonterminal.build] at hbody ⊢
    simp [tree, yield, image, ItemTree.build, hbody]
  | noParam => rfl
  | someParams list hlist => exact hlist
  | lastParam tag name =>
    simp [Nonterminal.build, tree, yield, image]
    rfl
  | moreParams tag name comma rest hrest =>
    simp only [Nonterminal.build] at hrest ⊢
    obtain ⟨hnone, himage⟩ := eq_of_unlessFault hrest
    simp [tree, yield, image, hnone, himage]
    rfl
  | block lbrace body rbrace hbody =>
    simp only [Nonterminal.build] at hbody ⊢
    simp [tree, yield, image, hbody]
  | noStatement => rfl
  | moreStatements first rest hfirst hrest =>
    simp only [Nonterminal.build] at hfirst hrest ⊢
    simp [tree, yield, image, StmtTree.buildAll, hfirst, hrest]
  | declare tag name semicolon =>
    simp [Nonterminal.build, tree, yield, image, StmtTree.build]
    rfl
  | start tag name equal value semicolon hvalue =>
    simp only [Nonterminal.build] at hvalue ⊢
    simp [tree, yield, image, StmtTree.build, hvalue]
  | assign name equal value semicolon hvalue =>
    simp only [Nonterminal.build] at hvalue ⊢
    simp [tree, yield, image, StmtTree.build, hvalue]
  | branch word lpar condition rpar yes hcondition hyes =>
    simp only [Nonterminal.build] at hcondition hyes ⊢
    simp [tree, yield, image, StmtTree.build, hcondition, hyes]
  | branchElse word lpar condition rpar yes other no hcondition hyes hno =>
    simp only [Nonterminal.build] at hcondition hyes hno ⊢
    simp [tree, yield, image, StmtTree.build, hcondition, hyes, hno]
  | loop word lpar condition rpar body hcondition hbody =>
    simp only [Nonterminal.build] at hcondition hbody ⊢
    simp [tree, yield, image, StmtTree.build, hcondition, hbody]
  | ret word value semicolon hvalue =>
    simp only [Nonterminal.build] at hvalue ⊢
    simp [tree, yield, image, StmtTree.build, hvalue]
  | expr value semicolon hvalue =>
    simp only [Nonterminal.build] at hvalue ⊢
    simp [tree, yield, image, StmtTree.build, hvalue]
  | pass notLast operand hoperand => exact hoperand
  | binary left sign op isOperator right hleft hright =>
    simp only [Nonterminal.build] at hleft hright ⊢
    simp [tree, yield, image, ExprTree.build, hleft, hright, literalFault?_operator isOperator]
  | unary sign op isOperator operand hoperand =>
    simp only [Nonterminal.build] at hoperand ⊢
    simp [tree, yield, image, ExprTree.build, hoperand, literalFault?_unaryOperator isOperator]
  | literal rule leaf =>
    simp [Nonterminal.build, tree, yield, image, ExprTree.build, LiteralRule.literal_eq leaf,
      literalFault?]
  | call name lpar args rpar hargs =>
    simp only [Nonterminal.build] at hargs ⊢
    simp [tree, yield, image, ExprTree.build, hargs]
  | var name =>
    simp [Nonterminal.build, tree, yield, image, ExprTree.build]
    rfl
  | group lpar inner rpar hinner =>
    simp only [Nonterminal.build] at hinner ⊢
    simp [tree, yield, image, hinner]
  | noArg => rfl
  | someArgs list hlist => exact hlist
  | lastArg value hvalue =>
    simp only [Nonterminal.build] at hvalue ⊢
    simp [tree, yield, image, ExprTree.buildAll, hvalue]
  | moreArgs value comma rest hvalue hrest =>
    simp only [Nonterminal.build] at hvalue hrest ⊢
    simp [tree, yield, image, ExprTree.buildAll, hvalue, hrest]

/-- A literal without a value ends the making of a program. -/
theorem buildProgram_of_fault {d : Derivation .program} {fault : LiteralFault}
    (h : literalFault? d.yield = some fault) : buildProgram d.tree = .error (.literal fault) := by
  have hbuild : ItemTree.buildAll d.tree = _ := d.build_tree
  rw [buildProgram, hbuild, h]
  rfl

/-- If all literals have values, it is left to put the items together. -/
theorem buildProgram_of_values {d : Derivation .program} (h : literalFault? d.yield = none) :
    buildProgram d.tree = assemble d.image := by
  have hbuild : ItemTree.buildAll d.tree = _ := d.build_tree
  rw [buildProgram, hbuild, h]
  rfl

end SmallImp.Source

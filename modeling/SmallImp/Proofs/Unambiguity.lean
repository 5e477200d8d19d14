import SmallImp.Proofs.Grammar
import SmallImp.Source.Context

/-!
# The grammar is unambiguous

A row of tokens has at most one derivation. The statement that goes through an induction is about the
beginning of a row: a derivation of some beginning is determined, if what follows it cannot go on
with it.

* `Nonterminal.Continues` — the terminals that could go on with a nonterminal;
* `UniqueIn` — the derivation of a beginning of a row of tokens is determined;
* `Derivation.extend` — a binary layer is a chain of operands of the next layer;
* `Derivation.yield_injective` — a derivation is determined by its tokens.
-/

namespace SmallImp.Source

/-! ### What can go on -/

/-- The layers that have binary operators. -/
def Layer.IsBinary (l : Layer) : Prop := l ≠ .unary ∧ l ≠ .primary

theorem Layer.IsBinary.depth_lt {l : Layer} (h : l.IsBinary) : l.depth < l.tighter.depth := by
  have hdepth := depth_tighter h.2
  omega

/-- The terminals that go on with an expression of a layer: the parenthesis that makes a name a call,
and the operators that bind at least as tightly. -/
def Layer.Continues (l : Layer) (k : Terminal) : Prop :=
  k = .symbol .lpar ∨ ∃ m : Layer, l.depth ≤ m.depth ∧ ∃ op, (k, op) ∈ m.operators

/-- The terminals that could go on with what a nonterminal derives. -/
def Nonterminal.Continues : Nonterminal → Terminal → Prop
  | .program, k => k = .keyword .fn ∨ k = .keyword .main
  | .item, _ => False
  | .params, k => k = .name ∨ k = .symbol .comma
  | .paramList, k => k = .symbol .comma
  | .block, _ => False
  | .statements, k => k ≠ .symbol .rbrace
  | .statement, k => k = .keyword .else
  | .layer l, k => l.Continues k
  | .args, k => k ≠ .symbol .rpar
  | .argList, k => k = .symbol .comma ∨ Layer.disjunction.Continues k

/-- A row of tokens whose first one does not go on with a nonterminal. -/
def Nonterminal.Ends (n : Nonterminal) (r : List Token) : Prop :=
  ∀ t rest, r = t :: rest → ¬n.Continues t.terminal

/-- A derivation of a beginning of `w` is determined, if what follows does not go on with it. -/
def UniqueIn (w : List Token) (n : Nonterminal) : Prop :=
  ∀ (d d' : Derivation n) (r r' : List Token), d.yield ++ r = w → d'.yield ++ r' = w →
    n.Ends r → n.Ends r' → d = d' ∧ r = r'

theorem Nonterminal.ends_nil (n : Nonterminal) : n.Ends [] := by
  intro t rest h
  cases h

theorem Nonterminal.ends_cons {n : Nonterminal} {t : Token} {rest : List Token} :
    n.Ends (t :: rest) ↔ ¬n.Continues t.terminal := by
  constructor
  · intro h
    exact h t rest rfl
  · intro h u rest' hu
    cases hu
    exact h

/-- Tokens of different terminals differ. -/
@[simp] theorem Leaf.token_ne_token {k k' : Terminal} (h : k ≠ k') (a : Leaf k) (b : Leaf k') :
    a.token ≠ b.token := by
  intro hab
  exact h (by rw [← a.terminal_eq, ← b.terminal_eq, hab])

@[simp] theorem Leaf.token_inj {k : Terminal} {a b : Leaf k} : a.token = b.token ↔ a = b :=
  ⟨Leaf.ext, congrArg Leaf.token⟩

/-! ### Operators of the layers -/

theorem Layer.layer_of_operator {l m : Layer} {k : Terminal} {op op' : BinaryOp}
    (h : (k, op) ∈ l.operators) (h' : (k, op') ∈ m.operators) : l = m ∧ op = op' := by
  cases l <;> cases m <;> simp [operators] at h h' <;> grind

theorem Layer.operator_ne {l : Layer} {k : Terminal} {op : BinaryOp} (h : (k, op) ∈ l.operators) :
    ∃ s, k = .symbol s ∧ s ≠ .lpar ∧ s ≠ .rpar ∧ s ≠ .comma ∧ s ≠ .semicolon ∧ s ≠ .equal := by
  cases l <;> simp [operators] at h <;> grind

/-- An operator does not go on with a tighter layer. -/
theorem Layer.not_continues_operator {l m : Layer} {k : Terminal} {op : BinaryOp}
    (h : (k, op) ∈ l.operators) (hm : l.depth < m.depth) : ¬m.Continues k := by
  rintro (rfl | ⟨m', hle, op', h'⟩)
  · obtain ⟨s, hs, hne, -⟩ := operator_ne h
    cases hs
    exact hne rfl
  · obtain ⟨rfl, -⟩ := layer_of_operator h h'
    omega

theorem Layer.not_continues_symbol {l : Layer} {s : Symbol}
    (h : s = .rpar ∨ s = .comma ∨ s = .semicolon ∨ s = .equal) : ¬l.Continues (.symbol s) := by
  rintro (hk | ⟨m, -, op, hop⟩)
  · cases hk
    simp at h
  · obtain ⟨s', hs, hne⟩ := operator_ne hop
    cases hs
    grind

theorem Layer.not_continues_name {l : Layer} : ¬l.Continues .name := by
  rintro (hk | ⟨m, -, op, hop⟩)
  · cases hk
  · obtain ⟨s, hs, -⟩ := operator_ne hop
    cases hs

theorem Layer.Continues.of_tighter {l m : Layer} {k : Terminal} (hm : m.depth ≤ l.depth)
    (h : l.Continues k) : m.Continues k := by
  rcases h with rfl | ⟨m', hle, op, hop⟩
  · exact .inl rfl
  · exact .inr ⟨m', by omega, op, hop⟩

/-! ### First tokens -/

/-- The terminals that start an operand which nothing takes apart. -/
def startsPrimary (k : Terminal) : Prop :=
  k ∈ literalTerminals ∨ k = .name ∨ k = .symbol .lpar

/-- The productions of the last layer. -/
@[elab_as_elim]
theorem Derivation.primary_cases {motive : Derivation (.layer .primary) → Prop}
    (literal : ∀ rule leaf, motive (.literal rule leaf))
    (call : ∀ name lpar args rpar, motive (.call name lpar args rpar))
    (var : ∀ name, motive (.var name))
    (group : ∀ lpar inner rpar, motive (.group lpar inner rpar))
    (d : Derivation (.layer .primary)) : motive d := by
  cases d with
  | pass notLast operand => exact absurd rfl notLast
  | binary left sign op isOperator right => simp [Layer.operators] at isOperator
  | literal rule leaf => exact literal rule leaf
  | call name lpar args rpar => exact call name lpar args rpar
  | var name => exact var name
  | group lpar inner rpar => exact group lpar inner rpar

/-- The productions of the layer of unary operators. -/
@[elab_as_elim]
theorem Derivation.unary_cases {motive : Derivation (.layer .unary) → Prop}
    (pass : ∀ operand, motive (.pass (by decide) operand))
    (unary : ∀ sign op isOperator operand, motive (.unary sign op isOperator operand))
    (d : Derivation (.layer .unary)) : motive d := by
  cases d with
  | pass notLast operand => exact pass operand
  | binary left sign op isOperator right => simp [Layer.operators] at isOperator
  | unary sign op isOperator operand => exact unary sign op isOperator operand

theorem primary_head (d : Derivation (.layer .primary)) :
    ∃ t rest, d.yield = t :: rest ∧ startsPrimary t.terminal := by
  cases d using Derivation.primary_cases with
  | literal rule leaf => exact ⟨leaf.token, [], rfl, .inl leaf.mem_literalTerminals⟩
  | call name lpar args rpar => exact ⟨name.token, _, rfl, .inr (.inl name.terminal_eq)⟩
  | var name => exact ⟨name.token, [], rfl, .inr (.inl name.terminal_eq)⟩
  | group lpar inner rpar => exact ⟨lpar.token, _, rfl, .inr (.inr lpar.terminal_eq)⟩

theorem startsOperand_of_startsPrimary {k : Terminal} (h : startsPrimary k) :
    k.startsOperand = true := by
  rcases h with h | rfl | rfl
  · simp only [literalTerminals, List.mem_cons, List.not_mem_nil, or_false] at h
    rcases h with rfl | rfl | rfl | rfl | rfl <;> rfl
  · rfl
  · rfl

/-- An expression starts with a token that can start an operand. -/
theorem layer_head {l : Layer} :
    ∀ d : Derivation (.layer l), ∃ t rest, d.yield = t :: rest ∧ t.terminal.startsOperand = true
  | .pass _ operand => layer_head operand
  | .binary left sign op isOperator right => by
    obtain ⟨t, rest, hyield, ht⟩ := layer_head left
    exact ⟨t, rest ++ sign :: right.yield, by rw [Derivation.yield, hyield]; rfl, ht⟩
  | .unary sign op isOperator operand => by
    refine ⟨sign, operand.yield, rfl, ?_⟩
    simp only [unaryOperators, List.mem_cons, Prod.mk.injEq, List.not_mem_nil, or_false] at isOperator
    rcases isOperator with ⟨h, -⟩ | ⟨h, -⟩ <;> rw [h] <;> rfl
  | .literal rule leaf =>
    ⟨leaf.token, [], rfl, startsOperand_of_startsPrimary (.inl leaf.mem_literalTerminals)⟩
  | .call name lpar args rpar =>
    ⟨name.token, _, rfl, startsOperand_of_startsPrimary (.inr (.inl name.terminal_eq))⟩
  | .var name =>
    ⟨name.token, [], rfl, startsOperand_of_startsPrimary (.inr (.inl name.terminal_eq))⟩
  | .group lpar inner rpar =>
    ⟨lpar.token, _, rfl, startsOperand_of_startsPrimary (.inr (.inr lpar.terminal_eq))⟩

/-! ### Binary layers as chains -/

/-- An operator of a layer with its right operand. -/
structure Link (l : Layer) where
  sign : Token
  op : BinaryOp
  isOperator : (sign.terminal, op) ∈ l.operators
  operand : Derivation (.layer l.tighter)

/-- The tokens of a link. -/
def Link.yield {l : Layer} (link : Link l) : List Token := link.sign :: link.operand.yield

/-- A derivation followed by links. -/
def Derivation.extend {l : Layer} (d : Derivation (.layer l)) (links : List (Link l)) :
    Derivation (.layer l) :=
  links.foldl (fun d link => .binary d link.sign link.op link.isOperator link.operand) d

theorem Derivation.yield_extend {l : Layer} (links : List (Link l)) :
    ∀ d : Derivation (.layer l), (d.extend links).yield = d.yield ++ links.flatMap Link.yield := by
  induction links with
  | nil => simp [extend]
  | cons link rest ih =>
    intro d
    show (extend (.binary d link.sign link.op link.isOperator link.operand) rest).yield = _
    rw [ih]
    simp [yield, Link.yield]

/-- A binary layer is an operand of the next layer, followed by links. -/
theorem exists_links : ∀ {l : Layer} (hl : l.IsBinary) (d : Derivation (.layer l)),
    ∃ head links, d = Derivation.extend (.pass hl.2 head) links
  | _, _, .pass _ operand => ⟨operand, [], rfl⟩
  | _, hl, .binary left sign op isOperator right => by
    obtain ⟨head, links, rfl⟩ := exists_links hl left
    refine ⟨head, links ++ [⟨sign, op, isOperator, right⟩], ?_⟩
    simp [Derivation.extend]
  | _, hl, .unary _ _ _ _ => absurd rfl hl.1
  | _, hl, .literal _ _ => absurd rfl hl.2
  | _, hl, .call _ _ _ _ => absurd rfl hl.2
  | _, hl, .var _ => absurd rfl hl.2
  | _, hl, .group _ _ _ => absurd rfl hl.2

/-- What follows an operand in a chain does not go on with the next layer. -/
theorem ends_links {l : Layer} (hl : l.IsBinary) (links : List (Link l)) {r : List Token}
    (hr : (Nonterminal.layer l).Ends r) :
    (Nonterminal.layer l.tighter).Ends (links.flatMap Link.yield ++ r) := by
  cases links with
  | nil =>
    intro t rest hrest hc
    exact hr t rest hrest (Layer.Continues.of_tighter (Nat.le_of_lt hl.depth_lt) hc)
  | cons link links =>
    simp only [List.flatMap_cons, Link.yield, List.cons_append]
    exact Nonterminal.ends_cons.mpr (Layer.not_continues_operator link.isOperator hl.depth_lt)

/-- The links of a chain are determined, if operands of the next layer are. -/
theorem links_unique {l : Layer} (hl : l.IsBinary) {r r' : List Token}
    (hr : (Nonterminal.layer l).Ends r) (hr' : (Nonterminal.layer l).Ends r') :
    ∀ (links links' : List (Link l)) (w : List Token),
      (∀ v : List Token, v.length ≤ w.length → UniqueIn v (.layer l.tighter)) →
      links.flatMap Link.yield ++ r = w → links'.flatMap Link.yield ++ r' = w →
      links = links' ∧ r = r' := by
  -- the operators that start the links are the same, and after each of them the operands are
  intro links
  induction links with
  | nil =>
    intro links' w _ h h'
    cases links' with
    | nil => exact ⟨rfl, by simpa using h.trans h'.symm⟩
    | cons link' rest' =>
      have hsign : r = link'.sign :: (link'.operand.yield ++ (rest'.flatMap Link.yield ++ r')) := by
        simpa [Link.yield] using h.trans h'.symm
      exact absurd (.inr ⟨l, Nat.le_refl _, link'.op, link'.isOperator⟩) (hr _ _ hsign)
  | cons link rest ih =>
    intro links' w hu h h'
    cases links' with
    | nil =>
      have hsign : r' = link.sign :: (link.operand.yield ++ (rest.flatMap Link.yield ++ r)) := by
        simpa [Link.yield] using h'.trans h.symm
      exact absurd (.inr ⟨l, Nat.le_refl _, link.op, link.isOperator⟩) (hr' _ _ hsign)
    | cons link' rest' =>
      obtain ⟨sign, op, isOperator, operand⟩ := link
      obtain ⟨sign', op', isOperator', operand'⟩ := link'
      simp only [List.flatMap_cons, Link.yield, List.cons_append, List.append_assoc] at h h'
      obtain ⟨v, rfl⟩ : ∃ v, w = sign :: v := ⟨_, h.symm⟩
      injection h with _ h
      injection h' with hsign h'
      subst hsign
      obtain ⟨-, rfl⟩ := Layer.layer_of_operator isOperator isOperator'
      have hlength : v.length ≤ (sign' :: v).length := by simp
      obtain ⟨rfl, hrest⟩ := hu v hlength operand operand' _ _ h h' (ends_links hl rest hr)
        (ends_links hl rest' hr')
      have hshort : (rest.flatMap Link.yield ++ r).length ≤ (sign' :: v).length := by
        rw [← h]
        simp only [List.length_cons, List.length_append]
        omega
      obtain ⟨rfl, rfl⟩ := ih rest' _ (fun u hle => hu u (Nat.le_trans hle hshort)) rfl hrest.symm
      exact ⟨rfl, rfl⟩

/-- A binary layer is determined, if the next one is. -/
theorem binary_unique {l : Layer} (hl : l.IsBinary) {w : List Token}
    (hu : ∀ v : List Token, v.length ≤ w.length → UniqueIn v (.layer l.tighter)) :
    UniqueIn w (.layer l) := by
  intro d d' r r' h h' hr hr'
  obtain ⟨head, links, rfl⟩ := exists_links hl d
  obtain ⟨head', links', rfl⟩ := exists_links hl d'
  rw [Derivation.yield_extend, List.append_assoc] at h h'
  obtain ⟨rfl, hrest⟩ := hu w (Nat.le_refl _) head head' _ _ h h' (ends_links hl links hr)
    (ends_links hl links' hr')
  have hshort : (links.flatMap Link.yield ++ r).length ≤ w.length := by
    rw [← h]
    simp
  obtain ⟨rfl, rfl⟩ := links_unique hl hr hr' links links' _
    (fun v hle => hu v (Nat.le_trans hle hshort)) rfl hrest.symm
  exact ⟨rfl, rfl⟩

/-! ### Operands -/

/-- A literal is not a token of another terminal. -/
theorem literal_ne_token {k : Terminal} {t : Token} (ht : t.terminal ∈ literalTerminals)
    (hk : k ∉ literalTerminals) (leaf : Leaf k) : t ≠ leaf.token := by
  rintro rfl
  rw [leaf.terminal_eq] at ht
  exact hk ht

/-- Two derivations of beginnings of a row that end before tokens of the same terminal. -/
theorem UniqueIn.before {n : Nonterminal} {k : Terminal} (hk : ¬n.Continues k) {d d' : Derivation n}
    {a a' : Leaf k} {r r' : List Token} (hu : UniqueIn (d.yield ++ a.token :: r) n)
    (h : d.yield ++ a.token :: r = d'.yield ++ a'.token :: r') : d = d' ∧ a = a' ∧ r = r' := by
  have hends : ∀ (leaf : Leaf k) (rest : List Token), n.Ends (leaf.token :: rest) := by
    intro leaf rest
    rw [Nonterminal.ends_cons, leaf.terminal_eq]
    exact hk
  have hd := hu d d' _ _ rfl h.symm (hends a r) (hends a' r')
  simpa using hd

theorem rpar_ends_args : ¬Nonterminal.args.Continues (.symbol .rpar) := by
  simp [Nonterminal.Continues]

theorem rpar_ends_params : ¬Nonterminal.params.Continues (.symbol .rpar) := by
  simp [Nonterminal.Continues]

theorem rbrace_ends_statements : ¬Nonterminal.statements.Continues (.symbol .rbrace) := by
  simp [Nonterminal.Continues]

theorem rpar_ends_expression : ¬Nonterminal.expression.Continues (.symbol .rpar) :=
  Layer.not_continues_symbol (.inl rfl)

theorem semicolon_ends_expression : ¬Nonterminal.expression.Continues (.symbol .semicolon) :=
  Layer.not_continues_symbol (.inr (.inr (.inl rfl)))

/-- A name before an opening parenthesis is a call. -/
theorem not_ends_lpar {l : Layer} {lpar : Sign .lpar} {rest : List Token} :
    ¬(Nonterminal.layer l).Ends (lpar.token :: rest) := by
  rw [Nonterminal.ends_cons, lpar.terminal_eq, not_not]
  exact .inl rfl

theorem not_startsPrimary_of_unary {k : Terminal} {op : UnaryOp} (h : (k, op) ∈ unaryOperators) :
    ¬startsPrimary k := by
  simp only [unaryOperators, List.mem_cons, Prod.mk.injEq, List.not_mem_nil, or_false] at h
  rcases h with ⟨rfl, -⟩ | ⟨rfl, -⟩ <;> simp [startsPrimary, literalTerminals]

theorem unaryOperator_unique {k : Terminal} {op op' : UnaryOp} (h : (k, op) ∈ unaryOperators)
    (h' : (k, op') ∈ unaryOperators) : op = op' := by
  simp only [unaryOperators, List.mem_cons, Prod.mk.injEq, List.not_mem_nil, or_false] at h h'
  rcases h with ⟨rfl, rfl⟩ | ⟨rfl, rfl⟩ <;> simp at h' <;> exact h'.symm

section

variable {w : List Token} (ih : ∀ v : List Token, v.length < w.length → ∀ n, UniqueIn v n)

include ih

theorem primary_unique : UniqueIn w (.layer .primary) := by
  intro d d' r r' h h' hr hr'
  cases d using Derivation.primary_cases <;> cases d' using Derivation.primary_cases <;>
    simp only [Derivation.yield, List.cons_append, List.append_assoc, List.nil_append] at h h'
  case literal.literal rule leaf rule' leaf' =>
    obtain ⟨htoken, rfl⟩ := List.cons.inj (h.trans h'.symm)
    obtain rfl : rule = rule' :=
      LiteralRule.terminal_injective (by rw [← leaf.terminal_eq, htoken, leaf'.terminal_eq])
    obtain rfl := Leaf.ext htoken
    exact ⟨rfl, rfl⟩
  case call.call name lpar args rpar name' lpar' args' rpar' =>
    subst h
    simp only [List.cons.injEq, Leaf.token_inj] at h'
    obtain ⟨rfl, rfl, hrest⟩ := h'
    obtain ⟨rfl, rfl, rfl⟩ := (ih _ (by simp only [List.length_cons, List.length_append]; omega) .args).before rpar_ends_args hrest.symm
    exact ⟨rfl, rfl⟩
  case call.var name lpar args rpar name' =>
    have same := h.trans h'.symm
    rw [← (List.cons.inj same).2] at hr'
    exact absurd hr' not_ends_lpar
  case var.call name name' lpar' args' rpar' =>
    have same := h.trans h'.symm
    rw [(List.cons.inj same).2] at hr
    exact absurd hr not_ends_lpar
  case var.var name name' =>
    have same := h.trans h'.symm
    simp only [List.cons.injEq, Leaf.token_inj] at same
    simp [same]
  case group.group lpar inner rpar lpar' inner' rpar' =>
    subst h
    simp only [List.cons.injEq, Leaf.token_inj] at h'
    obtain ⟨rfl, hrest⟩ := h'
    obtain ⟨rfl, rfl, rfl⟩ := (ih _ (by simp) .expression).before rpar_ends_expression hrest.symm
    exact ⟨rfl, rfl⟩
  -- the first tokens of the other pairs are of different terminals
  case literal.call rule leaf name' lpar' args' rpar' =>
    exact absurd (List.cons.inj (h.trans h'.symm)).1 (literal_ne_token leaf.mem_literalTerminals (by decide) name')
  case literal.var rule leaf name' =>
    exact absurd (List.cons.inj (h.trans h'.symm)).1 (literal_ne_token leaf.mem_literalTerminals (by decide) name')
  case literal.group rule leaf lpar' inner' rpar' =>
    exact absurd (List.cons.inj (h.trans h'.symm)).1 (literal_ne_token leaf.mem_literalTerminals (by decide) lpar')
  case call.literal name lpar args rpar rule' leaf' =>
    exact absurd (List.cons.inj (h'.trans h.symm)).1 (literal_ne_token leaf'.mem_literalTerminals (by decide) name)
  case var.literal name rule' leaf' =>
    exact absurd (List.cons.inj (h'.trans h.symm)).1 (literal_ne_token leaf'.mem_literalTerminals (by decide) name)
  case group.literal lpar inner rpar rule' leaf' =>
    exact absurd (List.cons.inj (h'.trans h.symm)).1 (literal_ne_token leaf'.mem_literalTerminals (by decide) lpar)
  all_goals
    have same := h.trans h'.symm
    simp at same

theorem unary_unique (hp : UniqueIn w (.layer .primary)) : UniqueIn w (.layer .unary) := by
  intro d d' r r' h h' hr hr'
  have hmono : ∀ {r : List Token}, (Nonterminal.layer .unary).Ends r →
      (Nonterminal.layer .primary).Ends r := by
    intro r hr t rest hrest hc
    exact hr t rest hrest (Layer.Continues.of_tighter (by decide) hc)
  subst h
  cases d using Derivation.unary_cases with
  | pass operand =>
    cases d' using Derivation.unary_cases with
    | pass operand' =>
      obtain ⟨rfl, rfl⟩ := hp operand operand' r r' rfl h' (hmono hr) (hmono hr')
      exact ⟨rfl, rfl⟩
    | unary sign' op' isOperator' operand' =>
      obtain ⟨t, rest, hyield, ht⟩ := primary_head operand
      have hcons : sign' :: (operand'.yield ++ r') = t :: (rest ++ r) :=
        h'.trans (congrArg (· ++ r) hyield)
      injection hcons with hsign
      rw [hsign] at isOperator'
      exact absurd ht (not_startsPrimary_of_unary isOperator')
  | unary sign op isOperator operand =>
    cases d' using Derivation.unary_cases with
    | pass operand' =>
      obtain ⟨t, rest, hyield, ht⟩ := primary_head operand'
      have hcons : sign :: (operand.yield ++ r) = t :: (rest ++ r') :=
        h'.symm.trans (congrArg (· ++ r') hyield)
      injection hcons with hsign
      rw [hsign] at isOperator
      exact absurd ht (not_startsPrimary_of_unary isOperator)
    | unary sign' op' isOperator' operand' =>
      simp only [Derivation.yield, List.cons_append, List.cons.injEq] at h'
      obtain ⟨rfl, hrest⟩ := h'
      obtain rfl := unaryOperator_unique isOperator isOperator'
      have hshort : (operand.yield ++ r).length <
          ((Derivation.unary sign' op isOperator operand).yield ++ r).length := by
        simp [Derivation.yield]
      obtain ⟨rfl, rfl⟩ := ih _ hshort _ operand operand' r r' rfl hrest hr hr'
      exact ⟨rfl, rfl⟩

end

/-- Every layer is determined in a row, if everything is determined in shorter ones. The layers are
gone through from the last one back. -/
theorem layer_unique (l : Layer) {w : List Token}
    (ih : ∀ v : List Token, v.length < w.length → ∀ n, UniqueIn v n) : UniqueIn w (.layer l) := by
  by_cases hprimary : l = .primary
  · subst hprimary
    exact primary_unique ih
  · by_cases hunary : l = .unary
    · subst hunary
      exact unary_unique ih (primary_unique ih)
    · have hl : l.IsBinary := ⟨hunary, hprimary⟩
      have hlt := hl.depth_lt
      refine binary_unique hl fun v hle => ?_
      exact layer_unique l.tighter fun u hu => ih u (Nat.lt_of_lt_of_le hu hle)
termination_by 7 - l.depth
decreasing_by
  have hbound : l.tighter.depth ≤ 7 := by cases l <;> decide
  omega

/-! ### Lists, statements and items -/

theorem Nonterminal.Ends.expression_of_argList {r : List Token} (h : Nonterminal.argList.Ends r) :
    Nonterminal.expression.Ends r := by
  intro t rest hrest hc
  exact h t rest hrest (.inr hc)

theorem comma_ends_expression : ¬Nonterminal.expression.Continues (.symbol .comma) :=
  Layer.not_continues_symbol (.inr (.inl rfl))

/-- A name alone is an expression. -/
theorem exists_expression_of_name (name : Leaf .name) :
    ∃ d : Derivation .expression, d.yield = [name.token] := by
  have hvar : Spells (.layer .primary) (.var name.spelled) [name.token] := ⟨.var name, rfl, rfl⟩
  obtain ⟨d, -, hd⟩ := hvar.loosen (m := .disjunction) (by decide)
  exact ⟨d, hd⟩

/-- An expression does not start with a token that starts no operand. -/
theorem expression_ne_leaf {k : Terminal} (hk : k.startsOperand = false) (leaf : Leaf k)
    (value : Derivation .expression) (r rest : List Token) :
    value.yield ++ r ≠ leaf.token :: rest := by
  intro h
  obtain ⟨t, tail, hyield, ht⟩ := layer_head value
  rw [hyield, List.cons_append, List.cons.injEq] at h
  rw [h.1, leaf.terminal_eq, hk] at ht
  cases ht

theorem block_ends (r : List Token) : Nonterminal.block.Ends r := fun _ _ _ hc => hc

theorem item_ends (r : List Token) : Nonterminal.item.Ends r := fun _ _ _ hc => hc

theorem statement_head (d : Derivation .statement) : ∃ t rest, d.yield = t :: rest ∧
    t.terminal ≠ .symbol .rbrace ∧ t.terminal ≠ .keyword .else := by
  cases d with
  | declare tag name semicolon => exact ⟨tag.token, _, rfl, by simp [tag.terminal_eq]⟩
  | start tag name equal value semicolon => exact ⟨tag.token, _, rfl, by simp [tag.terminal_eq]⟩
  | assign name equal value semicolon => exact ⟨name.token, _, rfl, by simp [name.terminal_eq]⟩
  | branch word lpar condition rpar yes => exact ⟨word.token, _, rfl, by simp [word.terminal_eq]⟩
  | branchElse word lpar condition rpar yes other no =>
    exact ⟨word.token, _, rfl, by simp [word.terminal_eq]⟩
  | loop word lpar condition rpar body => exact ⟨word.token, _, rfl, by simp [word.terminal_eq]⟩
  | ret word value semicolon => exact ⟨word.token, _, rfl, by simp [word.terminal_eq]⟩
  | expr value semicolon =>
    obtain ⟨t, rest, hyield, ht⟩ := layer_head value
    refine ⟨t, rest ++ [semicolon.token], by rw [Derivation.yield, hyield]; rfl, ?_, ?_⟩
    · intro hk
      rw [hk] at ht
      cases ht
    · intro hk
      rw [hk] at ht
      cases ht

section

variable {w : List Token} (ih : ∀ v : List Token, v.length < w.length → ∀ n, UniqueIn v n)

include ih

theorem expression_unique : UniqueIn w .expression := layer_unique .disjunction ih

theorem argList_unique : UniqueIn w .argList := by
  intro d d' r r' h h' hr hr'
  have hexpression := expression_unique ih
  have hcomma : ∀ (comma : Sign .comma) (rest : List Token),
      Nonterminal.expression.Ends (comma.token :: rest) := by
    intro comma rest
    rw [Nonterminal.ends_cons, comma.terminal_eq]
    exact comma_ends_expression
  have hmore : ∀ {r : List Token} {comma : Sign .comma} {rest : List Token},
      Nonterminal.argList.Ends r → r ≠ comma.token :: rest := by
    intro r comma rest hr hcons
    exact hr _ _ hcons (.inl comma.terminal_eq)
  subst h
  cases d with
  | lastArg value =>
    cases d' with
    | lastArg value' =>
      obtain ⟨rfl, rfl⟩ := hexpression value value' r r' rfl h' hr.expression_of_argList
        hr'.expression_of_argList
      exact ⟨rfl, rfl⟩
    | moreArgs value' comma' rest' =>
      simp only [Derivation.yield, List.append_assoc, List.cons_append] at h'
      obtain ⟨-, hcons⟩ := hexpression value value' r _ rfl h' hr.expression_of_argList
        (hcomma comma' _)
      exact absurd hcons (hmore hr)
  | moreArgs value comma rest =>
    cases d' with
    | lastArg value' =>
      simp only [Derivation.yield, List.append_assoc, List.cons_append] at h' hexpression
      obtain ⟨-, hcons⟩ := hexpression value value' _ r' rfl h' (hcomma comma _)
        hr'.expression_of_argList
      exact absurd hcons.symm (hmore hr')
    | moreArgs value' comma' rest' =>
      simp only [Derivation.yield, List.append_assoc, List.cons_append] at h' hexpression
      obtain ⟨rfl, rfl, hrest⟩ := hexpression.before comma_ends_expression h'.symm
      have hshort : (rest.yield ++ r).length <
          ((Derivation.moreArgs value comma rest).yield ++ r).length := by
        simp [Derivation.yield]
        omega
      obtain ⟨rfl, rfl⟩ := ih _ hshort .argList rest rest' r r' rfl hrest.symm hr hr'
      exact ⟨rfl, rfl⟩

theorem args_unique : UniqueIn w .args := by
  intro d d' r r' h h' hr hr'
  have hends : ∀ {r : List Token}, Nonterminal.args.Ends r → Nonterminal.argList.Ends r := by
    intro r hr t rest hrest hc
    have ht : t.terminal = .symbol .rpar := not_not.mp (hr t rest hrest)
    rw [ht] at hc
    rcases hc with hc | hc
    · cases hc
    · exact rpar_ends_expression hc
  have hnone : ∀ {r r' : List Token} {list : Derivation .argList}, Nonterminal.args.Ends r →
      r ≠ list.yield ++ r' := by
    intro r r' list hr hcons
    obtain ⟨t, rest, hyield, ht⟩ : ∃ t rest, list.yield = t :: rest ∧
        t.terminal.startsOperand = true := by
      cases list with
      | lastArg value => exact layer_head value
      | moreArgs value comma rest =>
        obtain ⟨t, tail, hyield, ht⟩ := layer_head value
        exact ⟨t, tail ++ comma.token :: rest.yield, by rw [Derivation.yield, hyield]; rfl, ht⟩
    rw [hyield] at hcons
    have hk : t.terminal = .symbol .rpar := not_not.mp (hr _ _ hcons)
    rw [hk] at ht
    cases ht
  subst h
  cases d with
  | noArg =>
    cases d' with
    | noArg => exact ⟨rfl, h'.symm⟩
    | someArgs list' => exact absurd h'.symm (hnone hr)
  | someArgs list =>
    cases d' with
    | noArg => exact absurd h' (hnone hr')
    | someArgs list' =>
      obtain ⟨rfl, rfl⟩ := argList_unique ih list list' r r' rfl h' (hends hr) (hends hr')
      exact ⟨rfl, rfl⟩

theorem paramList_unique : UniqueIn w .paramList := by
  intro d d' r r' h h' hr hr'
  have hmore : ∀ {r : List Token} {comma : Sign .comma} {rest : List Token},
      Nonterminal.paramList.Ends r → r ≠ comma.token :: rest := by
    intro r comma rest hr hcons
    exact hr _ _ hcons comma.terminal_eq
  subst h
  cases d with
  | lastParam tag name =>
    cases d' with
    | lastParam tag' name' =>
      simp only [Derivation.yield, List.cons_append, List.nil_append, List.cons.injEq,
        Leaf.token_inj] at h'
      simp [h']
    | moreParams tag' name' comma' rest' =>
      simp only [Derivation.yield, List.cons_append, List.nil_append, List.cons.injEq] at h'
      exact absurd h'.2.2.symm (hmore hr)
  | moreParams tag name comma rest =>
    cases d' with
    | lastParam tag' name' =>
      simp only [Derivation.yield, List.cons_append, List.nil_append, List.cons.injEq] at h'
      exact absurd h'.2.2 (hmore hr')
    | moreParams tag' name' comma' rest' =>
      simp only [Derivation.yield, List.cons_append, List.cons.injEq, Leaf.token_inj] at h'
      obtain ⟨rfl, rfl, rfl, hrest⟩ := h'
      have hshort : (rest.yield ++ r).length <
          ((Derivation.moreParams tag' name' comma' rest).yield ++ r).length := by
        simp [Derivation.yield]
        omega
      obtain ⟨rfl, rfl⟩ := ih _ hshort .paramList rest rest' r r' rfl hrest hr hr'
      exact ⟨rfl, rfl⟩

theorem params_unique : UniqueIn w .params := by
  intro d d' r r' h h' hr hr'
  have hends : ∀ {r : List Token}, Nonterminal.params.Ends r → Nonterminal.paramList.Ends r :=
    fun hr t rest hrest hc => hr t rest hrest (.inr hc)
  have hnone : ∀ {r r' : List Token} {list : Derivation .paramList}, Nonterminal.params.Ends r →
      r ≠ list.yield ++ r' := by
    intro r r' list hr hcons
    cases list with
    | lastParam tag name => exact hr _ _ hcons (.inl tag.terminal_eq)
    | moreParams tag name comma rest => exact hr _ _ hcons (.inl tag.terminal_eq)
  subst h
  cases d with
  | noParam =>
    cases d' with
    | noParam => exact ⟨rfl, h'.symm⟩
    | someParams list' => exact absurd h'.symm (hnone hr)
  | someParams list =>
    cases d' with
    | noParam => exact absurd h' (hnone hr')
    | someParams list' =>
      obtain ⟨rfl, rfl⟩ := paramList_unique ih list list' r r' rfl h' (hends hr) (hends hr')
      exact ⟨rfl, rfl⟩

/-- An expression before a semicolon is not a name before a token that could not follow a name in an
expression. -/
theorem named_ne_expression {k : Terminal} (hk : ¬Nonterminal.expression.Continues k)
    (hne : k ≠ .symbol .semicolon) {name : Leaf .name} {sign : Leaf k} {rest : List Token}
    (h : name.token :: sign.token :: rest = w) {value : Derivation .expression}
    {semicolon : Sign .semicolon} {r : List Token} (h' : value.yield ++ semicolon.token :: r = w) :
    False := by
  obtain ⟨d, hd⟩ := exists_expression_of_name name
  have hends : Nonterminal.expression.Ends (sign.token :: rest) := by
    rw [Nonterminal.ends_cons, sign.terminal_eq]
    exact hk
  have hends' : Nonterminal.expression.Ends (semicolon.token :: r) := by
    rw [Nonterminal.ends_cons, semicolon.terminal_eq]
    exact semicolon_ends_expression
  have hd : d.yield ++ sign.token :: rest = w := by
    rw [hd]
    exact h
  obtain ⟨-, hcons⟩ := expression_unique ih d value _ _ hd h' hends hends'
  simp [hne] at hcons

theorem block_unique : UniqueIn w .block := by
  intro d d' r r' h h' _ _
  subst h
  cases d with
  | block lbrace body rbrace =>
    cases d' with
    | block lbrace' body' rbrace' =>
      simp only [Derivation.yield, List.cons_append, List.append_assoc, List.nil_append,
        List.cons.injEq, Leaf.token_inj] at h'
      obtain ⟨rfl, hrest⟩ := h'
      have hshort : (body.yield ++ rbrace.token :: r).length <
          ((Derivation.block lbrace' body rbrace).yield ++ r).length := by
        simp [Derivation.yield]
      obtain ⟨rfl, rfl, rfl⟩ := (ih _ hshort .statements).before rbrace_ends_statements hrest.symm
      exact ⟨rfl, rfl⟩

/-- A condition and the block after it. -/
theorem condition_unique {condition condition' : Derivation .expression} {rpar rpar' : Sign .rpar}
    {block block' : Derivation .block} {r r' : List Token}
    (hshort : (condition.yield ++ rpar.token :: (block.yield ++ r)).length < w.length)
    (h : condition.yield ++ rpar.token :: (block.yield ++ r) =
      condition'.yield ++ rpar'.token :: (block'.yield ++ r')) :
    condition = condition' ∧ rpar = rpar' ∧ block = block' ∧ r = r' := by
  obtain ⟨rfl, rfl, hrest⟩ := (ih _ hshort .expression).before rpar_ends_expression h
  have hblock : (block.yield ++ r).length < w.length := by
    simp only [List.length_append, List.length_cons] at hshort ⊢
    omega
  obtain ⟨rfl, rfl⟩ := ih _ hblock .block block block' r r' rfl hrest.symm (block_ends r)
    (block_ends r')
  exact ⟨rfl, rfl, rfl, rfl⟩

/-- A statement that starts like an expression before a semicolon is one. -/
theorem exists_eq_expr {d : Derivation .statement} {r : List Token} (h : d.yield ++ r = w)
    {value : Derivation .expression} {semicolon : Sign .semicolon} {r' : List Token}
    (h' : value.yield ++ semicolon.token :: r' = w) :
    ∃ value' semicolon', d = .expr value' semicolon' := by
  have hname := Layer.not_continues_name (l := .disjunction)
  have hequal : ¬Nonterminal.expression.Continues (.symbol .equal) :=
    Layer.not_continues_symbol (.inr (.inr (.inr rfl)))
  cases d <;> simp only [Derivation.yield, List.cons_append, List.append_assoc, List.nil_append] at h
  case expr value' semicolon' => exact ⟨value', semicolon', rfl⟩
  case declare tag name semicolon => exact (named_ne_expression ih hname (by decide) h h').elim
  case start tag name equal value semicolon =>
    exact (named_ne_expression ih hname (by decide) h h').elim
  case assign name equal value semicolon =>
    exact (named_ne_expression ih hequal (by decide) h h').elim
  all_goals exact absurd (h'.trans h.symm) (expression_ne_leaf rfl _ value _ _)

theorem statement_unique : UniqueIn w .statement := by
  intro d d' r r' h h' hr hr'
  have hexpr : (∃ value semicolon, d = .expr value semicolon) ↔
      ∃ value semicolon, d' = .expr value semicolon := by
    constructor
    · rintro ⟨value, semicolon, rfl⟩
      exact exists_eq_expr ih h' (by simpa [Derivation.yield] using h)
    · rintro ⟨value, semicolon, rfl⟩
      exact exists_eq_expr ih h (by simpa [Derivation.yield] using h')
  cases d <;> cases d' <;>
    simp only [Derivation.yield, List.cons_append, List.append_assoc, List.nil_append] at h h'
  case declare.declare tag name semicolon tag' name' semicolon' =>
    have same := h.trans h'.symm
    simp only [List.cons.injEq, Leaf.token_inj] at same
    simp [same]
  case start.start tag name equal value semicolon tag' name' equal' value' semicolon' =>
    subst h
    simp only [List.cons.injEq, Leaf.token_inj] at h'
    obtain ⟨rfl, rfl, rfl, hrest⟩ := h'
    obtain ⟨rfl, rfl, rfl⟩ :=
      (ih _ (by simp only [List.length_cons, List.length_append]; omega) .expression).before semicolon_ends_expression hrest.symm
    exact ⟨rfl, rfl⟩
  case assign.assign name equal value semicolon name' equal' value' semicolon' =>
    subst h
    simp only [List.cons.injEq, Leaf.token_inj] at h'
    obtain ⟨rfl, rfl, hrest⟩ := h'
    obtain ⟨rfl, rfl, rfl⟩ :=
      (ih _ (by simp only [List.length_cons, List.length_append]; omega) .expression).before semicolon_ends_expression hrest.symm
    exact ⟨rfl, rfl⟩
  case branch.branch word lpar condition rpar yes word' lpar' condition' rpar' yes' =>
    subst h
    simp only [List.cons.injEq, Leaf.token_inj] at h'
    obtain ⟨rfl, rfl, hrest⟩ := h'
    obtain ⟨rfl, rfl, rfl, rfl⟩ := condition_unique ih (by simp only [List.length_cons, List.length_append]; omega) hrest.symm
    exact ⟨rfl, rfl⟩
  case branch.branchElse word lpar condition rpar yes word' lpar' condition' rpar' yes' other' no' =>
    subst h
    simp only [List.cons.injEq, Leaf.token_inj] at h'
    obtain ⟨rfl, rfl, hrest⟩ := h'
    obtain ⟨-, -, -, hcons⟩ := condition_unique ih (by simp only [List.length_cons, List.length_append]; omega) hrest.symm
    exact absurd other'.terminal_eq (hr _ _ hcons)
  case branchElse.branch word lpar condition rpar yes other no word' lpar' condition' rpar' yes' =>
    subst h
    simp only [List.cons.injEq, Leaf.token_inj] at h'
    obtain ⟨rfl, rfl, hrest⟩ := h'
    obtain ⟨-, -, -, hcons⟩ := condition_unique ih (by simp only [List.length_cons, List.length_append]; omega) hrest.symm
    exact absurd other.terminal_eq (hr' _ _ hcons.symm)
  case branchElse.branchElse word lpar condition rpar yes other no word' lpar' condition' rpar' yes'
      other' no' =>
    subst h
    simp only [List.cons.injEq, Leaf.token_inj] at h'
    obtain ⟨rfl, rfl, hrest⟩ := h'
    obtain ⟨rfl, rfl, rfl, hcons⟩ := condition_unique ih (by simp only [List.length_cons, List.length_append]; omega) hrest.symm
    simp only [List.cons.injEq, Leaf.token_inj] at hcons
    obtain ⟨rfl, hno⟩ := hcons
    obtain ⟨rfl, rfl⟩ := ih _ (by simp only [List.length_cons, List.length_append]; omega) .block no no' r r' rfl hno.symm (block_ends r)
      (block_ends r')
    exact ⟨rfl, rfl⟩
  case loop.loop word lpar condition rpar body word' lpar' condition' rpar' body' =>
    subst h
    simp only [List.cons.injEq, Leaf.token_inj] at h'
    obtain ⟨rfl, rfl, hrest⟩ := h'
    obtain ⟨rfl, rfl, rfl, rfl⟩ := condition_unique ih (by simp only [List.length_cons, List.length_append]; omega) hrest.symm
    exact ⟨rfl, rfl⟩
  case ret.ret word value semicolon word' value' semicolon' =>
    subst h
    simp only [List.cons.injEq, Leaf.token_inj] at h'
    obtain ⟨rfl, hrest⟩ := h'
    obtain ⟨rfl, rfl, rfl⟩ :=
      (ih _ (by simp) .expression).before semicolon_ends_expression hrest.symm
    exact ⟨rfl, rfl⟩
  case expr.expr value semicolon value' semicolon' =>
    subst h
    obtain ⟨rfl, rfl, rfl⟩ := (expression_unique ih).before semicolon_ends_expression h'.symm
    exact ⟨rfl, rfl⟩
  -- either only one of the two is an expression, or the first tokens are of different terminals
  all_goals
    have same := h.trans h'.symm
    simp at hexpr same

theorem statements_unique : UniqueIn w .statements := by
  intro d d' r r' h h' hr hr'
  have hnone : ∀ {r r' : List Token} {first : Derivation .statement}, Nonterminal.statements.Ends r →
      r ≠ first.yield ++ r' := by
    intro r r' first hr hcons
    obtain ⟨t, rest, hyield, hrbrace, -⟩ := statement_head first
    rw [hyield] at hcons
    exact hr _ _ hcons hrbrace
  -- what follows a statement is another one, or what follows all of them
  have hends : ∀ {r : List Token} (rest : Derivation .statements), Nonterminal.statements.Ends r →
      Nonterminal.statement.Ends (rest.yield ++ r) := by
    intro r rest hr t tail hcons hc
    cases rest with
    | noStatement =>
      have ht : t.terminal = .symbol .rbrace := not_not.mp (hr t tail hcons)
      rw [ht] at hc
      cases hc
    | moreStatements first rest =>
      obtain ⟨u, rest', hyield, -, helse⟩ := statement_head first
      simp only [Derivation.yield, hyield, List.cons_append, List.cons.injEq] at hcons
      rw [← hcons.1] at hc
      exact helse hc
  subst h
  cases d with
  | noStatement =>
    cases d' with
    | noStatement => exact ⟨rfl, h'.symm⟩
    | moreStatements first' rest' =>
      simp only [Derivation.yield, List.append_assoc, List.nil_append] at h'
      exact absurd h'.symm (hnone hr)
  | moreStatements first rest =>
    cases d' with
    | noStatement =>
      simp only [Derivation.yield, List.append_assoc, List.nil_append] at h'
      exact absurd h' (hnone hr')
    | moreStatements first' rest' =>
      have hfirst := statement_unique ih
      simp only [Derivation.yield, List.append_assoc] at h' hfirst
      obtain ⟨rfl, hrest⟩ := hfirst first first' _ _ rfl h' (hends rest hr) (hends rest' hr')
      have hshort : (rest.yield ++ r).length <
          ((Derivation.moreStatements first rest).yield ++ r).length := by
        obtain ⟨t, tail, hyield, -⟩ := statement_head first
        simp only [Derivation.yield, hyield, List.length_cons, List.length_append]
        omega
      obtain ⟨rfl, rfl⟩ := ih _ hshort .statements rest rest' r r' rfl hrest.symm hr hr'
      exact ⟨rfl, rfl⟩

theorem item_unique : UniqueIn w .item := by
  intro d d' r r' h h' _ _
  subst h
  cases d with
  | function fn name lpar params rpar arrow tag body =>
    cases d' with
    | function fn' name' lpar' params' rpar' arrow' tag' body' =>
      simp only [Derivation.yield, List.cons_append, List.append_assoc, List.cons.injEq,
        Leaf.token_inj] at h'
      obtain ⟨rfl, rfl, rfl, hrest⟩ := h'
      have hshort : (params.yield ++
          rpar.token :: arrow.token :: tag.token :: (body.yield ++ r)).length <
          ((Derivation.function fn' name' lpar' params rpar arrow tag body).yield ++ r).length := by
        simp [Derivation.yield]
        omega
      obtain ⟨rfl, rfl, hcons⟩ := (ih _ hshort .params).before rpar_ends_params hrest.symm
      simp only [List.cons.injEq, Leaf.token_inj] at hcons
      obtain ⟨rfl, rfl, hbody⟩ := hcons
      have hblock : (body.yield ++ r).length <
          ((Derivation.function fn' name' lpar' params rpar arrow tag body).yield ++ r).length := by
        simp [Derivation.yield]
        omega
      obtain ⟨rfl, rfl⟩ := ih _ hblock .block body body' r r' rfl hbody.symm (block_ends r)
        (block_ends r')
      exact ⟨rfl, rfl⟩
    | main word' body' => simp [Derivation.yield] at h'
  | main word body =>
    cases d' with
    | function fn' name' lpar' params' rpar' arrow' tag' body' => simp [Derivation.yield] at h'
    | main word' body' =>
      simp only [Derivation.yield, List.cons_append, List.cons.injEq, Leaf.token_inj] at h'
      obtain ⟨rfl, hbody⟩ := h'
      have hblock : (body.yield ++ r).length < ((Derivation.main word' body).yield ++ r).length := by
        simp [Derivation.yield]
      obtain ⟨rfl, rfl⟩ := ih _ hblock .block body body' r r' rfl hbody (block_ends r) (block_ends r')
      exact ⟨rfl, rfl⟩

theorem program_unique : UniqueIn w .program := by
  intro d d' r r' h h' hr hr'
  have hhead : ∀ item : Derivation .item, ∃ t rest, item.yield = t :: rest ∧
      (t.terminal = .keyword .fn ∨ t.terminal = .keyword .main) := by
    intro item
    cases item with
    | function fn name lpar params rpar arrow tag body =>
      exact ⟨fn.token, _, rfl, .inl fn.terminal_eq⟩
    | main word body => exact ⟨word.token, _, rfl, .inr word.terminal_eq⟩
  have hnone : ∀ {r r' : List Token} {first : Derivation .item}, Nonterminal.program.Ends r →
      r ≠ first.yield ++ r' := by
    intro r r' first hr hcons
    obtain ⟨t, rest, hyield, ht⟩ := hhead first
    rw [hyield] at hcons
    exact hr _ _ hcons ht
  subst h
  cases d with
  | noItem =>
    cases d' with
    | noItem => exact ⟨rfl, h'.symm⟩
    | moreItems first' rest' =>
      simp only [Derivation.yield, List.append_assoc, List.nil_append] at h'
      exact absurd h'.symm (hnone hr)
  | moreItems first rest =>
    cases d' with
    | noItem =>
      simp only [Derivation.yield, List.append_assoc, List.nil_append] at h'
      exact absurd h' (hnone hr')
    | moreItems first' rest' =>
      have hfirst := item_unique ih
      simp only [Derivation.yield, List.append_assoc] at h' hfirst
      obtain ⟨rfl, hrest⟩ := hfirst first first' _ _ rfl h' (item_ends _) (item_ends _)
      have hshort : (rest.yield ++ r).length <
          ((Derivation.moreItems first rest).yield ++ r).length := by
        obtain ⟨t, tail, hyield, -⟩ := hhead first
        simp only [Derivation.yield, hyield, List.length_cons, List.length_append]
        omega
      obtain ⟨rfl, rfl⟩ := ih _ hshort .program rest rest' r r' rfl hrest.symm hr hr'
      exact ⟨rfl, rfl⟩

end

/-! ### All nonterminals -/

/-- Every beginning of a row of tokens has at most one derivation, by induction on the length of the
row. -/
theorem uniqueIn (w : List Token) (n : Nonterminal) : UniqueIn w n := by
  have ih : ∀ v : List Token, v.length < w.length → ∀ n, UniqueIn v n :=
    fun v _ n => uniqueIn v n
  cases n with
  | program => exact program_unique ih
  | item => exact item_unique ih
  | params => exact params_unique ih
  | paramList => exact paramList_unique ih
  | block => exact block_unique ih
  | statements => exact statements_unique ih
  | statement => exact statement_unique ih
  | layer l => exact layer_unique l ih
  | args => exact args_unique ih
  | argList => exact argList_unique ih
termination_by w.length

/-- **A derivation is determined by its tokens.** -/
theorem Derivation.yield_injective {n : Nonterminal} {d d' : Derivation n} (h : d.yield = d'.yield) :
    d = d' := by
  have hd : d.yield ++ [] = d.yield := List.append_nil _
  have hd' : d'.yield ++ [] = d.yield := by rw [List.append_nil, h]
  exact (uniqueIn d.yield n d d' [] [] hd hd' n.ends_nil n.ends_nil).1

end SmallImp.Source

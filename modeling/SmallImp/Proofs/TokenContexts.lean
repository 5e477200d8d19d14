import SmallImp.Proofs.TokenEnds
import SmallImp.Source.Reading

/-!
# Tokens in their contexts

Which tokens can come next depends on the tokens before, and so does where a token can end.

* `State.allows_of_feed?` — a token that is taken was allowed;
* `State.context_of_float`, `State.context_of_asksOperand` — what is due after a float and after an
  operator;
* `stopsAt_of_read` — a token that is taken, and after which something can be read, ends where the
  next character does not go on with it.
-/

namespace SmallImp.Source

/-! ### Tokens that are taken -/

theorem Terminal.isOperator_eq (k : Terminal) : k.isOperator = k.binaryOp?.isSome := by
  cases k with
  | symbol s => cases s <;> rfl
  | _ => rfl

namespace State

variable {s s' : State} {t : Token}

theorem allows_of_item? (h : s.item? t = some s') :
    t.terminal = .keyword .fn ∨ t.terminal = .keyword .main := by
  rw [item?] at h
  split at h
  next hk => exact .inl hk
  next hk => exact .inr hk
  next => cases h

theorem allows_of_operand? {e : Expression} (h : s.operand? e t = some s') :
    t.terminal.startsOperand = true := by
  rw [operand?] at h
  split at h
  next hk => rw [hk]; rfl
  next hk => rw [hk]; rfl
  next hk => rw [hk]; rfl
  next hk => rw [hk]; rfl
  next =>
    cases hrule : t.terminal.literalRule? with
    | none =>
      rw [hrule] at h
      cases h
    | some rule =>
      rw [Terminal.literalRule?_eq_some_iff.mp hrule]
      cases rule <;> rfl

theorem allows_of_closeOperand? {value : ExprTree} {e : Expression} {k : Terminal}
    (h : s.closeOperand? value e k = some s') :
    k = .symbol .rpar ∨ k = .symbol .comma ∨ k = .symbol .semicolon := by
  unfold closeOperand? at h
  split at h
  next =>
    unfold finish? at h
    split at h <;> simp_all
  next => exact .inl rfl
  next => exact .inl rfl
  next => exact .inr (.inl rfl)
  next => cases h

theorem allows_of_afterOperand? {value : ExprTree} {e : Expression}
    (h : s.afterOperand? value e t = some s') : Context.afterOperand.allows t.terminal = true := by
  rw [afterOperand?] at h
  split at h
  next op hop => simp [Context.allows, Terminal.isOperator_eq, hop]
  next => rcases allows_of_closeOperand? h with hk | hk | hk <;> rw [hk] <;> rfl

theorem allows_of_afterName? {name : String} {e : Expression} (h : s.afterName? name e t = some s') :
    Context.afterName.allows t.terminal = true := by
  rw [afterName?] at h
  split at h
  next hk => rw [hk]; rfl
  next =>
    have hallows := allows_of_afterOperand? h
    simp only [Context.allows, Bool.or_eq_true] at hallows ⊢
    tauto

theorem allows_of_statement? (h : s.statement? t = some s') :
    t.terminal.startsStatement = true := by
  rw [statement?] at h
  split at h
  next hk => rw [hk]; rfl
  next hk => rw [hk]; rfl
  next hk => rw [hk]; rfl
  next hk => rw [hk]; rfl
  next hk => rw [hk]; rfl
  next hif hwhile hreturn hrbrace _ =>
    have hoperand := allows_of_operand? h
    unfold Terminal.startsStatement
    split
    next => rfl
    next => rfl
    next => rfl
    next => rfl
    next => exact hoperand

theorem allows_of_finish? {value : ExprTree} {k : Terminal}
    (h : s.finish? value .statement k = some s') : k = .symbol .semicolon := by
  unfold finish? at h
  split at h <;> simp_all

theorem allows_of_statementName? {name : String} (h : s.statementName? name t = some s') :
    Context.statementName.allows t.terminal = true := by
  rw [statementName?] at h
  split at h
  next hk => rw [hk]; rfl
  next hk => rw [hk]; rfl
  next =>
    rw [afterName?] at h
    split at h
    next hk => rw [hk]; rfl
    next =>
      rw [afterOperand?] at h
      split at h
      next op hop => simp [Context.allows, Terminal.isOperator_eq, hop]
      next =>
        -- no parenthesis is open yet, so only the end of the statement is left
        rw [allows_of_finish? h]
        rfl

theorem allows_of_afterBlock? {branch : Option (ExprTree × List StmtTree)}
    (h : s.afterBlock? branch t = some s') : Context.afterBlock.allows t.terminal = true := by
  unfold afterBlock? at h
  split at h
  next hk => rw [hk]; rfl
  next => simp [Context.allows, allows_of_statement? h]
  next => simp [Context.allows, allows_of_statement? h]

theorem allows_of_declared? {tag : String} {name : String} (h : s.declared? tag name t = some s') :
    Context.declared.allows t.terminal = true := by
  rw [declared?] at h
  split at h
  next hk => rw [hk]; rfl
  next hk => rw [hk]; rfl
  next => cases h

theorem allows_of_arguments? {e : Expression} (h : s.arguments? e t = some s') :
    Context.arguments.allows t.terminal = true := by
  unfold arguments? at h
  split at h
  next hk _ => rw [hk]; rfl
  next => simp [Context.allows, allows_of_operand? h]

theorem allows_of_heading? {phase : Phase} (h : s.heading? phase t = some s') :
    (s.goto phase).context.allows t.terminal = true := by
  unfold heading? at h
  split at h <;> first | cases h; done | simp_all [context, goto, Context.allows]

theorem allows_of_blockOpen? {owner : Owner} (h : s.blockOpen? owner t = some s') :
    t.terminal = .symbol .lbrace := by
  unfold blockOpen? at h
  split at h
  next hk => exact hk
  next => cases h

theorem allows_of_conditionOpen? {of : Conditional} (h : s.conditionOpen? of t = some s') :
    t.terminal = .symbol .lpar := by
  unfold conditionOpen? at h
  split at h
  next hk => exact hk
  next => cases h

/-- **A token that is taken is one that its context allows.** -/
theorem allows_of_feed? (h : s.feed? t = some s') : s.context.allows t.terminal = true := by
  obtain ⟨phase, blocks, items⟩ := s
  cases phase with
  | start => rcases allows_of_item? h with hk | hk <;> rw [hk] <;> rfl
  | afterItem => rcases allows_of_item? h with hk | hk <;> rw [hk] <;> rfl
  | blockOpen owner => rw [allows_of_blockOpen? h]; rfl
  | statement => exact allows_of_statement? h
  | afterBlock branch => exact allows_of_afterBlock? h
  | conditionOpen of => rw [allows_of_conditionOpen? h]; rfl
  | statementName name => exact allows_of_statementName? h
  | declared tag name => exact allows_of_declared? h
  | operand e => exact allows_of_operand? h
  | arguments e => exact allows_of_arguments? h
  | afterName name e => exact allows_of_afterName? h
  | afterOperand value e => exact allows_of_afterOperand? h
  | _ => exact allows_of_heading? h

end State

/-! ### What is due after a token -/

/-- A sign that asks for an operand after it. -/
def Terminal.asksOperand (k : Terminal) : Bool := k.isOperator || k = .symbol .equal

theorem Terminal.eq_minus_of_asksOperand {k : Terminal} (h : k.asksOperand = true)
    (hstart : k.startsOperand = true ∨ k.startsStatement = true) : k = .symbol .minus := by
  cases k with
  | symbol s => cases s <;> simp [asksOperand, isOperator, startsStatement, startsOperand] at *
  | _ => cases h

namespace State

variable {s s' : State} {t : Token}

/-- After a float, an operand is complete. -/
theorem context_of_float (ht : t.terminal = .float) (h : s.feed? t = some s') :
    s'.context = .afterOperand := by
  have hallows := allows_of_feed? h
  have hoperand : ∀ (s : State) (e : Expression), s.operand? e t = some s' →
      s'.context = .afterOperand := by
    intro s e he
    simp only [operand?, ht] at he
    cases he
    rfl
  have hstatement : ∀ s : State, s.statement? t = some s' → s'.context = .afterOperand := by
    intro s hs
    simp only [statement?, ht] at hs
    exact hoperand s _ hs
  obtain ⟨phase, blocks, items⟩ := s
  rw [ht] at hallows
  cases phase with
  | afterItem => simp [feed?, item?, ht] at h
  | statement => exact hstatement _ h
  | afterBlock branch =>
    cases branch with
    | none => exact hstatement _ h
    | some b =>
      simp only [feed?, afterBlock?, ht] at h
      exact hstatement _ h
  | operand e => exact hoperand _ e h
  | arguments e =>
    simp only [feed?, arguments?, ht] at h
    exact hoperand _ e h
  | _ => cases hallows

theorem context_of_minus (ht : t.terminal = .symbol .minus) {e : Expression}
    (h : s.operand? e t = some s') : s'.context = .operand := by
  simp only [operand?, ht] at h
  cases h
  rfl

theorem context_of_statement? (ht : t.terminal.asksOperand = true) (h : s.statement? t = some s') :
    s'.context = .operand := by
  have hminus := Terminal.eq_minus_of_asksOperand ht (.inr (allows_of_statement? h))
  simp only [statement?, hminus] at h
  exact context_of_minus hminus h

theorem context_of_afterOperand? {value : ExprTree} {e : Expression} (ht : t.terminal.isOperator = true)
    (h : s.afterOperand? value e t = some s') : s'.context = .operand := by
  rw [Terminal.isOperator_eq, Option.isSome_iff_exists] at ht
  obtain ⟨op, hop⟩ := ht
  rw [afterOperand?, hop] at h
  cases h
  rfl

theorem context_of_afterName? {name : String} {e : Expression} (ht : t.terminal.isOperator = true)
    (h : s.afterName? name e t = some s') : s'.context = .operand := by
  rw [afterName?] at h
  split at h
  next hk =>
    rw [hk] at ht
    cases ht
  next => exact context_of_afterOperand? ht h

theorem context_of_asksOperand (ht : t.terminal.asksOperand = true) (h : s.feed? t = some s') :
    s'.context = .operand := by
  have hallows := allows_of_feed? h
  have hoperator : t.terminal ≠ .symbol .equal → t.terminal.isOperator = true := by
    intro hne
    simpa [Terminal.asksOperand, hne] using ht
  obtain ⟨phase, blocks, items⟩ := s
  cases phase with
  | afterItem => rcases allows_of_item? h with hk | hk <;> rw [hk] at ht <;> cases ht
  | statement => exact context_of_statement? ht h
  | afterBlock branch =>
    simp only [feed?] at h
    unfold afterBlock? at h
    split at h
    next hk =>
      rw [hk] at ht
      cases ht
    next => exact context_of_statement? ht h
    next => exact context_of_statement? ht h
  | operand e => exact context_of_minus (Terminal.eq_minus_of_asksOperand ht (.inl hallows)) h
  | arguments e =>
    simp only [feed?] at h
    unfold arguments? at h
    split at h
    next hk _ =>
      rw [hk] at ht
      cases ht
    next =>
      exact context_of_minus (Terminal.eq_minus_of_asksOperand ht (.inl (allows_of_operand? h))) h
  | statementName name =>
    simp only [feed?] at h
    rw [statementName?] at h
    split at h
    next hk =>
      rw [hk] at ht
      cases ht
    next =>
      cases h
      rfl
    next hequal => exact context_of_afterName? (hoperator hequal) h
  | declared tag name =>
    simp only [feed?] at h
    rw [declared?] at h
    split at h
    next =>
      cases h
      rfl
    next hk =>
      rw [hk] at ht
      cases ht
    next => cases h
  | afterName name e =>
    refine context_of_afterName? (hoperator fun hk => ?_) h
    rw [hk] at hallows
    cases hallows
  | afterOperand value e =>
    refine context_of_afterOperand? (hoperator fun hk => ?_) h
    rw [hk] at hallows
    cases hallows
  | _ =>
    -- only keywords, names and brackets can come next
    simp only [context, Context.allows, Bool.or_eq_true, decide_eq_true_eq] at hallows
    grind [Terminal.asksOperand, Terminal.isOperator]

end State

/-! ### Where a token ends -/

section

variable {allows : Terminal → Bool} {c : Char} {tail : List Char}

/-- No token and no comment starts with a point. -/
theorem lexeme?_point : lexeme? allows ('.' :: tail) = none := by
  rw [lexeme?_sign (by decide) (by decide) (by decide) (by decide) (.of_ne (by decide))]
  simp [symbolLexeme?, Symbol.all, Symbol.spelling, scanExact?, tokenOf?]

/-- After an operand no letter can come next. -/
theorem lexeme?_letter_afterOperand (h : startsName c = true) :
    lexeme? Context.afterOperand.allows (c :: tail) = none := by
  have hsymbol : symbolLexeme? Context.afterOperand.allows (c :: tail) = none := by
    rw [symbolLexeme?, List.findSome?_eq_none_iff]
    intro s _
    obtain ⟨d, rest, hspelling, hd⟩ : ∃ d rest, s.spelling = d :: rest ∧ startsName d = false := by
      cases s <;> exact ⟨_, _, rfl, by decide⟩
    simp [hspelling, scanExact?, (ne_of_holds h hd).symm]
  rw [lexeme?_letter h, hsymbol]
  simp [nameLexeme?, keywordLexeme?, Keyword.all, tokenOf?, Context.allows, Terminal.isOperator]

/-- Where an operand is due, no second character of a symbol and no star can come next. -/
theorem lexeme?_sign_operand (h : c ∈ ['=', '>', '<', '*']) :
    lexeme? Context.operand.allows (c :: tail) = none := by
  simp only [List.mem_cons, List.not_mem_nil, or_false] at h
  rcases h with rfl | rfl | rfl | rfl
  all_goals
    rw [lexeme?_sign (by decide) (by decide) (by decide) (by decide) (.of_ne (by decide))]
    simp [symbolLexeme?, Symbol.all, Symbol.spelling, scanExact?, tokenOf?, Context.allows,
      Terminal.startsOperand]

/-- Where names are allowed, the lexeme that a name starts is not shorter than the name. -/
theorem length_le_of_lexeme? {name rest text rest' : List Char} {k : Terminal}
    (ha : allows .name = true) (hname : IsName name)
    (h : lexeme? allows (name ++ rest) = some (.token k text rest')) : name.length ≤ text.length := by
  obtain ⟨more, rest'', hscan⟩ := scans_name.reaches hname rest
  obtain ⟨hstarts, -⟩ := hname
  rw [List.cons_append] at h hscan
  rw [lexeme?_letter hstarts, nameLexeme?, if_pos ha, hscan, Option.map_some] at h
  dsimp only at h
  split at h
  all_goals
    cases h
    simp

end

/-! A token with one more character of the right kind is a token. -/

theorem IsName.snoc {name : List Char} (h : IsName name) {c : Char} (hc : continuesName c = true) :
    IsName (name ++ [c]) := by
  obtain ⟨starts, continues⟩ := h
  refine .mk starts ?_
  intro d hd
  rcases List.mem_append.mp hd with hd | hd
  · exact continues d hd
  · rw [List.mem_singleton.mp hd]
    exact hc

theorem IsDigits.snoc {digits : List Char} (h : IsDigits digits) {c : Char}
    (hc : Text.isDecimalDigit c = true) : IsDigits (digits ++ [c]) := by
  refine ⟨by simp, ?_⟩
  intro d hd
  rcases List.mem_append.mp hd with hd | hd
  · exact h.2 d hd
  · rw [List.mem_singleton.mp hd]
    exact hc

theorem IsFloat.snoc {float : List Char} (h : IsFloat float) {c : Char}
    (hc : Text.isDecimalDigit c = true) : IsFloat (float ++ [c]) := by
  cases h with
  | plain isWhole isFraction =>
    rw [List.append_assoc, List.cons_append]
    exact .plain isWhole (isFraction.snoc hc)
  | scaled isWhole isFraction isExponent =>
    obtain ⟨isMark, isSign, isDigits⟩ := isExponent
    have hexponent := IsExponent.mk isMark isSign (isDigits.snoc hc)
    rw [← List.append_assoc, ← List.cons_append] at hexponent
    have hfloat := IsFloat.scaled isWhole isFraction hexponent
    simpa using hfloat

/-- **A token ends where the next character does not go on with it.** The token is taken, and the text
after it is empty or starts with something that can be read. -/
theorem stopsAt_of_read {s s' : State} {k : Terminal} {text rest : List Char} {p : Position}
    (hlexeme : lexeme? s.context.allows (text ++ rest) = some (.token k text rest))
    (hfeed : s.feed? ⟨k, text, p⟩ = some s')
    (hnext : rest = [] ∨ ∃ x, lexeme? s'.context.allows rest = some x) :
    StopsAt (k.goesOn s.context.allows) rest := by
  rintro c tail rfl
  obtain ⟨x, hx⟩ : ∃ x, lexeme? s'.context.allows (c :: tail) = some x :=
    hnext.resolve_left (by simp)
  obtain ⟨hin, hlongest⟩ : k.Matches text ∧ ¬k.Matches (text ++ [c]) := by
    generalize hcs : text ++ c :: tail = cs at hlexeme
    cases lexeme?_cuts hlexeme with
    | token _ isIn longest => exact ⟨isIn, fun hmore => by cases longest [c] tail rfl hmore⟩
  by_contra hgoes
  rw [Bool.not_eq_false] at hgoes
  cases k with
  | keyword w =>
    simp only [Terminal.goesOn, Bool.and_eq_true] at hgoes
    obtain rfl : text = w.spelling.toList := hin
    rw [List.append_cons] at hlexeme
    have hlength := length_le_of_lexeme? hgoes.1 ((keyword_isName w).snoc hgoes.2) hlexeme
    rw [List.length_append, List.length_singleton] at hlength
    omega
  | name => exact hlongest (IsName.snoc hin hgoes)
  | int =>
    simp only [Terminal.goesOn, Bool.or_eq_true, decide_eq_true_eq] at hgoes
    rcases hgoes with hdigit | rfl
    · exact hlongest (IsDigits.snoc hin hdigit)
    · rw [lexeme?_point] at hx
      cases hx
  | float =>
    simp only [Terminal.goesOn, Bool.or_eq_true, decide_eq_true_eq, or_assoc] at hgoes
    rcases hgoes with hdigit | hmark
    · exact hlongest (IsFloat.snoc hin hdigit)
    · have hletter : startsName c = true := by rcases hmark with rfl | rfl <;> decide
      rw [State.context_of_float rfl hfeed, lexeme?_letter_afterOperand hletter] at hx
      cases hx
  | text => cases hgoes
  | symbol s =>
    obtain rfl : text = s.spelling := hin
    have hoperand : (Terminal.symbol s).asksOperand = true → c ∉ ['=', '>', '<', '*'] := by
      intro hs hc
      rw [State.context_of_asksOperand hs hfeed, lexeme?_sign_operand hc] at hx
      cases hx
    cases s with
    | equal =>
      simp [Terminal.goesOn, pairs, Symbol.spelling] at hgoes
      refine hoperand rfl ?_
      rcases hgoes with rfl | rfl | rfl <;> simp
    | minus =>
      simp [Terminal.goesOn, pairs, Symbol.spelling] at hgoes
      exact hoperand rfl (by simp [hgoes])
    | slash =>
      simp [Terminal.goesOn, pairs, Symbol.spelling] at hgoes
      rcases hgoes with rfl | rfl
      · rw [Symbol.spelling, List.cons_append, List.nil_append, lexeme?_slash] at hlexeme
        simp [scanBlockComment?, scanLineComment?, ignoredOf?] at hlexeme
      · exact hoperand rfl (by simp)
    | _ => simp [Terminal.goesOn, pairs, Symbol.spelling] at hgoes

end SmallImp.Source

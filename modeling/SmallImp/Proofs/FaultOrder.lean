import SmallImp.Proofs.ErrorPlaces
import SmallImp.Proofs.SentenceContexts

/-!
# The order of faults

A sentence is a text that the grammar cuts into the tokens of a derivation: each token is taken in the
context that the token before it leaves in the derivation. A text that is no sentence is refused as such,
whatever its literals are. The literals of a sentence are looked at from left to right, and the first one
without a value is reported. The number of main blocks comes last.

* `Lexed`, `IsSentence` — texts that are cut into the tokens of a derivation;
* `IsSentence.readAll`, `exists_isSentence` — sentences are the texts that are read to their end;
* `Token.Bad` — tokens whose literal has no value;
* `faults_ordered` — which fault is reported.
-/

namespace SmallImp.Source

/-! ### Sentences -/

/-- In a context and from a place on, a text is cut into tokens, each of which leaves a context for the
next one. Blanks and comments leave the context as it is. -/
inductive Lexed : Context → Position → List Char → List Token → List Context → Prop where
  | done {c : Context} {p : Position} : Lexed c p [] [] []
  | skip {c : Context} {p : Position} {cs text rest : List Char} {tokens : List Token}
      {contexts : List Context} (lexeme : lexeme? c.allows cs = some (.ignored text rest))
      (more : Lexed c (p.advance text) rest tokens contexts) : Lexed c p cs tokens contexts
  | take {c c' : Context} {p : Position} {cs text rest : List Char} {k : Terminal}
      {tokens : List Token} {contexts : List Context}
      (lexeme : lexeme? c.allows cs = some (.token k text rest))
      (more : Lexed c' (p.advance text) rest tokens contexts) :
      Lexed c p cs (⟨k, text, p⟩ :: tokens) (c' :: contexts)

/-- A text is a sentence by a derivation if it is cut into the tokens of the derivation, in the contexts
that these leave. -/
def IsSentence (text : List Char) (d : Derivation .program) : Prop :=
  Lexed .start .start text d.yield d.contexts

/-- Tokens that can be taken one after the other are read from the text that is cut into them. -/
theorem Lexed.steps {c : Context} {p : Position} {cs : List Char} {tokens : List Token}
    {contexts : List Context} (h : Lexed c p cs tokens contexts) {P : State → Prop} :
    ∀ {s : State} (before : List Token), s.context = c → Passes P s tokens contexts →
      ∃ s' p', P s' ∧ Cursor.Steps ⟨s, p, cs, before⟩ ⟨s', p', [], tokens.reverse ++ before⟩ := by
  induction h with
  | done =>
    intro s before _ hpasses
    cases hpasses with
    | done hs => exact ⟨s, _, hs, .done _⟩
  | skip lexeme more ih =>
    intro s before hc hpasses
    obtain ⟨s', p', hs', hsteps⟩ := ih before hc hpasses
    rw [← hc] at lexeme
    exact ⟨s', p', hs', .more (Cursor.step_ignored lexeme) hsteps⟩
  | @take c c' p cs text rest k tokens contexts lexeme more ih =>
    intro s before hc hpasses
    rw [← hc] at lexeme
    cases hpasses with
    | more feed passes =>
      obtain ⟨s', p', hs', hsteps⟩ := ih (⟨k, text, p⟩ :: before) rfl passes
      refine ⟨s', p', hs', .more (Cursor.step_token lexeme feed) ?_⟩
      simpa using hsteps

/-- What is read to its end is cut into the tokens read, in the contexts on the way. -/
theorem Cursor.Steps.lexed {c c' : Cursor} (h : Steps c c') (hend : c'.rest = []) :
    ∃ tokens contexts, c'.tokens = tokens.reverse ++ c.tokens ∧
      Lexed c.state.context c.position c.rest tokens contexts ∧
      Passes (fun _ => True) c.state tokens contexts := by
  induction h with
  | done c =>
    rw [hend]
    exact ⟨[], [], rfl, .done, .done trivial⟩
  | more step rest ih =>
    obtain ⟨tokens, contexts, htokens, hlexed, hpasses⟩ := ih hend
    obtain ⟨text, rest, hlexeme, rfl⟩ | ⟨k, text, rest, s, hlexeme, hfeed, rfl⟩ := step_lexeme step
    · exact ⟨tokens, contexts, htokens, .skip hlexeme hlexed, hpasses⟩
    · refine ⟨⟨k, text, _⟩ :: tokens, _, ?_, .take hlexeme hlexed, .more hfeed hpasses⟩
      rw [htokens]
      simp

/-- A text that is read to its end is a sentence. -/
theorem exists_isSentence {text : List Char} {c : Cursor} (h : readAll text = .ok c) :
    ∃ d : Derivation .program, IsSentence text d ∧ d.yield = c.tokens.reverse := by
  obtain ⟨-, d, hyield, -⟩ := readAll_covers h
  obtain ⟨hsteps, hrest, -⟩ := Cursor.run_steps (c := .ofText text) _ (Nat.le_refl _) h
  obtain ⟨tokens, contexts, htokens, hlexed, hpasses⟩ := hsteps.lexed hrest
  obtain rfl : d.yield = tokens := by
    rw [hyield, htokens]
    simp [Cursor.ofText]
  obtain rfl := hpasses.unique (d.traces .initial (.inl rfl))
  exact ⟨d, hlexed, hyield⟩

section

variable {text : List Char} {d : Derivation .program}

/-- A sentence is read to its end, as the tree of its derivation. -/
theorem IsSentence.readAll (h : IsSentence text d) : ∃ c : Cursor, readAll text = .ok c ∧
    c.state.items.reverse = d.tree := by
  obtain ⟨s, p, hs, hsteps⟩ := Lexed.steps h [] rfl (d.traces .initial (.inl rfl))
  have hread : Source.readAll text = .ok ⟨s, p, [], d.yield.reverse ++ []⟩ :=
    hsteps.run rfl hs.mayEnd (Nat.le_refl _)
  have htokens : (d.yield.reverse ++ []).reverse = d.yield := by simp
  obtain ⟨-, d', hyield, htree⟩ := readAll_covers hread
  obtain rfl : d' = d := Derivation.yield_injective (hyield.trans htokens)
  exact ⟨_, hread, htree.symm⟩

end

/-! ### Literals without a value -/

section

variable [Host]

/-- The literal of a token has no value: an integer of more than 4300 digits, an integer above
`2 ^ 63 - 1`, or a text with a null character or with characters that stand for nothing. -/
inductive Token.Bad (t : Token) : LiteralFault → Prop where
  | tooLong (terminal_eq : t.terminal = .int) (long : 4300 < t.text.length) : Bad t .tooManyDigits
  | tooLarge (terminal_eq : t.terminal = .int) (short : t.text.length ≤ 4300)
      (large : 9223372036854775807 < Text.digitsValue t.text) : Bad t (.outOfRange t)
  | null (terminal_eq : t.terminal = .text) (hasNull : '\x00' ∈ t.quoted) : Bad t .nullCharacter
  | malformed (terminal_eq : t.terminal = .text) (noNull : '\x00' ∉ t.quoted)
      (meaningless : ∀ s, ¬StandsFor t.quoted s) : Bad t .malformedText

theorem Token.Bad.of_intLiteral {t : Token} (hk : t.terminal = .int) {fault : LiteralFault}
    (h : intLiteral t = .error fault) : t.Bad fault := by
  rw [intLiteral] at h
  split at h
  next hlong =>
    cases h
    exact .tooLong hk hlong
  next hshort =>
    dsimp only at h
    split at h
    next => cases h
    next hlarge =>
      cases h
      refine .tooLarge hk (Nat.not_lt.mp hshort) ?_
      unfold maxInt at hlarge
      omega

theorem Token.fault?_text {t : Token} (hk : t.terminal = .text) {fault : LiteralFault}
    (h : unescape t.quoted = .error fault) : t.fault? = some fault := by
  replace hk : t.terminal = LiteralRule.text.terminal := hk
  have hliteral : LiteralRule.text.literal t = .error fault := by
    show (unescape t.quoted).map Literal.str = _
    rw [h]
    rfl
  rw [Token.fault?, Token.literal?_eq hk, hliteral]

/-- The fault of a token is what is wrong with its literal. -/
theorem Token.fault?_eq_some_iff {t : Token} {fault : LiteralFault} :
    t.fault? = some fault ↔ t.Bad fault := by
  constructor
  · intro h
    rw [Token.fault?] at h
    split at h
    next hliteral =>
      cases h
      obtain ⟨rule, hrule, hfault⟩ := Option.map_eq_some_iff.mp hliteral
      have hk := Terminal.literalRule?_eq_some_iff.mp hrule
      cases rule with
      | int => exact .of_intLiteral hk hfault
      | float => cases hfault
      | yes => cases hfault
      | no => cases hfault
      | text =>
        rw [LiteralRule.literal] at hfault
        cases htext : unescape (t.text.drop 1).dropLast with
        | ok s =>
          rw [htext] at hfault
          cases hfault
        | error fault' =>
          rw [htext] at hfault
          cases hfault
          rcases unescape_eq_error_iff.mp htext with ⟨hnull, rfl⟩ | ⟨hnull, hnone, rfl⟩
          · exact .null hk hnull
          · exact .malformed hk hnull hnone
    next => cases h
  · intro h
    cases h with
    | tooLong hk long =>
      replace hk : t.terminal = LiteralRule.int.terminal := hk
      have hliteral : LiteralRule.int.literal t = .error .tooManyDigits := if_pos long
      rw [Token.fault?, Token.literal?_eq hk, hliteral]
    | tooLarge hk short large =>
      replace hk : t.terminal = LiteralRule.int.terminal := hk
      have hmax : ¬(Text.digitsValue t.text : Int) ≤ maxInt := by
        unfold maxInt
        omega
      have hliteral : LiteralRule.int.literal t = .error (.outOfRange t) := by
        rw [LiteralRule.literal, intLiteral, if_neg (show ¬Text.maxDigits < t.text.length from
          Nat.not_lt.mpr short), if_neg hmax]
      rw [Token.fault?, Token.literal?_eq hk, hliteral]
    | null hk hasNull => exact Token.fault?_text hk (unescape_eq_error_iff.mpr (.inl ⟨hasNull, rfl⟩))
    | malformed hk noNull meaningless =>
      exact Token.fault?_text hk (unescape_eq_error_iff.mpr (.inr ⟨noNull, meaningless, rfl⟩))

end

/-! ### Faults of a sentence -/

section

variable [Host] {text : String} {d : Derivation .program}

/-- What is made of a sentence is what is made of the tree of its derivation. -/
theorem IsSentence.parse_eq (h : IsSentence text.toList d) : parse text = buildProgram d.tree := by
  obtain ⟨c, hread, htree⟩ := h.readAll
  rw [parse, hread, ← htree]

theorem IsSentence.parse_fault (h : IsSentence text.toList d) {fault : LiteralFault}
    (hfault : literalFault? d.yield = some fault) : parse text = .error (.literal fault) := by
  rw [h.parse_eq, buildProgram_of_fault hfault]

theorem IsSentence.parse_program (h : IsSentence text.toList d)
    (hfault : literalFault? d.yield = none) : parse text = assemble d.image := by
  rw [h.parse_eq, buildProgram_of_values hfault]

end

/-- A fault of the grammar. -/
def Fault.IsSyntax : Fault → Prop
  | .unexpected _ => True
  | .unexpectedEnd _ => True
  | .noTerminal _ _ => True
  | .literal _ => False
  | .severalMains => False

theorem readAll_isSyntax {text : List Char} {fault : Fault} (h : readAll text = .error fault) :
    fault.IsSyntax := by
  obtain ⟨c, -, hstop⟩ := Cursor.run_error (c := .ofText text) _ (Nat.le_refl _) h
  rcases hstop with ⟨-, rfl⟩ | ⟨hrest, hstep⟩
  · rw [Cursor.endFault]
    split
    · trivial
    · trivial
  · obtain ⟨k, found, rfl, -⟩ | ⟨char, rfl, -⟩ := Cursor.step_error hrest hstep
    · trivial
    · trivial

/-- The statements of a main block, if a tree is one. -/
def ItemTree.main? : ItemTree → Option (List StmtTree)
  | .func _ _ _ _ => none
  | .main body => some body

/-- The main blocks among the items of a derivation. -/
def Derivation.mains (d : Derivation .program) : List (List StmtTree) := d.tree.filterMap ItemTree.main?

section

variable [Host]

/-- A derivation stands for as many main blocks as it has. -/
theorem Derivation.length_mains : ∀ d : Derivation .program,
    (d.image.filterMap Item.main?).length = d.mains.length
  | .noItem => rfl
  | .moreItems (.function ..) rest => length_mains rest
  | .moreItems (.main ..) rest => congrArg Nat.succ (length_mains rest)

theorem assemble_several {d : Derivation .program} (h : 2 ≤ d.mains.length) :
    assemble d.image = .error .severalMains := by
  rw [← d.length_mains] at h
  rw [assemble]
  split
  next hmains => simp [hmains] at h
  next hmains => simp [hmains] at h
  next => rfl

theorem exists_assemble {d : Derivation .program} (h : d.mains.length ≤ 1) :
    ∃ p, assemble d.image = .ok p := by
  rw [← d.length_mains] at h
  rw [assemble]
  split
  next => exact ⟨_, rfl⟩
  next => exact ⟨_, rfl⟩
  next hnone hone =>
    cases hmains : d.image.filterMap Item.main? with
    | nil => exact absurd hmains hnone
    | cons body rest =>
      rw [hmains, List.length_cons] at h
      obtain rfl := List.length_eq_zero_iff.mp (show rest.length = 0 by omega)
      exact absurd hmains (hone body)

/-- Literals are looked at from left to right. -/
theorem literalFault?_leftmost {before after : List Token} {t : Token} {fault : LiteralFault}
    (ht : t.Bad fault) (hbefore : ∀ t' ∈ before, ∀ fault', ¬t'.Bad fault') :
    literalFault? (before ++ t :: after) = some fault := by
  rw [literalFault?, List.findSome?_eq_some_iff]
  refine ⟨before, t, after, rfl, Token.fault?_eq_some_iff.mpr ht, fun t' ht' => ?_⟩
  rw [Option.eq_none_iff_forall_ne_some]
  exact fun fault' hfault => hbefore t' ht' fault' (Token.fault?_eq_some_iff.mp hfault)

end

section

open Host

end

end SmallImp.Source

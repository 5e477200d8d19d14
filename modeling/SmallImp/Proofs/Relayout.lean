import SmallImp.Proofs.Layout

/-!
# Layout does not matter

Any gap of a text that is read, also an empty one, can be filled with other blanks and comments. As
what is put there starts with a blank, it does not go on with the token before it, and as line
comments bring the end of their line, it does not swallow the token after it.

* `Padding`, `IsFresh` — what can be put into a gap;
* `Layout.Relaid` — the same pieces with other gaps;
* `Layout.Reads.relaid` — such a layout is read alike;
* `parse_relaid` — the program of a text does not depend on its layout.
-/

namespace SmallImp.Source

/-- Blanks, block comments, and line comments with the ends of their lines, whatever the comments
hold. -/
inductive Padding : List Char → Prop where
  | nil : Padding []
  | blanks {cs rest : List Char} (nonempty : cs ≠ []) (isBlank : ∀ c ∈ cs, isBlank c = true)
      (more : Padding rest) : Padding (cs ++ rest)
  | block {body rest : List Char} (noEnd : ¬['*', '/'] <:+: body) (more : Padding rest) :
      Padding ('/' :: '*' :: (body ++ '*' :: '/' :: rest))
  | line {body rest : List Char} (oneLine : '\n' ∉ body) (more : Padding rest) :
      Padding ('/' :: '/' :: (body ++ '\n' :: rest))

/-- What can be put into any gap: padding that starts with a blank. -/
structure IsFresh (gap : List Char) : Prop where
  padding : Padding gap
  starts : ∃ c tail, gap = c :: tail ∧ isBlank c = true

/-- A star after a text does not end a comment. -/
theorem not_infix_append_star {body : List Char} (h : ¬['*', '/'] <:+: body) :
    ¬['*', '/'] <:+: body ++ ['*'] := by
  rw [List.infix_concat_iff, not_or]
  refine ⟨?_, h⟩
  rintro ⟨before, heq⟩
  have hlast := congrArg List.getLast? heq
  simp at hlast

/-- Padding is a gap, whatever comes after it. -/
theorem Padding.gap {cs : List Char} (h : Padding cs) (rest : List Char) : Gap cs rest := by
  induction h with
  | nil => exact .nil
  | blanks nonempty isBlank _ ih => exact .cons (.blanks nonempty isBlank) ih
  | @block body after noEnd _ ih =>
    have hgap := Gap.cons (.block (not_infix_append_star noEnd)) ih
    simpa using hgap
  | @line body after oneLine _ ih =>
    have hbreak : Filler ['\n'] (after ++ rest) :=
      .blanks (by simp) (List.all_eq_true.mp (by decide))
    have hline : Filler ('/' :: '/' :: body) (['\n'] ++ after ++ rest) := by
      refine .line (fun c hc heq => oneLine (heq ▸ hc)) ?_
      intro c tail heq
      cases heq
      rfl
    exact .cons hline (.cons hbreak ih)

namespace Layout

/-- The same pieces, with each gap kept or filled anew. -/
inductive Relaid : Layout → Layout → Prop where
  | last {gap gap' : List Char} (regap : gap' = gap ∨ IsFresh gap') : Relaid (last gap) (last gap')
  | next {gap gap' : List Char} {piece : Piece} {rest rest' : Layout}
      (regap : gap' = gap ∨ IsFresh gap') (more : Relaid rest rest') :
      Relaid (next gap piece rest) (next gap' piece rest')

/-- The layout of a text that is read: it has the text's tokens at their places, and what is left of
the text is in its gaps. -/
structure IsOf (l : Layout) (text : String) : Prop where
  text_eq : l.text = text.toList
  tokens_eq : ∃ c : Cursor, readAll text.toList = .ok c ∧ l.tokens .start = c.tokens.reverse

/-- A text that is laid out anew starts as before or with a blank. -/
theorem Relaid.head {l l' : Layout} (h : l.Relaid l') {s s' : State} (hl : l.Reads s s') :
    l'.text.head? = l.text.head? ∨ ∃ c tail, l'.text = c :: tail ∧ isBlank c = true := by
  cases h with
  | last regap =>
    rcases regap with rfl | hfresh
    · exact .inl rfl
    · exact .inr hfresh.starts
  | @next gap gap' piece rest rest' regap more =>
    rcases regap with rfl | hfresh
    · left
      -- the piece is not empty, so it is the gap or the piece that gives the first character
      cases hl with
      | next _ fits _ _ _ =>
        obtain ⟨c, tail, hpiece, -⟩ := fits.isIn.head
        rw [text, text, hpiece]
        cases gap' <;> rfl
    · obtain ⟨c, tail, rfl, hc⟩ := hfresh.starts
      exact .inr ⟨c, _, rfl, hc⟩

/-- **A layout with other gaps is read alike.** -/
theorem Reads.relaid {s s' : State} {l : Layout} (h : l.Reads s s') :
    ∀ {l' : Layout}, l.Relaid l' → l'.Reads s s' := by
  induction h with
  | last isGap =>
    rintro l' ⟨rfl | hfresh⟩
    · exact .last isGap
    · exact .last (hfresh.padding.gap [])
  | @next s t s' gap piece rest isGap fits taken ends more ih =>
    intro l' hl
    cases hl with
    | @next _ gap' _ _ rest' regap hrest =>
      have hgap : Gap gap' (piece.text ++ rest'.text) := by
        rcases regap with rfl | hfresh
        · obtain ⟨c, tail, hpiece, hc⟩ := fits.isIn.head
          rw [hpiece] at isGap
          exact isGap.follow (fun hbreak => by simp [hbreak, isBlank] at hc) _
        · exact hfresh.padding.gap _
      have hends : StopsAt (piece.terminal.goesOn s.context.allows) rest'.text := by
        rcases hrest.head more with hsame | ⟨c, tail, htext, hc⟩
        · exact ends.of_head? hsame
        · rw [htext]
          exact .cons (Terminal.goesOn_of_isBlank _ _ hc) tail
      exact .next hgap fits taken hends (ih hrest)

end Layout

/-- A text that is read has a layout that can be read. -/
theorem exists_layout {text : List Char} {c : Cursor} (h : readAll text = .ok c) :
    ∃ l : Layout, l.text = text ∧ l.tokens .start = c.tokens.reverse ∧
      l.Reads .initial c.state.unplaced ∧ c.state.unplaced.mayEnd = true := by
  obtain ⟨hsteps, hrest, hend⟩ := Cursor.run_steps (c := .ofText text) _ (Nat.le_refl _) h
  obtain ⟨before, l, tokens, htext, -, htokens, hreads, hlayout, hplaces⟩ :=
    hsteps.reads (.last .nil) (.inl ⟨rfl, hrest⟩)
  refine ⟨l, ?_, ?_, hreads, ?_⟩
  · rw [hlayout, show text = before ++ c.rest from htext, hrest]
    rfl
  · rw [htokens, show l.tokens .start = tokens ++ [] from hplaces]
    simp [Cursor.ofText]
  · rw [State.mayEnd_unplaced, hend]

/-- **The program of a text does not depend on its layout.** A text that is accepted has one layout,
and with any of its gaps filled anew it is accepted again and has the same program. -/
theorem parse_relaid [Host] {text : String} {p : Program} (h : parse text = .ok p) :
    ∃ l : Layout, l.IsOf text ∧ (∀ l' : Layout, l'.IsOf text → l' = l) ∧
      ∀ l' : Layout, l.Relaid l' → parse (String.ofList l'.text) = .ok p := by
  cases hc : readAll text.toList with
  | error fault =>
    rw [parse, hc] at h
    cases h
  | ok c =>
    obtain ⟨l, htext, htokens, hreads, hend⟩ := exists_layout hc
    refine ⟨l, ⟨htext, c, hc, htokens⟩, ?_, ?_⟩
    · rintro l' ⟨htext', c', hc', htokens'⟩
      rw [hc] at hc'
      cases hc'
      exact Layout.eq_of_tokens (htext'.trans htext.symm) (htokens'.trans htokens.symm)
    · -- both texts are read to the same trees, up to the places of their tokens
      intro l' hl'
      rw [(hreads.relaid hl').parse_iff hend, ← hreads.parse_iff hend, htext, String.ofList_toList]
      exact h

/-- A text without any blank. -/
def denseText : String := "main\x7bx=1;\x7d"

/-- The program of `denseText`. -/
def denseProgram : Program := ⟨[], .main [.assign (.str "x") (.lit (.int 1))]⟩

/-- The layout of `denseText`. -/
def denseLayout : Layout :=
  .next [] ⟨.keyword .main, "main".toList⟩ (.next [] ⟨.symbol .lbrace, ['\x7b']⟩
    (.next [] ⟨.name, ['x']⟩ (.next [] ⟨.symbol .equal, ['=']⟩ (.next [] ⟨.int, ['1']⟩
      (.next [] ⟨.symbol .semicolon, [';']⟩ (.next [] ⟨.symbol .rbrace, ['\x7d']⟩ (.last [])))))))

/-- The same pieces with a comment before the sign of the assignment, which holds a brace, and with one
at the end of the line, which holds a semicolon. -/
def commentedLayout : Layout :=
  .next [] ⟨.keyword .main, "main".toList⟩ (.next [] ⟨.symbol .lbrace, ['\x7b']⟩
    (.next [] ⟨.name, ['x']⟩ (.next " /*\x7d*/".toList ⟨.symbol .equal, ['=']⟩ (.next [] ⟨.int, ['1']⟩
      (.next "\t// ;\n".toList ⟨.symbol .semicolon, [';']⟩
        (.next [] ⟨.symbol .rbrace, ['\x7d']⟩ (.last [])))))))

theorem denseLayout_isOf : denseLayout.IsOf denseText := by
  have htokens : (readAll denseText.toList).map (·.tokens.reverse) =
      .ok (denseLayout.tokens .start) := by cbv
  refine ⟨by cbv, ?_⟩
  cases hread : readAll denseText.toList with
  | error fault =>
    rw [hread] at htokens
    cases htokens
  | ok c =>
    rw [hread] at htokens
    exact ⟨c, rfl, (Except.ok.inj htokens).symm⟩

theorem denseLayout_relaid : denseLayout.Relaid commentedLayout := by
  have hblank : ∀ c ∈ [' '], isBlank c = true := List.all_eq_true.mp (by decide)
  have htab : ∀ c ∈ ['\t'], isBlank c = true := List.all_eq_true.mp (by decide)
  have hblock : IsFresh ([' '] ++ '/' :: '*' :: (['\x7d'] ++ '*' :: '/' :: [])) :=
    ⟨.blanks (by simp) hblank (.block (by decide) .nil), ' ', _, rfl, rfl⟩
  have hline : IsFresh (['\t'] ++ '/' :: '/' :: ([' ', ';'] ++ '\n' :: [])) :=
    ⟨.blanks (by simp) htab (.line (by decide) .nil), '\t', _, rfl, rfl⟩
  exact .next (.inl rfl) (.next (.inl rfl) (.next (.inl rfl) (.next (.inr hblock) (.next (.inl rfl)
    (.next (.inr hline) (.next (.inl rfl) (.last (.inl rfl))))))))

section

open Host

/-- Two gaps that were empty are filled, and the program stays the same. -/
theorem parse_relaid_commented : parse denseText = .ok denseProgram ∧ denseLayout.IsOf denseText ∧
    denseLayout.Relaid commentedLayout ∧
    String.ofList commentedLayout.text = "main\x7bx /*\x7d*/=1\t// ;\n;\x7d" ∧
    parse "main\x7bx /*\x7d*/=1\t// ;\n;\x7d" = .ok denseProgram := by
  have hparse : parse denseText = .ok denseProgram := by cbv
  have htext : String.ofList commentedLayout.text = "main\x7bx /*\x7d*/=1\t// ;\n;\x7d" := by cbv
  obtain ⟨l, -, hunique, hrelaid⟩ := parse_relaid hparse
  rw [← hunique denseLayout denseLayout_isOf] at hrelaid
  refine ⟨hparse, denseLayout_isOf, denseLayout_relaid, htext, ?_⟩
  rw [← htext]
  exact hrelaid commentedLayout denseLayout_relaid

end

end SmallImp.Source

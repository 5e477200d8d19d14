import Mathlib.Data.List.Induction
import SmallImp.Proofs.Completion

/-!
# Where syntax errors are reported

A text that is no sentence of the grammar is refused at the first token or character that cannot come
next, or at its end. The place that is reported is the place of that token or character, and what
stands before it can be extended to a text that is accepted.

* `IsPlace` — the line and the column of an offset;
* `Accepted`, `Extensible` — texts that the grammar accepts, and their beginnings;
* `Fault.PlacedIn` — a fault is placed where it should be;
* `parse_error_placed` — every syntax error is placed so.
-/

namespace SmallImp.Source

/-! ### Places -/

/-- The place of an offset: one more than the line breaks before it, and one more than the characters
after the last of them. -/
structure IsPlace (text : List Char) (offset : Nat) (p : Position) : Prop where
  inText : offset ≤ text.length
  line : p.line = (text.take offset).count '\n' + 1
  column : p.column = ((text.take offset).reverse.takeWhile (· ≠ '\n')).length + 1

/-- The place after a text. -/
theorem advance_start (text : List Char) : Position.start.advance text =
    ⟨text.count '\n' + 1, (text.reverse.takeWhile (· ≠ '\n')).length + 1⟩ := by
  induction text using List.reverseRecOn with
  | nil => rfl
  | append_singleton text c ih =>
    rw [Position.advance_append, ih]
    by_cases hc : c = '\n'
    · simp [Position.advance, Position.next, hc]
    · simp [Position.advance, Position.next, hc, List.count_append]

theorem isPlace_iff {text : List Char} {offset : Nat} {p : Position} :
    IsPlace text offset p ↔
      offset ≤ text.length ∧ Position.start.advance (text.take offset) = p := by
  rw [advance_start]
  constructor
  · rintro ⟨hin, hline, hcolumn⟩
    refine ⟨hin, ?_⟩
    rw [← hline, ← hcolumn]
  · rintro ⟨hin, rfl⟩
    exact ⟨hin, rfl, rfl⟩

/-- A place belongs to one offset. -/
theorem IsPlace.unique {text : List Char} {k k' : Nat} {p : Position} (h : IsPlace text k p)
    (h' : IsPlace text k' p) : k = k' := by
  obtain ⟨hin, hp⟩ := isPlace_iff.mp h
  obtain ⟨hin', hp'⟩ := isPlace_iff.mp h'
  have hsplit : text.take k ++ text.drop k = text.take k' ++ text.drop k' := by
    rw [List.take_append_drop, List.take_append_drop]
  have hlength := congrArg List.length (Position.advance_injective hsplit (hp.trans hp'.symm))
  rwa [List.length_take_of_le hin, List.length_take_of_le hin'] at hlength

/-! ### Beginnings of texts that are accepted -/

/-- A text that is read to its end as the given tokens, which have a derivation. -/
structure Accepted (text : List Char) (tokens : List Token) : Prop where
  read : ∃ c : Cursor, readAll text = .ok c ∧ c.tokens.reverse = tokens
  derived : ∃ d : Derivation .program, d.yield = tokens

/-- A text that can be extended to one that is accepted. -/
def Extensible (text : List Char) : Prop := ∃ after tokens, Accepted (text ++ after) tokens

theorem State.feedAll_unplaced (tokens : List Token) : ∀ {s s' : State}, s.feedAll tokens = some s' →
    s.unplaced.feedAll (tokens.map Token.unplaced) = some s'.unplaced := by
  induction tokens with
  | nil =>
    intro s s' h
    cases h
    rfl
  | cons t rest ih =>
    intro s s' h
    rw [feedAll] at h
    obtain ⟨next, hnext, hrest⟩ := Option.bind_eq_some_iff.mp h
    have hfeed := feed?_unplaced s t
    rw [hnext, Option.map_some] at hfeed
    rw [List.map_cons, feedAll_cons_of_some hfeed, ih hrest]

/-- **What has been read can be extended to a text that is accepted**, which starts with the tokens
read. -/
theorem Cursor.Steps.extensible [Host] {text : List Char} {c : Cursor} (h : Steps (.ofText text) c) :
    ∃ before, text = before ++ c.rest ∧ c.position = Position.start.advance before ∧
      ∃ after more, Accepted (before ++ after) (c.tokens.reverse ++ more) := by
  obtain ⟨xs, s, hfits, hfeed, hend⟩ := (h.holds .initial).completable
  -- the pieces to go on with are taken alike whatever the places of the tokens before them are
  have hfeed' := State.feedAll_unplaced _ hfeed
  rw [List.map_map] at hfeed'
  obtain ⟨rest, hreads, hbreak⟩ :
      ∃ rest : Layout, rest.Reads c.state.unplaced s.unplaced ∧ ∃ tail, rest.text = '\n' :: tail := by
    have hbreak : Filler ['\n'] (Layout.ofPieces [] xs).text :=
      .blanks (by simp) (List.all_eq_true.mp (by decide))
    exact ⟨_, (Layout.reads_ofPieces xs (fun _ => .nil) hfits hfeed').indent hbreak, _,
      Layout.text_indent ..⟩
  obtain ⟨before, l, tokens, hrest, hposition, htokens, hl, htext, hplaces⟩ :=
    h.reads hreads (.inr hbreak)
  obtain ⟨placed, -, hread⟩ := hl.readAll (by rwa [State.mayEnd_unplaced])
  obtain ⟨-, d, hd, -⟩ := readAll_covers hread
  have hall : (l.tokens .start).reverse.reverse = c.tokens.reverse ++ rest.tokens c.position := by
    rw [List.reverse_reverse, show l.tokens .start = _ from hplaces, htokens]
    simp [ofText]
  rw [htext] at hread
  exact ⟨before, hrest, hposition, _, _, ⟨_, hread, hall⟩, d, hd.trans hall⟩

/-! ### Faults -/

/-- What stands at a place of a text, with a beginning before it that can be extended. -/
def FoundAt (text found : List Char) (p : Position) : Prop := ∃ offset, IsPlace text offset p ∧
  (∀ offset', IsPlace text offset' p → offset' = offset) ∧ found <+: text.drop offset ∧
  found ≠ [] ∧ Extensible (text.take offset)

/-- A text that ends too early, with the place of its last token, or the first place if it has no
token. -/
def EndsEarly (text : List Char) (p : Position) : Prop := ∃ tokens, Covers .start text tokens ∧
  (∃ after more, Accepted (text ++ after) (tokens ++ more)) ∧
  p = (tokens.getLast?.map (·.position)).getD .start

/-- A fault of the grammar is placed where it should be, and its wording names the place. The other
faults are none of the grammar. -/
def Fault.PlacedIn (text : List Char) : Fault → Prop
  | .unexpected t => FoundAt text t.text t.position ∧
    (Fault.unexpected t).message? = some ("Unexpected token Token('" ++ t.terminal.label ++ "', "
      ++ Text.quote t.string ++ ") at line " ++ toString t.position.line ++ ", column "
      ++ toString t.position.column ++ ".")
  | .unexpectedEnd p => EndsEarly text p ∧
    (Fault.unexpectedEnd p).message? = some ("Unexpected token Token('$END', " ++ Text.quote ""
      ++ ") at line " ++ toString p.line ++ ", column " ++ toString p.column ++ ".")
  | .noTerminal c p => FoundAt text [c] p ∧
    (Fault.noTerminal c p).message? = some ("No terminal matches '" ++ String.singleton c
      ++ "' in the current parser context, at line " ++ toString p.line ++ " col "
      ++ toString p.column)
  | .literal _ => True
  | .severalMains => True

/-- Reading stops where a step fails, or at the end of a text that may not end there. -/
theorem Cursor.run_error (fuel : Nat) : ∀ {c : Cursor} {fault : Fault}, c.rest.length ≤ fuel →
    run fuel c = .error fault → ∃ c', Steps c c' ∧
      (c'.rest = [] ∧ fault = c'.endFault ∨ c'.rest ≠ [] ∧ c'.step = .error fault) := by
  induction fuel with
  | zero =>
    intro c fault hlength h
    have hrest : c.rest = [] := List.length_eq_zero_iff.mp (by omega)
    rw [run] at h
    split at h
    next => cases h
    next =>
      cases h
      exact ⟨c, .done c, .inl ⟨hrest, rfl⟩⟩
  | succ fuel ih =>
    intro c fault hlength h
    rw [run] at h
    split at h
    next hrest =>
      split at h
      next => cases h
      next =>
        cases h
        exact ⟨c, .done c, .inl ⟨hrest, rfl⟩⟩
    next char tail hrest =>
      split at h
      next d hstep =>
        have hshorter := step_length hstep
        obtain ⟨c', hsteps, hstop⟩ := ih (by omega) h
        exact ⟨c', .more hstep hsteps, hstop⟩
      next fault' hstep =>
        cases h
        exact ⟨c, .done c, .inr ⟨by simp [hrest], hstep⟩⟩

/-- A step that fails names what stands at the place that it has come to. -/
theorem Cursor.step_error {c : Cursor} {fault : Fault} (hrest : c.rest ≠ [])
    (h : c.step = .error fault) :
    (∃ k text, fault = .unexpected ⟨k, text, c.position⟩ ∧ text <+: c.rest ∧ text ≠ []) ∨
      ∃ char, fault = .noTerminal char c.position ∧ [char] <+: c.rest := by
  have hfound : ∀ {allows : Terminal → Bool} {k : Terminal} {text rest : List Char},
      lexeme? allows c.rest = some (.token k text rest) → text <+: c.rest ∧ text ≠ [] := by
    intro allows k text rest hlexeme
    obtain ⟨hcs, -, hin⟩ := lexeme?_token hlexeme
    exact ⟨⟨rest, hcs.symm⟩, hin.ne_nil⟩
  rw [step] at h
  split at h
  next =>
    -- no terminal that is allowed matches, so all of them are tried
    cases h
    rw [refusal]
    split
    next k text rest hlexeme => exact .inl ⟨k, text, rfl, hfound hlexeme⟩
    next char tail htail _ => exact .inr ⟨char, rfl, tail, htail.symm⟩
    next htail _ => exact absurd htail hrest
  next => cases h
  next k text rest hlexeme =>
    dsimp only at h
    split at h
    next => cases h
    next =>
      cases h
      exact .inl ⟨k, text, rfl, hfound hlexeme⟩

/-- What stands at the place that reading has come to. -/
theorem Cursor.Steps.foundAt [Host] {text found : List Char} {c : Cursor} (h : Steps (.ofText text) c)
    (hfound : found <+: c.rest) (hne : found ≠ []) : FoundAt text found c.position := by
  obtain ⟨before, rfl, hposition, after, more, haccepted⟩ := h.extensible
  have hplace : IsPlace (before ++ c.rest) before.length c.position := by
    rw [isPlace_iff, List.take_left]
    exact ⟨by simp, hposition.symm⟩
  refine ⟨before.length, hplace, fun _ h' => h'.unique hplace, ?_, hne, ?_⟩
  · rw [List.drop_left]
    exact hfound
  · rw [List.take_left]
    exact ⟨after, _, haccepted⟩

/-- The end of a text that has been read. -/
theorem Cursor.Steps.endsEarly [Host] {text : List Char} {c : Cursor} (h : Steps (.ofText text) c)
    (hrest : c.rest = []) : ∃ p, c.endFault = .unexpectedEnd p ∧ EndsEarly text p := by
  obtain ⟨before, htext, -, hextended⟩ := h.extensible
  rw [hrest, List.append_nil] at htext
  obtain ⟨tokens, htokens, hcovers⟩ := h.covers hrest
  have hreverse : c.tokens = tokens.reverse := by
    rw [htokens]
    simp [ofText]
  rw [← htext, hreverse, List.reverse_reverse] at hextended
  refine ⟨(tokens.getLast?.map (·.position)).getD .start, ?_, tokens, hcovers, hextended, rfl⟩
  rw [endFault, hreverse]
  cases tokens using List.reverseRecOn with
  | nil => rfl
  | append_singleton tokens t => simp

/-- **Syntax errors are reported at the right place.** -/
theorem parse_error_placed [Host] {text : String} {fault : Fault} (h : parse text = .error fault) :
    fault.PlacedIn text.toList := by
  rw [parse] at h
  split at h
  next fault' hread =>
    cases h
    obtain ⟨c, hsteps, hstop⟩ := Cursor.run_error (c := .ofText text.toList) _ (Nat.le_refl _) hread
    rcases hstop with ⟨hrest, rfl⟩ | ⟨hrest, hstep⟩
    · obtain ⟨p, hp, hends⟩ := hsteps.endsEarly hrest
      rw [hp]
      exact ⟨hends, rfl⟩
    · rcases Cursor.step_error hrest hstep with ⟨k, found, rfl, hfound, hne⟩ | ⟨char, rfl, hfound⟩
      · exact ⟨hsteps.foundAt hfound hne, rfl⟩
      · exact ⟨hsteps.foundAt hfound (by simp), rfl⟩
  next c hread =>
    cases hbuild : ItemTree.buildAll c.state.items.reverse with
    | error fault =>
      rw [buildProgram, hbuild] at h
      cases h
      trivial
    | ok items =>
      rw [buildProgram, hbuild] at h
      change assemble items = .error _ at h
      rw [assemble] at h
      split at h
      next => cases h
      next => cases h
      next =>
        cases h
        trivial

section

open Host

/-- A text whose third line starts inside of a comment and lacks an operand. -/
def brokenText : String := "main\x7b\n/* \u00e9\n*/ x = ;\x7d"

/-- The token that cannot come next in `brokenText`. -/
def brokenToken : Token := ⟨.symbol .semicolon, [';'], ⟨3, 8⟩⟩

theorem parse_error_placed_brokenText : parse brokenText = .error (.unexpected brokenToken) ∧
    (Fault.unexpected brokenToken).PlacedIn brokenText.toList :=
  have h : parse brokenText = .error (.unexpected brokenToken) := by cbv
  ⟨h, parse_error_placed h⟩

end

end SmallImp.Source

import SmallImp.Proofs.Placement
import SmallImp.Proofs.SourceSoundness
import SmallImp.Proofs.TokenContexts

/-!
# Layouts of texts

A text that is read is a row of pieces with gaps before, between and after them; gaps hold blanks and
comments only. Reading takes the pieces out of the text and forgets the gaps. What a layout has to
meet to be read is said piece by piece, so that a layout can be changed in one place.

* `Gap` — blanks and comments one after the other;
* `Position.advance_injective` — a place belongs to one beginning of a text;
* `Layout` — pieces with gaps around them, `Layout.text`, `Layout.tokens`;
* `Layout.Reads` — a layout takes a reading state to another one;
* `Layout.Reads.steps`, `Layout.Reads.parse_iff` — such a layout is what its text is read as;
* `Cursor.Steps.reads` — what has been read has a layout, and so has any text that goes on from there.
-/

namespace SmallImp.Source

/-! ### Gaps -/

theorem StopsAt.append_congr {p : Char → Bool} {text rest rest' : List Char}
    (h : text ≠ [] → StopsAt p (text ++ rest)) (h' : StopsAt p rest') :
    StopsAt p (text ++ rest') := by
  cases text with
  | nil => exact h'
  | cons c text => exact (h (by simp)).of_head? rfl

/-- Only a line comment asks for something after it: the end of its line. -/
theorem Filler.follow {text rest rest' : List Char} (h : Filler text rest)
    (hrest : StopsAt (· ≠ '\n') rest → StopsAt (· ≠ '\n') rest') : Filler text rest' := by
  cases h with
  | blanks nonempty isBlank => exact .blanks nonempty isBlank
  | block noEnd => exact .block noEnd
  | line oneLine atEnd =>
    refine .line oneLine ?_
    intro c tail heq
    have hstop : StopsAt (· ≠ '\n') rest := by
      intro c tail heq
      simpa using atEnd c tail heq
    simpa using hrest hstop c tail heq

/-- Blanks and comments one after the other, with the text after them. -/
inductive Gap : List Char → List Char → Prop where
  | nil {rest : List Char} : Gap [] rest
  | cons {text gap rest : List Char} (filler : Filler text (gap ++ rest)) (more : Gap gap rest) :
      Gap (text ++ gap) rest

namespace Gap

variable {gap rest : List Char}

theorem of_blanks (h : ∀ c ∈ gap, isBlank c = true) : Gap gap rest := by
  cases gap with
  | nil => exact .nil
  | cons c gap =>
    rw [← List.append_nil (c :: gap)]
    exact .cons (.blanks (by simp) h) .nil

/-- Blanks at the beginning of a gap can be left out. -/
theorem dropBlanks (h : Gap gap rest) : Gap (gap.dropWhile isBlank) rest := by
  induction h with
  | nil => exact .nil
  | cons filler more ih =>
    have hslash : isBlank '/' = false := by decide
    cases filler with
    | blanks nonempty isBlank =>
      rw [List.dropWhile_append_of_pos isBlank]
      exact ih
    | block noEnd =>
      rw [List.cons_append, List.dropWhile_cons_of_neg (by simp [hslash])]
      exact .cons (.block noEnd) more
    | line oneLine atEnd =>
      rw [List.cons_append, List.dropWhile_cons_of_neg (by simp [hslash])]
      exact .cons (.line oneLine atEnd) more

/-- A gap before something that does not end a line is a gap before anything. -/
theorem follow {c : Char} {tail : List Char} (h : Gap gap (c :: tail)) (hc : c ≠ '\n')
    (rest : List Char) : Gap gap rest := by
  generalize hafter : c :: tail = after at h
  induction h with
  | nil => exact .nil
  | @cons text gap after filler more ih =>
    subst hafter
    refine .cons (filler.follow fun hstop => ?_) (ih rfl)
    cases gap with
    | nil => exact absurd (hstop c tail rfl) (by simp [hc])
    | cons d gap => exact hstop.of_head? rfl

end Gap

theorem scanCommentBody?_append {body : List Char} (h : ¬['*', '/'] <:+: body ++ ['*'])
    (rest : List Char) :
    scanCommentBody? (body ++ '*' :: '/' :: rest) = some (body ++ ['*', '/'], rest) := by
  induction body with
  | nil => rfl
  | cons c body ih =>
    rw [List.cons_append, List.infix_cons_iff, not_or] at h
    rw [List.cons_append, scanCommentBody?, ih h.2]
    · rfl
    · rintro tail rfl htail
      refine h.1 ?_
      cases body with
      | nil => cases htail
      | cons d body =>
        cases htail
        simp

/-- A comment is cut off as a whole. -/
theorem lexeme?_comment {allows : Terminal → Bool} {text rest : List Char}
    (h : Filler ('/' :: text) rest) :
    lexeme? allows ('/' :: text ++ rest) = some (.ignored ('/' :: text) rest) := by
  rw [List.cons_append, lexeme?_slash]
  cases h with
  | blanks _ isBlank => exact absurd (isBlank '/' List.mem_cons_self) (by decide)
  | @block body _ noEnd =>
    have hscan : scanBlockComment? ('/' :: '*' :: (body ++ ['*', '/']) ++ rest) =
        some ('/' :: '*' :: (body ++ ['*', '/']), rest) := by
      simp [scanBlockComment?, scanCommentBody?_append noEnd]
    rw [List.cons_append] at hscan
    rw [hscan]
    rfl
  | @line body _ oneLine atEnd =>
    have hbody : ∀ c ∈ body, decide (c ≠ '\n') = true := by simpa using oneLine
    have hstop : StopsAt (· ≠ '\n') rest := by simpa [StopsAt] using atEnd
    obtain ⟨htake, hdrop⟩ := takeWhile_stopsAt hbody hstop
    have hscan : scanLineComment? ('/' :: '/' :: (body ++ rest)) =
        some ('/' :: '/' :: body, rest) := by
      rw [scanLineComment?, htake, hdrop]
    rw [List.cons_append, hscan]
    rfl

namespace Cursor

/-- What one step does, with the lexeme it cuts off. -/
theorem step_lexeme {c c' : Cursor} (h : c.step = .ok c') :
    (∃ text rest, lexeme? c.state.context.allows c.rest = some (.ignored text rest) ∧
      c' = { c with position := c.position.advance text, rest }) ∨
    ∃ k text rest s, lexeme? c.state.context.allows c.rest = some (.token k text rest) ∧
      c.state.feed? ⟨k, text, c.position⟩ = some s ∧
      c' = ⟨s, c.position.advance text, rest, ⟨k, text, c.position⟩ :: c.tokens⟩ := by
  rw [step] at h
  split at h
  next => cases h
  next text rest hlexeme =>
    cases h
    exact .inl ⟨text, rest, hlexeme, rfl⟩
  next k text rest hlexeme =>
    dsimp only at h
    split at h
    next s hs =>
      cases h
      exact .inr ⟨k, text, rest, s, hlexeme, hs, rfl⟩
    next => cases h

theorem step_ignored {c : Cursor} {text rest : List Char}
    (h : lexeme? c.state.context.allows c.rest = some (.ignored text rest)) :
    c.step = .ok { c with position := c.position.advance text, rest } := by
  rw [step, h]

theorem step_token {c : Cursor} {k : Terminal} {text rest : List Char} {s : State}
    (h : lexeme? c.state.context.allows c.rest = some (.token k text rest))
    (hs : c.state.feed? ⟨k, text, c.position⟩ = some s) :
    c.step = .ok ⟨s, c.position.advance text, rest, ⟨k, text, c.position⟩ :: c.tokens⟩ := by
  rw [step, h]
  dsimp only
  rw [hs]

/-- Steps to the end of a text are what reading takes. -/
theorem Steps.run {c c' : Cursor} (h : Steps c c') (hrest : c'.rest = [])
    (hend : c'.state.mayEnd = true) :
    ∀ {fuel : Nat}, c.rest.length ≤ fuel → Cursor.run fuel c = .ok c' := by
  induction h with
  | done c =>
    intro fuel _
    cases fuel with
    | zero => rw [Cursor.run, if_pos hend]
    | succ fuel =>
      rw [Cursor.run, hrest]
      simp [hend]
  | @more c d e step rest ih =>
    intro fuel hfuel
    have hshorter := step_length step
    cases fuel with
    | zero => omega
    | succ fuel =>
      rw [Cursor.run]
      split
      next hnil =>
        rw [hnil] at hshorter
        simp at hshorter
      next =>
        rw [step]
        exact ih hrest hend (by omega)

theorem Steps.trans {c d e : Cursor} (h : Steps c d) (h' : Steps d e) : Steps c e := by
  induction h with
  | done => exact h'
  | more step rest ih => exact .more step (ih h')

end Cursor

namespace Position

theorem advance_append (p : Position) (text text' : List Char) :
    p.advance (text ++ text') = (p.advance text).advance text' := List.foldl_append

/-- A text leads to a later line, or to a later column of the same line. -/
theorem advance_later (text : List Char) : ∀ p : Position, p.line < (p.advance text).line ∨
    p.line = (p.advance text).line ∧ (p.advance text).column = p.column + text.length := by
  induction text with
  | nil =>
    intro p
    exact .inr ⟨rfl, rfl⟩
  | cons c text ih =>
    intro p
    have hlater := ih (p.next c)
    rw [show p.advance (c :: text) = (p.next c).advance text from rfl, List.length_cons]
    by_cases hc : c = '\n'
    · have hnext : p.next c = ⟨p.line + 1, 1⟩ := if_pos hc
      rw [hnext] at hlater ⊢
      dsimp only at hlater
      omega
    · have hnext : p.next c = ⟨p.line, p.column + 1⟩ := if_neg hc
      rw [hnext] at hlater ⊢
      dsimp only at hlater
      omega

/-- Two beginnings of one text that lead to the same place are the same. -/
theorem advance_injective {p : Position} {text text' rest rest' : List Char}
    (h : text ++ rest = text' ++ rest') (hp : p.advance text = p.advance text') : text = text' := by
  have hnil : ∀ (q : Position) (more : List Char), q = q.advance more → more = [] := by
    intro q more hq
    have hlater := advance_later more q
    rw [← hq] at hlater
    exact List.length_eq_zero_iff.mp (by omega)
  rcases List.append_eq_append_iff.mp h with ⟨more, rfl, -⟩ | ⟨more, rfl, -⟩
  · rw [advance_append] at hp
    rw [hnil _ _ hp, List.append_nil]
  · rw [advance_append] at hp
    rw [hnil _ _ hp.symm, List.append_nil]

end Position

/-- What can be ignored starts with a blank, or it is a comment. -/
theorem Filler.head {text rest : List Char} (h : Filler text rest) :
    (∃ c tail, text = c :: tail ∧ isBlank c = true) ∨ ∃ tail, text = '/' :: tail := by
  cases h with
  | blanks nonempty isBlank =>
    obtain ⟨c, tail, rfl⟩ := List.exists_cons_of_ne_nil nonempty
    exact .inl ⟨c, tail, rfl, isBlank c List.mem_cons_self⟩
  | block => exact .inr ⟨_, rfl⟩
  | line => exact .inr ⟨_, rfl⟩

/-- The blanks at the beginning of a text end in front of what is no blank. -/
theorem blanks_append (gap : List Char) {rest : List Char} (hrest : StopsAt isBlank rest) :
    (gap ++ rest).takeWhile isBlank = gap.takeWhile isBlank ∧
      (gap ++ rest).dropWhile isBlank = gap.dropWhile isBlank ++ rest := by
  have hall : ∀ c ∈ gap.takeWhile isBlank, isBlank c = true := fun _ => List.mem_takeWhile_imp
  have hdropped : StopsAt isBlank (gap.dropWhile isBlank ++ []) := by
    intro c tail heq
    rw [List.append_nil] at heq
    have hhead := List.head?_dropWhile_not isBlank gap
    rw [heq] at hhead
    exact hhead
  have hstop : StopsAt isBlank (gap.dropWhile isBlank ++ rest) :=
    .append_congr (fun _ => hdropped) hrest
  have hblanks := takeWhile_stopsAt hall hstop
  rwa [← List.append_assoc, List.takeWhile_append_dropWhile] at hblanks

/-- A gap is read over. Blanks that touch are cut off together, so the induction is on the length of
the gap and not on its parts. -/
theorem Cursor.steps_gap (s : State) {rest : List Char} (tokens : List Token)
    (hrest : StopsAt isBlank rest) (n : Nat) : ∀ {gap : List Char} (p : Position), gap.length ≤ n →
      Gap gap rest → Steps ⟨s, p, gap ++ rest, tokens⟩ ⟨s, p.advance gap, rest, tokens⟩ := by
  induction n with
  | zero =>
    intro gap p hlength hgap
    obtain rfl : gap = [] := List.length_eq_zero_iff.mp (by omega)
    exact .done _
  | succ n ih =>
    intro gap p hlength hgap
    cases hgap with
    | nil => exact .done _
    | @cons text gap _ filler more =>
      rw [List.length_append] at hlength
      rcases filler.head with ⟨c, tail, rfl, hc⟩ | ⟨tail, rfl⟩
      · obtain ⟨htake, hdrop⟩ := blanks_append (c :: (tail ++ gap)) hrest
        have hlexeme : lexeme? s.context.allows (c :: (tail ++ gap ++ rest)) = _ := lexeme?_blank hc
        rw [← List.cons_append, htake, hdrop] at hlexeme
        have hdropped := (Gap.cons filler more).dropBlanks
        have hshorter : ((c :: (tail ++ gap)).dropWhile isBlank).length ≤ n := by
          rw [List.dropWhile_cons_of_pos hc]
          have hle := (List.dropWhile_sublist isBlank (l := tail ++ gap)).length_le
          simp only [List.length_append, List.length_cons] at hle hlength
          omega
        have hsteps := ih (p.advance ((c :: (tail ++ gap)).takeWhile isBlank)) hshorter hdropped
        rw [← Position.advance_append, List.takeWhile_append_dropWhile] at hsteps
        exact .more (step_ignored (c := ⟨s, p, c :: (tail ++ gap) ++ rest, tokens⟩) hlexeme) hsteps
      · have hstep := step_ignored (c := ⟨s, p, '/' :: tail ++ (gap ++ rest), tokens⟩)
          (lexeme?_comment filler)
        rw [← List.append_assoc] at hstep
        rw [Position.advance_append]
        exact .more hstep (ih _ (by simp only [List.length_cons] at hlength; omega) more)

/-! ### Layouts -/

/-- Pieces with gaps before, between and after them. -/
inductive Layout where
  | last (gap : List Char)
  | next (gap : List Char) (piece : Piece) (rest : Layout)

namespace Layout

/-- The text of a layout. -/
def text : Layout → List Char
  | last gap => gap
  | next gap piece rest => gap ++ (piece.text ++ rest.text)

/-- The tokens of a layout that starts at the given place. -/
def tokens : Layout → Position → List Token
  | last _, _ => []
  | next gap piece rest, p =>
    piece.token (p.advance gap) :: rest.tokens ((p.advance gap).advance piece.text)

/-- More text at the beginning of the first gap. -/
def indent (more : List Char) : Layout → Layout
  | last gap => last (more ++ gap)
  | next gap piece rest => next (more ++ gap) piece rest

@[simp] theorem text_indent (more : List Char) (l : Layout) :
    (l.indent more).text = more ++ l.text := by
  cases l <;> simp [indent, text]

theorem tokens_indent (more : List Char) (l : Layout) (p : Position) :
    (l.indent more).tokens p = l.tokens (p.advance more) := by
  cases l <;> simp [indent, tokens, Position.advance_append]

/-- A text with given tokens has one layout. -/
theorem eq_of_tokens {l : Layout} : ∀ {l' : Layout} {p : Position}, l.text = l'.text →
    l.tokens p = l'.tokens p → l = l' := by
  induction l with
  | last gap =>
    intro l' p htext htokens
    cases l' with
    | last gap' => rw [show gap = gap' from htext]
    | next gap' piece rest => cases htokens
  | next gap piece rest ih =>
    intro l' p htext htokens
    cases l' with
    | last gap' => cases htokens
    | next gap' piece' rest' =>
      obtain ⟨htoken, htokens⟩ := List.cons.inj htokens
      obtain ⟨hterminal, hpiece, hplace⟩ := Token.mk.inj htoken
      obtain rfl : gap = gap' := Position.advance_injective htext hplace
      obtain rfl : piece = piece' := by
        cases piece
        cases piece'
        simp_all
      rw [ih (List.append_cancel_left (List.append_cancel_left htext)) htokens]

/-- A layout takes a reading state to another one: the gaps are blanks and comments, each piece can
come next, and it ends where it says. -/
inductive Reads : State → Layout → State → Prop where
  | last {s : State} {gap : List Char} (isGap : Gap gap []) : Reads s (last gap) s
  | next {s t s' : State} {gap : List Char} {piece : Piece} {rest : Layout}
      (isGap : Gap gap (piece.text ++ rest.text)) (fits : piece.FitsIn s.context.allows)
      (taken : s.feed? (piece.token .start) = some t)
      (ends : StopsAt (piece.terminal.goesOn s.context.allows) rest.text)
      (more : Reads t rest s') : Reads s (next gap piece rest) s'

theorem Reads.indent {s s' : State} {l : Layout} {filler : List Char} (h : l.Reads s s')
    (hfiller : Filler filler l.text) : (l.indent filler).Reads s s' := by
  cases h with
  | last isGap =>
    refine .last (.cons ?_ isGap)
    rw [List.append_nil]
    exact hfiller
  | next isGap fits taken ends more => exact .next (.cons hfiller isGap) fits taken ends more

/-- **A layout that can be read is read**, from every state that is like the first one up to the places
of its tokens. -/
theorem Reads.steps {s s' : State} {l : Layout} (h : l.Reads s s') : ∀ (placed : State)
    (p : Position) (tokens : List Token), placed.unplaced = s →
    ∃ placed' : State, placed'.unplaced = s' ∧ Cursor.Steps ⟨placed, p, l.text, tokens⟩
      ⟨placed', p.advance l.text, [], (l.tokens p).reverse ++ tokens⟩ := by
  induction h with
  | @last s gap isGap =>
    intro placed p tokens hs
    refine ⟨placed, hs, ?_⟩
    simpa [text, Layout.tokens] using Cursor.steps_gap placed tokens .nil _ p (Nat.le_refl _) isGap
  | @next s t s' gap piece rest isGap fits taken ends more ih =>
    rintro placed p tokens rfl
    obtain ⟨c, tail, htext, hc⟩ := fits.isIn.head
    have hstop : StopsAt isBlank (piece.text ++ rest.text) := by
      rw [htext, List.cons_append]
      exact .cons hc _
    rw [State.context_unplaced] at fits ends
    -- the piece is taken at its place as it is at the first one
    have hfeed := State.feed?_unplaced placed (piece.token (p.advance gap))
    obtain ⟨next, hnext, hplaced⟩ := Option.map_eq_some_iff.mp (hfeed.symm.trans taken)
    have hstep := Cursor.step_token
      (c := ⟨placed, p.advance gap, piece.text ++ rest.text, tokens⟩) (lexeme?_piece fits ends) hnext
    obtain ⟨placed', hplaced', hmore⟩ := ih next ((p.advance gap).advance piece.text)
      (piece.token (p.advance gap) :: tokens) hplaced
    refine ⟨placed', hplaced', ?_⟩
    rw [text, Position.advance_append, Position.advance_append]
    simp only [Layout.tokens, List.reverse_cons, List.append_assoc, List.singleton_append]
    exact (Cursor.steps_gap placed tokens hstop _ p (Nat.le_refl _) isGap).trans (.more hstep hmore)

theorem Reads.readAll {s : State} {l : Layout} (h : l.Reads .initial s) (hend : s.mayEnd = true) :
    ∃ placed : State, placed.unplaced = s ∧ readAll l.text =
      .ok ⟨placed, Position.start.advance l.text, [], (l.tokens .start).reverse⟩ := by
  obtain ⟨placed, rfl, hsteps⟩ := h.steps .initial .start [] rfl
  rw [List.append_nil] at hsteps
  rw [State.mayEnd_unplaced] at hend
  exact ⟨placed, rfl, hsteps.run rfl hend (Nat.le_refl _)⟩

/-- The program of a layout that can be read. -/
theorem Reads.parse_iff [Host] {s : State} {l : Layout} (h : l.Reads .initial s) (hend : s.mayEnd = true)
    {p : Program} : parse (String.ofList l.text) = .ok p ↔ buildProgram s.items.reverse = .ok p := by
  obtain ⟨placed, rfl, hread⟩ := h.readAll hend
  rw [Source.parse, String.toList_ofList, hread, ← buildProgram_unplaced, List.map_reverse]
  rfl

end Layout

/-! ### The layout of what has been read -/

theorem lexeme?_ignored {allows : Terminal → Bool} {cs text rest : List Char}
    (h : lexeme? allows cs = some (.ignored text rest)) : cs = text ++ rest ∧ Filler text rest := by
  cases lexeme?_cuts h with
  | ignored filler => exact ⟨rfl, filler⟩

theorem lexeme?_token {allows : Terminal → Bool} {k : Terminal} {cs text rest : List Char}
    (h : lexeme? allows cs = some (.token k text rest)) :
    cs = text ++ rest ∧ allows k = true ∧ k.Matches text := by
  cases lexeme?_cuts h with
  | token allowed isIn _ => exact ⟨rfl, allowed, isIn⟩

/-- A name that is read is no keyword that is allowed. -/
theorem notWord_of_lexeme? {allows : Terminal → Bool} {cs text rest : List Char}
    (h : lexeme? allows cs = some (.token .name text rest)) {k : Keyword}
    (hk : Keyword.ofText? text = some k) : allows (.keyword k) = false := by
  have hcuts := lexeme?_cuts h
  cases hcuts with
  | token allowed isIn _ =>
    obtain ⟨more, rest', hscan⟩ := scans_name.reaches isIn rest
    obtain ⟨starts, -⟩ := isIn
    rw [List.cons_append] at h hscan
    rw [lexeme?_letter starts, nameLexeme?, if_pos allowed, hscan, Option.map_some, Option.some_or,
      Option.some.injEq] at h
    dsimp only at h
    by_contra hallowed
    rw [Bool.not_eq_false] at hallowed
    split at h
    next k' hk' =>
      rw [Lexeme.token.injEq] at h
      obtain ⟨hname, htext, -⟩ := h
      rw [htext, hk] at hk'
      cases hk'
      rw [if_pos hallowed] at hname
      cases hname
    next hnone =>
      rw [Lexeme.token.injEq] at h
      rw [h.2.1, hk] at hnone
      cases hnone

namespace Cursor

theorem Steps.lexeme? {c c' : Cursor} (h : Steps c c') (hne : c.rest ≠ c'.rest) :
    ∃ x, Source.lexeme? c.state.context.allows c.rest = some x := by
  cases h with
  | done => exact absurd rfl hne
  | more step rest =>
    obtain ⟨text, rest, h, -⟩ | ⟨k, text, rest, s, h, -, -⟩ := step_lexeme step
    · exact ⟨_, h⟩
    · exact ⟨_, h⟩

/-- **What has been read has a layout, and any layout can go on from there** that starts on a new
line, or that is empty where the text has been read to its end. -/
theorem Steps.reads {c c' : Cursor} (h : Steps c c') {l : Layout} {s : State}
    (hl : l.Reads c'.state.unplaced s)
    (hfollows : l.text = [] ∧ c'.rest = [] ∨ ∃ tail, l.text = '\n' :: tail) :
    ∃ (before : List Char) (l' : Layout) (tokens : List Token), c.rest = before ++ c'.rest ∧
      c'.position = c.position.advance before ∧ c'.tokens = tokens.reverse ++ c.tokens ∧
      l'.Reads c.state.unplaced s ∧ l'.text = before ++ l.text ∧
      l'.tokens c.position = tokens ++ l.tokens c'.position := by
  -- what comes next starts a new line, or is missing in both texts
  have hstop : ∀ p : Char → Bool, p '\n' = false → StopsAt p l.text := by
    intro p hp
    rcases hfollows with ⟨hnil, -⟩ | ⟨tail, hcons⟩
    · rw [hnil]
      exact .nil
    · rw [hcons]
      exact .cons hp tail
  induction h with
  | done c => exact ⟨[], l, [], rfl, rfl, rfl, hl, rfl, rfl⟩
  | @more c d c' step steps ih =>
    obtain ⟨before, l', tokens, hrest, hposition, htokens, hreads, htext, hlayout⟩ := ih hl hfollows
    rcases step_lexeme step with ⟨text, rest, hlexeme, rfl⟩ | ⟨k, text, rest, t, hlexeme, ht, rfl⟩
    all_goals dsimp only at hrest hposition htokens hreads hlayout
    · obtain ⟨hcs, hfiller⟩ := lexeme?_ignored hlexeme
      refine ⟨text ++ before, l'.indent text, tokens, ?_, ?_, htokens, hreads.indent ?_, ?_, ?_⟩
      · rw [hcs, hrest, List.append_assoc]
      · rw [hposition, Position.advance_append]
      · rw [htext]
        refine hfiller.follow fun h => ?_
        rw [hrest] at h
        exact .append_congr (fun _ => h) (hstop _ (by decide))
      · rw [Layout.text_indent, htext, List.append_assoc]
      · rw [Layout.tokens_indent, hlayout]
    · obtain ⟨hcs, hallowed, hin⟩ := lexeme?_token hlexeme
      have hends : before ≠ [] → StopsAt (k.goesOn c.state.context.allows) (before ++ c'.rest) := by
        intro hne
        rw [← hrest]
        rw [hcs] at hlexeme
        refine stopsAt_of_read hlexeme ht (.inr (steps.lexeme? ?_))
        rw [hrest]
        simpa using hne
      refine ⟨text ++ before, .next [] ⟨k, text⟩ l', ⟨k, text, c.position⟩ :: tokens, ?_, ?_, ?_,
        .next .nil ⟨?_, hin, ?_⟩ ?_ ?_ hreads, ?_, ?_⟩
      · rw [hcs, hrest, List.append_assoc]
      · rw [hposition, Position.advance_append]
      · rw [htokens]
        simp
      · rw [State.context_unplaced]
        exact hallowed
      · intro hname k' hk'
        dsimp only at hname
        subst hname
        rw [State.context_unplaced]
        exact notWord_of_lexeme? hlexeme hk'
      · have hfeed := State.feed?_unplaced c.state ⟨k, text, c.position⟩
        rw [ht] at hfeed
        exact hfeed
      · rw [htext, State.context_unplaced]
        exact .append_congr hends (hstop _ (Terminal.goesOn_of_isBlank _ k rfl))
      · rw [Layout.text, htext]
        simp
      · rw [List.cons_append, ← hlayout]
        rfl

end Cursor

end SmallImp.Source

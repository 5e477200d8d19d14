import Mathlib.Algebra.Group.Nat.Even
import SmallImp.Proofs.PrintParse

/-!
# Where text literals end

A text literal ends at the first quote that comes after an even number of backslashes, unless the line
ends before it. The scanner does not count backslashes: it reads a backslash together with the next
character. Both come to the same, and a text that was escaped is read back as it was, whatever follows.

* `trailingBackslashes`, `ClosedAfter` — where the closing quote stands;
* `isQuoted_iff` — reading escapes and counting backslashes agree;
* `lexeme?_quote_iff` — what is read at a quote;
* `quoted` — a text between quotes, escaped;
* `textLiteral_exact` — where literals end, and what they stand for.
-/

namespace SmallImp.Source

/-! ### Backslashes before a quote -/

/-- The number of backslashes at the end of a text. -/
def trailingBackslashes (cs : List Char) : Nat := (cs.reverse.takeWhile (· == '\\')).length

theorem trailingBackslashes_backslash (cs : List Char) :
    trailingBackslashes (cs ++ ['\\']) = trailingBackslashes cs + 1 := by
  simp [trailingBackslashes]

theorem trailingBackslashes_other (cs : List Char) {c : Char} (h : c ≠ '\\') :
    trailingBackslashes (cs ++ [c]) = 0 := by
  simp [trailingBackslashes, h]

theorem not_even_backslash {cs : List Char} (h : Even (trailingBackslashes cs)) :
    ¬Even (trailingBackslashes (cs ++ ['\\'])) := by
  rw [trailingBackslashes_backslash, Nat.even_add_one, not_not]
  exact h

theorem even_other (cs : List Char) {c : Char} (h : c ≠ '\\') :
    Even (trailingBackslashes (cs ++ [c])) := by
  rw [trailingBackslashes_other cs h]
  exact Even.zero

/-- A backslash and the character after it leave the parity as it is. -/
theorem even_escape {cs : List Char} (h : Even (trailingBackslashes cs)) (c : Char) :
    Even (trailingBackslashes (cs ++ ['\\'] ++ [c])) := by
  by_cases hc : c = '\\'
  · rw [hc, trailingBackslashes_backslash, Nat.even_add_one]
    exact not_even_backslash h
  · exact even_other _ hc

/-- After an opening, the closing quote of a literal stands after `body`: no line ends before it, it
comes after an even number of backslashes, and it is the first quote that does. -/
structure ClosedAfter (opening body : List Char) : Prop where
  oneLine : '\n' ∉ body
  even : Even (trailingBackslashes (opening ++ body))
  first : ∀ front back, body = front ++ '"' :: back → ¬Even (trailingBackslashes (opening ++ front))

theorem closedAfter_nil {opening : List Char} :
    ClosedAfter opening [] ↔ Even (trailingBackslashes opening) := by
  refine ⟨fun h => by simpa using h.even, fun h => ⟨by simp, by simpa using h, ?_⟩⟩
  intro front back heq
  simp at heq

theorem closedAfter_cons {opening body : List Char} {c : Char} :
    ClosedAfter opening (c :: body) ↔
      c ≠ '\n' ∧ (c = '"' → ¬Even (trailingBackslashes opening)) ∧ ClosedAfter (opening ++ [c]) body := by
  constructor
  · rintro ⟨honeLine, heven, hfirst⟩
    rw [List.mem_cons, not_or] at honeLine
    refine ⟨Ne.symm honeLine.1, ?_, honeLine.2, by simpa using heven, ?_⟩
    · rintro rfl
      simpa using hfirst [] body rfl
    · rintro front back rfl
      simpa using hfirst (c :: front) back rfl
  · rintro ⟨hc, hquote, honeLine, heven, hfirst⟩
    refine ⟨by simpa using ⟨Ne.symm hc, honeLine⟩, by simpa using heven, ?_⟩
    intro front back heq
    cases front with
    | nil =>
      obtain ⟨rfl, rfl⟩ := List.cons.inj heq
      simpa using hquote rfl
    | cons d front =>
      obtain ⟨rfl, rfl⟩ := List.cons.inj heq
      simpa using hfirst front back rfl

theorem IsQuoted.closedAfter {body : List Char} (h : IsQuoted body) :
    ∀ {opening : List Char}, Even (trailingBackslashes opening) → ClosedAfter opening body := by
  induction h with
  | nil => exact closedAfter_nil.mpr
  | plain noQuote noEscape noBreak more ih =>
    intro opening _
    exact closedAfter_cons.mpr ⟨noBreak, fun h => absurd h noQuote, ih (even_other opening noEscape)⟩
  | escape noBreak more ih =>
    intro opening heven
    refine closedAfter_cons.mpr ⟨by decide, fun h => absurd h (by decide), ?_⟩
    exact closedAfter_cons.mpr ⟨noBreak, fun _ => not_even_backslash heven, ih (even_escape heven _)⟩

theorem ClosedAfter.isQuoted : ∀ {body opening : List Char}, ClosedAfter opening body →
    Even (trailingBackslashes opening) → IsQuoted body
  | [], _, _, _ => .nil
  | [c], opening, h, heven => by
    obtain ⟨hbreak, hquote, hend⟩ := closedAfter_cons.mp h
    refine .plain (fun hc => hquote hc heven) ?_ hbreak .nil
    -- the closing quote would come after an odd number of backslashes
    rintro rfl
    exact not_even_backslash heven (closedAfter_nil.mp hend)
  | c :: d :: rest, opening, h, heven => by
    obtain ⟨hbreak, hquote, hrest⟩ := closedAfter_cons.mp h
    by_cases hc : c = '\\'
    · subst hc
      obtain ⟨hbreak', -, hrest'⟩ := closedAfter_cons.mp hrest
      exact .escape hbreak' (hrest'.isQuoted (even_escape heven d))
    · exact .plain (fun hc => hquote hc heven) hc hbreak (hrest.isQuoted (even_other opening hc))

/-- The characters of a literal, read escape by escape, are those up to its closing quote. -/
theorem isQuoted_iff {body : List Char} : IsQuoted body ↔ ClosedAfter ['"'] body :=
  ⟨fun h => h.closedAfter (even_other [] (by decide)),
    fun h => h.isQuoted (even_other [] (by decide))⟩

/-! ### What is read at a quote -/

variable {allows : Terminal → Bool}

theorem symbolLexeme?_quote (cs : List Char) : symbolLexeme? allows ('"' :: cs) = none := by
  simp [symbolLexeme?, Symbol.all, Symbol.spelling, scanExact?, tokenOf?]

/-- At a quote there is a text literal or nothing. -/
theorem lexeme?_quote (cs : List Char) :
    lexeme? allows ('"' :: cs) = tokenOf? allows .text (scanText? ('"' :: cs)) := by
  rw [lexeme?, scanFloat?_none (by decide), nameLexeme?, scanName?_none (by decide),
    scanBlockComment?_none (.of_ne (by decide)), scanBlanks?_none (by decide),
    scanLineComment?_none (.of_ne (by decide)), scanDigits?_none (by decide),
    keywordLexeme?_none (by decide), symbolLexeme?_quote]
  simp [tokenOf?, ignoredOf?]

theorem lexeme?_quote_iff (ha : allows .text = true) {cs : List Char} {lexeme : Lexeme} :
    lexeme? allows ('"' :: cs) = some lexeme ↔ ∃ body rest, cs = body ++ '"' :: rest ∧
      ClosedAfter ['"'] body ∧ lexeme = .token .text ('"' :: (body ++ ['"'])) rest := by
  constructor
  · intro h
    rw [lexeme?_quote, tokenOf?, if_pos ha, Option.map_eq_some_iff] at h
    obtain ⟨⟨text, rest⟩, hscan, rfl⟩ := h
    obtain ⟨hcs, ⟨hbody⟩⟩ := scans_text.sound hscan
    refine ⟨_, rest, ?_, isQuoted_iff.mp hbody, rfl⟩
    simpa using hcs
  · rintro ⟨body, rest, rfl, hbody, rfl⟩
    have htext : lexeme? allows ('"' :: (body ++ ['"']) ++ rest) =
        some (.token .text ('"' :: (body ++ ['"'])) rest) :=
      lexeme?_text ha (.mk (isQuoted_iff.mpr hbody))
    simpa using htext

/-! ### Escaped texts -/

/-- A text between quotes, escaped. -/
def quoted (s : String) : List Char := '"' :: (s.toList.flatMap escapeChar ++ ['"'])

theorem flatMap_escapeCode (s : String) :
    (Codes.ofString s).flatMap escapeCode = s.toList.flatMap escapeChar := by
  rw [Codes.ofString, Codes.ofChars, List.flatMap_map]
  rfl

section

variable [Host]

theorem literal?_quoted (s : String) (p : Position) :
    Token.literal? ⟨.text, quoted s, p⟩ = some (.ok (.str s)) := by
  show some ((unescape ((quoted s).drop 1).dropLast).map Literal.str) = _
  rw [quoted, List.drop_one, List.tail_cons, List.dropLast_concat, ← flatMap_escapeCode,
    unescape_escaped]
  rfl

/-- **Text literals are read exactly.** Where text literals are allowed, what is read at a quote is a
text literal up to the first quote after an even number of backslashes, and nothing if there is none
or if the line ends before it. A text between quotes, escaped, is read in full whatever follows, and
stands for the text. -/
theorem textLiteral_exact (allows : Terminal → Bool) (ha : allows .text = true) :
    (∀ cs lexeme, lexeme? allows ('"' :: cs) = some lexeme ↔ ∃ body rest, cs = body ++ '"' :: rest ∧
      ClosedAfter ['"'] body ∧ lexeme = .token .text ('"' :: (body ++ ['"'])) rest) ∧
    ∀ (s : String) rest, lexeme? allows (quoted s ++ rest) = some (.token .text (quoted s) rest) ∧
      ∀ p, Token.literal? ⟨.text, quoted s, p⟩ = some (.ok (.str s)) := by
  refine ⟨fun cs lexeme => lexeme?_quote_iff ha, fun s rest => ⟨?_, literal?_quoted s⟩⟩
  refine lexeme?_text ha (.mk ?_)
  rw [← flatMap_escapeCode]
  exact isQuoted_escaped _

end

section

open Host

/-- Two backslashes do not escape the quote after them. A backslash, a quote and a null character are
read back, although a digit and another quote follow. -/
theorem textLiteral_exact_backslashes :
    let allows : Terminal → Bool := fun _ => true
    ClosedAfter ['"'] ['a', '\\', '\\'] ∧
    lexeme? allows ['"', 'a', '\\', '\\', '"', '0', '"'] =
      some (.token .text ['"', 'a', '\\', '\\', '"'] ['0', '"']) ∧
    quoted "\\\"\x00" = ['"', '\\', '\\', '\\', '"', '\\', 'x', '0', '0', '"'] ∧
    lexeme? allows (quoted "\\\"\x00" ++ ['0', '"']) =
      some (.token .text (quoted "\\\"\x00") ['0', '"']) ∧
    Token.literal? ⟨.text, quoted "\\\"\x00", .start⟩ = some (.ok (.str "\\\"\x00")) := by
  intro allows
  have hclosed : ClosedAfter ['"'] ['a', '\\', '\\'] := isQuoted_iff.mp
    (.plain (by decide) (by decide) (by decide) (.escape (by decide) .nil))
  obtain ⟨hends, hquoted⟩ := textLiteral_exact allows rfl
  obtain ⟨hread, hvalue⟩ := hquoted "\\\"\x00" ['0', '"']
  exact ⟨hclosed, (hends _ _).mpr ⟨_, _, rfl, hclosed, rfl⟩, by decide, hread, hvalue .start⟩

end

end SmallImp.Source

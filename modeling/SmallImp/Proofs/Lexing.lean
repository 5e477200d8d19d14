import Mathlib.Data.List.TakeWhile
import Mathlib.Tactic.Common
import SmallImp.Source.Lexeme

/-!
# Lexemes and their classes

Each terminal has a class of texts. What the lexer cuts off the beginning of a text belongs to the
class of its terminal, and no longer beginning does; what it ignores is blanks or a comment.

* `Terminal.Matches` — the texts of a terminal;
* `Filler` — blanks and comments;
* `Scans` — a scanner cuts off the longest beginning that belongs to a class;
* `Cuts`, `lexeme?_cuts` — what the lexer cuts off.
-/

namespace SmallImp.Source

/-! ### Classes of texts -/

/-- A row of decimal digits. -/
def IsDigits (cs : List Char) : Prop := cs ≠ [] ∧ ∀ c ∈ cs, Text.isDecimalDigit c = true

/-- The sign of an exponent, which may be missing. -/
def IsSign (cs : List Char) : Prop := cs = [] ∨ cs = ['+'] ∨ cs = ['-']

/-- An exponent: its mark, a sign, and digits. -/
inductive IsExponent : List Char → Prop where
  | mk {mark : Char} {sign digits : List Char} (isMark : mark = 'e' ∨ mark = 'E')
      (isSign : IsSign sign) (isDigits : IsDigits digits) : IsExponent (mark :: (sign ++ digits))

/-- Digits on both sides of a point, and an exponent if there is one. -/
inductive IsFloat : List Char → Prop where
  | plain {whole fraction : List Char} (isWhole : IsDigits whole) (isFraction : IsDigits fraction) :
      IsFloat (whole ++ '.' :: fraction)
  | scaled {whole fraction exponent : List Char} (isWhole : IsDigits whole)
      (isFraction : IsDigits fraction) (isExponent : IsExponent exponent) :
      IsFloat (whole ++ '.' :: (fraction ++ exponent))

/-- A letter or an underscore, then letters, digits and underscores. -/
inductive IsName : List Char → Prop where
  | mk {c : Char} {rest : List Char} (starts : startsName c = true)
      (continues : ∀ x ∈ rest, continuesName x = true) : IsName (c :: rest)

/-- The characters between two quotes: on one line, with no quote that is not escaped. -/
inductive IsQuoted : List Char → Prop where
  | nil : IsQuoted []
  | plain {c : Char} {rest : List Char} (noQuote : c ≠ '"') (noEscape : c ≠ '\\') (noBreak : c ≠ '\n')
      (more : IsQuoted rest) : IsQuoted (c :: rest)
  | escape {c : Char} {rest : List Char} (noBreak : c ≠ '\n') (more : IsQuoted rest) :
      IsQuoted ('\\' :: c :: rest)

/-- A text literal with its quotes. -/
inductive IsText : List Char → Prop where
  | mk {body : List Char} (isQuoted : IsQuoted body) : IsText ('"' :: (body ++ ['"']))

/-- The texts of a terminal. -/
def Terminal.Matches : Terminal → List Char → Prop
  | .keyword k, cs => cs = k.spelling.toList
  | .name, cs => IsName cs
  | .int, cs => IsDigits cs
  | .float, cs => IsFloat cs
  | .text, cs => IsText cs
  | .symbol s, cs => cs = s.spelling

/-- Blanks and comments, with what follows them: a block comment ends at the first `*/`, a line
comment at the end of its line. -/
inductive Filler : List Char → List Char → Prop where
  | blanks {cs rest : List Char} (nonempty : cs ≠ []) (isBlank : ∀ c ∈ cs, isBlank c = true) :
      Filler cs rest
  | block {body rest : List Char} (noEnd : ¬['*', '/'] <:+: body ++ ['*']) :
      Filler ('/' :: '*' :: (body ++ ['*', '/'])) rest
  | line {body rest : List Char} (oneLine : ∀ c ∈ body, c ≠ '\n')
      (atEnd : ∀ c tail, rest = c :: tail → c = '\n') : Filler ('/' :: '/' :: body) rest

/-! ### Scanners -/

/-- A scanner cuts a beginning that belongs to a class off a text, and if some beginning belongs to
the class, it cuts off that one or a longer one. -/
structure Scans (scan : List Char → Option (List Char × List Char)) (P : List Char → Prop) : Prop where
  sound : ∀ {cs text rest : List Char}, scan cs = some (text, rest) → cs = text ++ rest ∧ P text
  reaches : ∀ {text : List Char}, P text → ∀ rest, ∃ more rest',
    scan (text ++ rest) = some (text ++ more, rest')

namespace Scans

variable {scan : List Char → Option (List Char × List Char)} {P : List Char → Prop}

/-- No longer beginning belongs to the class. -/
theorem longest (h : Scans scan P) {cs text rest : List Char} (hcs : scan cs = some (text, rest))
    {more rest' : List Char} (hrest : rest = more ++ rest') (hmore : P (text ++ more)) :
    more = [] := by
  obtain ⟨more', rest'', hscan⟩ := h.reaches hmore rest'
  obtain ⟨hsplit, -⟩ := h.sound hcs
  rw [List.append_assoc, ← hrest, ← hsplit, hcs] at hscan
  obtain ⟨htext, -⟩ := Prod.mk.inj (Option.some.inj hscan)
  have hlength := congrArg List.length htext
  simp only [List.length_append] at hlength
  exact List.length_eq_zero_iff.mp (by omega)

end Scans

theorem scans_digits : Scans scanDigits? IsDigits := by
  constructor
  · intro cs text rest h
    rw [scanDigits?] at h
    split at h
    next => cases h
    next hne =>
      cases h
      refine ⟨(List.takeWhile_append_dropWhile ..).symm, hne, ?_⟩
      intro c hc
      exact List.mem_takeWhile_imp hc
  · intro text h rest
    obtain ⟨hne, hall⟩ := h
    refine ⟨rest.takeWhile Text.isDecimalDigit, rest.dropWhile Text.isDecimalDigit, ?_⟩
    rw [scanDigits?, List.takeWhile_append_of_pos hall, List.dropWhile_append_of_pos hall]
    split
    next hnil => simp [hne] at hnil
    next => rfl

theorem IsDigits.exists_cons {cs : List Char} (h : IsDigits cs) :
    ∃ c rest, cs = c :: rest ∧ Text.isDecimalDigit c = true := by
  obtain ⟨hne, hall⟩ := h
  cases cs with
  | nil => exact absurd rfl hne
  | cons c rest => exact ⟨c, rest, rfl, hall c List.mem_cons_self⟩

theorem scanSign_append {sign digits : List Char} (hs : IsSign sign) (hd : IsDigits digits)
    (rest : List Char) : scanSign (sign ++ (digits ++ rest)) = (sign, digits ++ rest) := by
  obtain ⟨c, tail, rfl, hc⟩ := hd.exists_cons
  rcases hs with rfl | rfl | rfl
  · have hplus : c ≠ '+' := by
      rintro rfl
      revert hc
      decide
    have hminus : c ≠ '-' := by
      rintro rfl
      revert hc
      decide
    simp [scanSign, hplus, hminus]
  · rfl
  · rfl

theorem scanSign_sound {cs sign rest : List Char} (h : scanSign cs = (sign, rest)) :
    cs = sign ++ rest ∧ IsSign sign := by
  unfold scanSign at h
  split at h
  · cases h
    exact ⟨rfl, .inr (.inl rfl)⟩
  · cases h
    exact ⟨rfl, .inr (.inr rfl)⟩
  · cases h
    exact ⟨rfl, .inl rfl⟩

theorem scans_exponent : Scans scanExponent? IsExponent := by
  constructor
  · intro cs text rest h
    unfold scanExponent? at h
    split at h
    next mark tail =>
      split at h
      next hmark =>
        rcases hs : scanSign tail with ⟨sign, after⟩
        obtain ⟨hsplit, hsign⟩ := scanSign_sound hs
        simp only [hs] at h
        split at h
        next digits last hd =>
          cases h
          obtain ⟨hafter, hdigits⟩ := scans_digits.sound hd
          refine ⟨?_, .mk hmark hsign hdigits⟩
          rw [hsplit, hafter]
          simp
        next => cases h
      next => cases h
    next => cases h
  · rintro text ⟨hmark, hsign, hdigits⟩ rest
    obtain ⟨more, rest', hscan⟩ := scans_digits.reaches hdigits rest
    refine ⟨more, rest', ?_⟩
    simp [scanExponent?, hmark, scanSign_append hsign hdigits, hscan]

/-- Digits end at a character that is none. -/
theorem scanDigits?_stop {digits : List Char} (h : IsDigits digits) {c : Char}
    (hc : Text.isDecimalDigit c = false) (rest : List Char) :
    scanDigits? (digits ++ c :: rest) = some (digits, c :: rest) := by
  obtain ⟨hne, hall⟩ := h
  have htake : (c :: rest).takeWhile Text.isDecimalDigit = [] := by simp [hc]
  have hdrop : (c :: rest).dropWhile Text.isDecimalDigit = c :: rest := by simp [hc]
  rw [scanDigits?, List.takeWhile_append_of_pos hall, List.dropWhile_append_of_pos hall, htake, hdrop,
    List.append_nil]
  cases digits with
  | nil => exact absurd rfl hne
  | cons => rfl

theorem scans_float : Scans scanFloat? IsFloat := by
  constructor
  · intro cs text rest h
    unfold scanFloat? at h
    split at h
    next whole tail hw =>
      obtain ⟨hcs, hwhole⟩ := scans_digits.sound hw
      split at h
      next fraction after hf =>
        obtain ⟨htail, hfraction⟩ := scans_digits.sound hf
        split at h
        next exponent last he =>
          obtain ⟨hafter, hexponent⟩ := scans_exponent.sound he
          cases h
          have hfloat := IsFloat.scaled hwhole hfraction hexponent
          simp only [← List.cons_append, ← List.append_assoc] at hfloat
          refine ⟨?_, hfloat⟩
          rw [hcs, htail, hafter]
          simp
        next =>
          cases h
          refine ⟨?_, .plain hwhole hfraction⟩
          rw [hcs, htail]
          simp
      next => cases h
    next => cases h
  · intro text h rest
    have hpoint : Text.isDecimalDigit '.' = false := by decide
    cases h with
    | @plain whole fraction isWhole isFraction =>
      obtain ⟨more, rest', hscan⟩ := scans_digits.reaches isFraction rest
      have hwhole := scanDigits?_stop isWhole hpoint (fraction ++ rest)
      rw [List.append_assoc, List.cons_append, scanFloat?, hwhole]
      simp only [hscan]
      cases he : scanExponent? rest' with
      | none => exact ⟨more, rest', by simp⟩
      | some found => exact ⟨more ++ found.1, found.2, by simp⟩
    | @scaled whole fraction exponent isWhole isFraction isExponent =>
      obtain ⟨more, rest', hscan⟩ := scans_exponent.reaches isExponent rest
      have hmark : ∃ mark tail, exponent = mark :: tail ∧ Text.isDecimalDigit mark = false := by
        obtain ⟨hmark, -, -⟩ := isExponent
        refine ⟨_, _, rfl, ?_⟩
        rcases hmark with rfl | rfl <;> decide
      obtain ⟨mark, tail, rfl, hmark⟩ := hmark
      have hfraction := scanDigits?_stop isFraction hmark (tail ++ rest)
      have hwhole := scanDigits?_stop isWhole hpoint (fraction ++ mark :: (tail ++ rest))
      rw [List.cons_append] at hscan
      refine ⟨more, rest', ?_⟩
      simp only [List.append_assoc, List.cons_append, scanFloat?, hwhole, hfraction, hscan]

theorem scans_name : Scans scanName? IsName := by
  constructor
  · intro cs text rest h
    unfold scanName? at h
    split at h
    next c tail =>
      split at h
      next hc =>
        cases h
        refine ⟨?_, .mk hc fun x hx => List.mem_takeWhile_imp hx⟩
        rw [List.cons_append, List.takeWhile_append_dropWhile]
      next => cases h
    next => cases h
  · rintro text ⟨hc, hall⟩ rest
    refine ⟨rest.takeWhile continuesName, rest.dropWhile continuesName, ?_⟩
    rw [List.cons_append, scanName?, if_pos hc, List.takeWhile_append_of_pos hall,
      List.dropWhile_append_of_pos hall]
    rfl

/-! A text literal has only one end. -/

theorem scanTextBody?_append {body : List Char} (h : IsQuoted body) (rest : List Char) :
    scanTextBody? (body ++ '"' :: rest) = some (body ++ ['"'], rest) := by
  induction h with
  | nil => rfl
  | plain noQuote noEscape noBreak more ih =>
    rw [List.cons_append, scanTextBody?, ih]
    · rfl
    all_goals simp_all
  | escape noBreak more ih =>
    rw [List.cons_append, List.cons_append, scanTextBody?, ih]
    · rfl
    · exact noBreak

theorem scanTextBody?_sound (cs : List Char) : ∀ {text rest : List Char},
    scanTextBody? cs = some (text, rest) → cs = text ++ rest ∧
      ∃ body, text = body ++ ['"'] ∧ IsQuoted body := by
  fun_induction scanTextBody? cs with
  | case1 => exact fun h => by cases h
  | case2 tail =>
    intro text rest h
    cases h
    exact ⟨rfl, [], rfl, .nil⟩
  | case3 => exact fun h => by cases h
  | case4 => exact fun h => by cases h
  | case5 c tail hc ih =>
    intro text rest h
    obtain ⟨⟨text', rest'⟩, hscan, hmap⟩ := Option.map_eq_some_iff.mp h
    cases hmap
    obtain ⟨rfl, body, rfl, hbody⟩ := ih hscan
    exact ⟨rfl, '\\' :: c :: body, rfl, .escape (by simpa using hc) hbody⟩
  | case6 c tail hquote hbreak hescape hlast ih =>
    intro text rest h
    obtain ⟨⟨text', rest'⟩, hscan, hmap⟩ := Option.map_eq_some_iff.mp h
    cases hmap
    obtain ⟨rfl, body, rfl, hbody⟩ := ih hscan
    refine ⟨rfl, c :: body, rfl, .plain (by simpa using hquote) ?_ (by simpa using hbreak) hbody⟩
    -- a backslash before the closing quote would have been read with it
    intro hc
    cases body with
    | nil => exact hlast _ _ hc rfl
    | cons => exact hlast _ _ hc rfl

theorem scans_text : Scans scanText? IsText := by
  constructor
  · intro cs text rest h
    unfold scanText? at h
    split at h
    next tail =>
      obtain ⟨⟨text', rest'⟩, hscan, hmap⟩ := Option.map_eq_some_iff.mp h
      cases hmap
      obtain ⟨rfl, body, rfl, hbody⟩ := scanTextBody?_sound tail hscan
      exact ⟨rfl, .mk hbody⟩
    next => cases h
  · rintro text ⟨hbody⟩ rest
    refine ⟨[], rest, ?_⟩
    simp [scanText?, scanTextBody?_append hbody]

theorem scans_exact (spelling : List Char) : Scans (scanExact? spelling) (· = spelling) := by
  constructor
  · intro cs text rest h
    rw [scanExact?] at h
    split at h
    next hstarts =>
      cases h
      rw [ List.isPrefixOf_iff_prefix] at hstarts
      obtain ⟨tail, rfl⟩ := hstarts
      simp
    next => cases h
  · rintro text rfl rest
    refine ⟨[], rest, ?_⟩
    have hstarts : text.isPrefixOf (text ++ rest) := by
      rw [ List.isPrefixOf_iff_prefix]
      exact List.prefix_append ..
    rw [scanExact?, if_pos hstarts, List.drop_left, List.append_nil]

/-! ### Blanks and comments -/

theorem scanBlanks?_sound {cs text rest : List Char} (h : scanBlanks? cs = some (text, rest)) :
    cs = text ++ rest ∧ Filler text rest := by
  rw [scanBlanks?] at h
  split at h
  next => cases h
  next hne =>
    cases h
    refine ⟨(List.takeWhile_append_dropWhile ..).symm, .blanks hne ?_⟩
    intro c hc
    exact List.mem_takeWhile_imp hc

theorem scanLineComment?_sound {cs text rest : List Char}
    (h : scanLineComment? cs = some (text, rest)) : cs = text ++ rest ∧ Filler text rest := by
  unfold scanLineComment? at h
  split at h
  next tail =>
    cases h
    refine ⟨?_, .line ?_ ?_⟩
    · rw [List.cons_append, List.cons_append, List.takeWhile_append_dropWhile]
    · intro c hc
      simpa using List.mem_takeWhile_imp hc
    · intro c after hafter
      have hhead := List.head?_dropWhile_not (fun c => decide (c ≠ '\n')) tail
      rw [hafter] at hhead
      simpa using hhead
  next => cases h

/-- A block comment ends at its first end mark, which a star before it may be part of. -/
theorem scanCommentBody?_sound (cs : List Char) : ∀ {text rest : List Char},
    scanCommentBody? cs = some (text, rest) → cs = text ++ rest ∧
      ∃ body, text = body ++ ['*', '/'] ∧ ¬['*', '/'] <:+: body ++ ['*'] := by
  fun_induction scanCommentBody? cs with
  | case1 => exact fun h => by cases h
  | case2 tail =>
    intro text rest h
    cases h
    refine ⟨rfl, [], rfl, ?_⟩
    intro hinside
    simpa using hinside.length_le
  | case3 c tail hend ih =>
    intro text rest h
    obtain ⟨⟨text', rest'⟩, hscan, hmap⟩ := Option.map_eq_some_iff.mp h
    cases hmap
    obtain ⟨rfl, body, rfl, hbody⟩ := ih hscan
    refine ⟨rfl, c :: body, rfl, ?_⟩
    rw [List.cons_append, List.infix_cons_iff]
    rintro (hstart | hlater)
    · rw [List.cons_prefix_cons] at hstart
      obtain ⟨rfl, hstart⟩ := hstart
      cases body with
      | nil => simp at hstart
      | cons d body =>
        rw [List.cons_append, List.cons_prefix_cons] at hstart
        exact hend _ rfl (by rw [hstart.1]; rfl)
    · exact hbody hlater

theorem scanBlockComment?_sound {cs text rest : List Char}
    (h : scanBlockComment? cs = some (text, rest)) : cs = text ++ rest ∧ Filler text rest := by
  unfold scanBlockComment? at h
  split at h
  next tail =>
    obtain ⟨⟨text', rest'⟩, hscan, hmap⟩ := Option.map_eq_some_iff.mp h
    cases hmap
    obtain ⟨rfl, body, rfl, hbody⟩ := scanCommentBody?_sound tail hscan
    exact ⟨rfl, .block hbody⟩
  next => cases h

theorem Filler.ne_nil {cs rest : List Char} (h : Filler cs rest) : cs ≠ [] := by
  cases h with
  | blanks nonempty _ => exact nonempty
  | block _ => simp
  | line _ _ => simp

theorem Terminal.Matches.ne_nil {k : Terminal} {cs : List Char} (h : k.Matches cs) : cs ≠ [] := by
  cases k with
  | keyword k =>
    rintro rfl
    cases k <;> simp [Terminal.Matches, Keyword.spelling] at h
  | name =>
    obtain ⟨-, -⟩ := h
    simp
  | int => exact h.1
  | float => cases h <;> simp
  | text =>
    obtain ⟨-⟩ := h
    simp
  | symbol s =>
    rintro rfl
    cases s <;> simp [Terminal.Matches, Symbol.spelling] at h

/-! ### What the lexer cuts off -/

/-- What can be cut off a text: a token of a terminal that is allowed, as long as it can be, or
filler. -/
inductive Cuts (allows : Terminal → Bool) : List Char → Lexeme → Prop where
  | token {k : Terminal} {text rest : List Char} (allowed : allows k = true)
      (isIn : k.Matches text)
      (longest : ∀ more rest', rest = more ++ rest' → k.Matches (text ++ more) → more = []) :
      Cuts allows (text ++ rest) (.token k text rest)
  | ignored {text rest : List Char} (filler : Filler text rest) :
      Cuts allows (text ++ rest) (.ignored text rest)

section

variable {allows : Terminal → Bool} {cs : List Char} {x : Lexeme}

theorem tokenOf?_cuts {k : Terminal} {scan : List Char → Option (List Char × List Char)}
    (hs : Scans scan k.Matches) (h : tokenOf? allows k (scan cs) = some x) : Cuts allows cs x := by
  rw [tokenOf?] at h
  split at h
  next hallowed =>
    obtain ⟨⟨text, rest⟩, hscan, hmap⟩ := Option.map_eq_some_iff.mp h
    cases hmap
    obtain ⟨rfl, hin⟩ := hs.sound hscan
    exact .token hallowed hin fun more rest' hrest hmore => hs.longest hscan hrest hmore
  next => cases h

theorem ignoredOf?_cuts {scanned : Option (List Char × List Char)}
    (hs : ∀ {text rest}, scanned = some (text, rest) → cs = text ++ rest ∧ Filler text rest)
    (h : ignoredOf? scanned = some x) : Cuts allows cs x := by
  obtain ⟨⟨text, rest⟩, hscan, hmap⟩ := Option.map_eq_some_iff.mp h
  cases hmap
  obtain ⟨rfl, hfiller⟩ := hs hscan
  exact .ignored hfiller

/-- The class of a keyword or a symbol has a single text. -/
theorem eq_nil_of_append {text spelling : List Char} (h : text = spelling) {more : List Char}
    (hmore : text ++ more = spelling) : more = [] := by
  subst h
  simpa using hmore

theorem nameLexeme?_cuts (h : nameLexeme? allows cs = some x) : Cuts allows cs x := by
  rw [nameLexeme?] at h
  split at h
  next hallowed =>
    obtain ⟨⟨text, rest⟩, hscan, hmap⟩ := Option.map_eq_some_iff.mp h
    obtain ⟨rfl, hname⟩ := scans_name.sound hscan
    have hcut : Cuts allows (text ++ rest) (.token .name text rest) :=
      .token hallowed hname fun more rest' hrest hmore => scans_name.longest hscan hrest hmore
    dsimp only at hmap
    split at hmap
    next k hk =>
      have hspelling : text = k.spelling.toList := by
        have hfound := List.find?_some hk
        exact (beq_iff_eq.mp hfound).symm
      by_cases hword : allows (.keyword k) = true
      · rw [if_pos hword] at hmap
        cases hmap
        exact .token hword hspelling fun more _ _ hmore => eq_nil_of_append hspelling hmore
      · rw [if_neg hword] at hmap
        cases hmap
        exact hcut
    next =>
      cases hmap
      exact hcut
  next => cases h

/-- **What the lexer cuts off.** -/
theorem lexeme?_cuts (h : lexeme? allows cs = some x) : Cuts allows cs x := by
  simp only [lexeme?, Option.or_eq_some_iff] at h
  rcases h with h | ⟨-, h | ⟨-, h | ⟨-, h | ⟨-, h | ⟨-, h | ⟨-, h | ⟨-, h | ⟨-, h⟩⟩⟩⟩⟩⟩⟩⟩
  · exact tokenOf?_cuts scans_float h
  · exact nameLexeme?_cuts h
  · exact tokenOf?_cuts scans_text h
  · exact ignoredOf?_cuts scanBlockComment?_sound h
  · exact ignoredOf?_cuts scanBlanks?_sound h
  · exact ignoredOf?_cuts scanLineComment?_sound h
  · exact tokenOf?_cuts scans_digits h
  · obtain ⟨k, -, hk⟩ := List.exists_of_findSome?_eq_some h
    exact tokenOf?_cuts (scans_exact _) hk
  · obtain ⟨s, -, hs⟩ := List.exists_of_findSome?_eq_some h
    exact tokenOf?_cuts (scans_exact _) hs

end

end SmallImp.Source

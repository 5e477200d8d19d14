import SmallImp.Proofs.Grammar
import SmallImp.Proofs.Lexing

/-!
# Where tokens end

Only the character right after a token decides whether the token ends there. A text of the class of
a terminal that is allowed, with a character after it that does not go on with it, is cut off as a
whole, whatever else is allowed there and whatever comes later. Blanks go on with nothing.

* `StopsAt` — a text that is empty or starts with a character of another kind;
* `Terminal.goesOn` — the characters that go on with a token;
* `Piece`, `Piece.FitsIn`, `Piece.Fits` — a token without a place, which a text can hold;
* `lexeme?_piece` — such a piece is cut off where it ends.
-/

namespace SmallImp.Source

/-- A text that is empty or starts with a character that lacks the property. -/
def StopsAt (p : Char → Bool) (rest : List Char) : Prop := ∀ c tail, rest = c :: tail → p c = false

namespace StopsAt

variable {p q : Char → Bool} {rest : List Char}

theorem nil : StopsAt p [] := by
  intro c tail h
  cases h

theorem cons {c : Char} (h : p c = false) (tail : List Char) : StopsAt p (c :: tail) := by
  intro d tail' heq
  cases heq
  exact h

theorem mono (h : StopsAt q rest) (hpq : ∀ c, q c = false → p c = false) : StopsAt p rest :=
  fun c tail heq => hpq c (h c tail heq)

/-- Whether a text stops is decided by its first character. -/
theorem of_head? {rest' : List Char} (h : StopsAt p rest) (hhead : rest'.head? = rest.head?) :
    StopsAt p rest' := by
  rintro c tail rfl
  cases rest with
  | nil => cases hhead
  | cons d rest =>
    cases hhead
    exact h c rest rfl

end StopsAt

/-- A row of characters of one kind ends at a character of another kind. -/
theorem takeWhile_stopsAt {p : Char → Bool} {text rest : List Char} (htext : ∀ c ∈ text, p c = true)
    (hrest : StopsAt p rest) :
    (text ++ rest).takeWhile p = text ∧ (text ++ rest).dropWhile p = rest := by
  rw [List.takeWhile_append_of_pos htext, List.dropWhile_append_of_pos htext]
  cases rest with
  | nil => simp
  | cons c tail => simp [hrest c tail rfl]

/-! ### Characters that go on with a token -/

/-- The pairs of characters that are read as one although the first could stand alone: symbols of
two characters and the beginnings of comments. -/
def pairs : List (List Char) :=
  [['-', '>'], ['=', '='], ['=', '>'], ['=', '<'], ['/', '/'], ['/', '*']]

/-- The characters that go on with a token. Where no name is allowed, a keyword is read as soon as it
is spelled. -/
def Terminal.goesOn (allows : Terminal → Bool) : Terminal → Char → Bool
  | .keyword _, c => allows .name && continuesName c
  | .name, c => continuesName c
  | .int, c => Text.isDecimalDigit c || c = '.'
  | .float, c => Text.isDecimalDigit c || c = 'e' || c = 'E'
  | .text, _ => false
  | .symbol s, c => pairs.contains (s.spelling ++ [c])

/-- A token without its place. -/
structure Piece where
  terminal : Terminal
  text : List Char

/-- The token of a piece at a place. -/
def Piece.token (x : Piece) (p : Position) : Token := ⟨x.terminal, x.text, p⟩

/-- A piece that can be written down where the given terminals are allowed: its text is of its
terminal, and if it is a name, it is no keyword that is allowed. -/
structure Piece.FitsIn (allows : Terminal → Bool) (x : Piece) : Prop where
  allowed : allows x.terminal = true
  isIn : x.terminal.Matches x.text
  notWord : x.terminal = .name → ∀ k, Keyword.ofText? x.text = some k → allows (.keyword k) = false

/-- A piece that can be written down anywhere: its text is of its terminal, is no keyword if it is a
name, and has a value if it is a literal. -/
structure Piece.Fits [Host] (x : Piece) : Prop where
  isIn : x.terminal.Matches x.text
  notWord : x.terminal = .name → Keyword.ofText? x.text = none
  noFault : ∀ p, (x.token p).fault? = none

theorem Piece.Fits.fitsIn [Host] {x : Piece} (h : x.Fits) {allows : Terminal → Bool}
    (ha : allows x.terminal = true) : x.FitsIn allows := by
  refine ⟨ha, h.isIn, ?_⟩
  intro hname k hk
  rw [h.notWord hname] at hk
  cases hk

/-! ### Characters -/

/-- The decimal digits of the first half of the Latin script are the usual ten. -/
theorem isDecimalDigit_of_small {c : Char} (h : c.toNat < 0x660) :
    Text.isDecimalDigit c = decide (0x30 ≤ c.toNat ∧ c.toNat < 0x3A) := by
  have hzeros : ∀ first ∈ Text.digitZeros.tail, 0x660 ≤ first := by decide
  have htail : Text.digitZeros.tail.findSome? (fun first =>
      if first ≤ c.toNat ∧ c.toNat < first + 10 then some (c.toNat - first) else none) = none := by
    rw [List.findSome?_eq_none_iff]
    intro first hfirst
    have hle := hzeros first hfirst
    rw [if_neg (by omega)]
  rw [Text.isDecimalDigit, Text.digitValue?,
    show Text.digitZeros = 0x30 :: Text.digitZeros.tail from rfl, List.findSome?_cons]
  by_cases hd : 0x30 ≤ c.toNat ∧ c.toNat < 0x3A
  · simp [hd]
  · rw [if_neg hd]
    simp [htail, hd]

theorem toNat_of_startsName {c : Char} (h : startsName c = true) : 65 ≤ c.toNat ∧ c.toNat ≤ 122 := by
  have hval : c.val.toNat = c.toNat := rfl
  change (decide (65 ≤ c.val ∧ c.val ≤ 90) || (decide (97 ≤ c.val) && decide (c.val ≤ 122)) ||
    decide (c = '_')) = true at h
  simp only [Bool.or_eq_true, Bool.and_eq_true, decide_eq_true_eq, UInt32.le_iff_toNat_le, hval] at h
  rcases h with (h | h) | rfl
  · exact ⟨h.1, Nat.le_trans h.2 (by decide)⟩
  · exact ⟨Nat.le_trans (by decide) h.1, h.2⟩
  · decide

theorem not_isDecimalDigit_of_startsName {c : Char} (h : startsName c = true) :
    Text.isDecimalDigit c = false := by
  obtain ⟨hlow, hhigh⟩ := toNat_of_startsName h
  rw [isDecimalDigit_of_small (by omega), decide_eq_false_iff_not]
  omega

theorem not_startsName_of_isDecimalDigit {c : Char} (h : Text.isDecimalDigit c = true) :
    startsName c = false := by
  by_contra hname
  rw [not_isDecimalDigit_of_startsName (by simpa using hname)] at h
  cases h

/-- A character that has a property is none that lacks it. -/
theorem ne_of_holds {p : Char → Bool} {c d : Char} (hc : p c = true) (hd : p d = false) : c ≠ d := by
  rintro rfl
  rw [hc] at hd
  cases hd

theorem not_isBlank_of_holds {p : Char → Bool} {c : Char} (hc : p c = true)
    (hblanks : [' ', '\t', '\x0c', '\r', '\n'].any p = false) : isBlank c = false := by
  simp only [List.any_cons, List.any_nil, Bool.or_eq_false_iff, and_true] at hblanks
  obtain ⟨hspace, htab, hfeed, hreturn, hbreak⟩ := hblanks
  simp [isBlank, ne_of_holds hc hspace, ne_of_holds hc htab, ne_of_holds hc hfeed,
    ne_of_holds hc hreturn, ne_of_holds hc hbreak]

theorem not_isBlank_of_startsName {c : Char} (h : startsName c = true) : isBlank c = false :=
  not_isBlank_of_holds h (by decide)

theorem not_isBlank_of_isDecimalDigit {c : Char} (h : Text.isDecimalDigit c = true) :
    isBlank c = false :=
  not_isBlank_of_holds h (by decide)

/-- What holds of no blank fails at a blank. -/
theorem not_holds_of_isBlank {p : Char → Bool} {c : Char} (hc : isBlank c = true)
    (hblanks : [' ', '\t', '\x0c', '\r', '\n'].any p = false) : p c = false := by
  by_contra hp
  rw [not_isBlank_of_holds (by simpa using hp) hblanks] at hc
  cases hc

/-- The first character of a token is no blank. -/
theorem Terminal.Matches.head {k : Terminal} {cs : List Char} (h : k.Matches cs) :
    ∃ c tail, cs = c :: tail ∧ isBlank c = false := by
  have hdigits : ∀ {digits : List Char} (rest : List Char), IsDigits digits →
      ∃ c tail, digits ++ rest = c :: tail ∧ isBlank c = false := by
    intro digits rest hd
    obtain ⟨c, tail, rfl, hc⟩ := hd.exists_cons
    exact ⟨c, tail ++ rest, rfl, not_isBlank_of_isDecimalDigit hc⟩
  cases k with
  | keyword k =>
    obtain rfl : cs = k.spelling.toList := h
    cases k <;> exact ⟨_, _, rfl, by decide⟩
  | name =>
    obtain ⟨hstarts, -⟩ := h
    exact ⟨_, _, rfl, not_isBlank_of_startsName hstarts⟩
  | int => simpa using hdigits [] h
  | float =>
    cases h with
    | plain isWhole _ => exact hdigits _ isWhole
    | scaled isWhole _ _ => exact hdigits _ isWhole
  | text =>
    obtain ⟨-⟩ := h
    exact ⟨_, _, rfl, by decide⟩
  | symbol s =>
    obtain rfl : cs = s.spelling := h
    cases s <;> exact ⟨_, _, rfl, by decide⟩

/-- **Blanks go on with nothing.** -/
theorem Terminal.goesOn_of_isBlank (allows : Terminal → Bool) (k : Terminal) {c : Char}
    (h : isBlank c = true) : k.goesOn allows c = false := by
  have hname : continuesName c = false := not_holds_of_isBlank h (by decide)
  cases k with
  | keyword => rw [goesOn, hname, Bool.and_false]
  | name => exact hname
  | int => exact not_holds_of_isBlank (p := fun c => Text.isDecimalDigit c || c = '.') h (by decide)
  | float =>
    exact not_holds_of_isBlank (p := fun c => Text.isDecimalDigit c || c = 'e' || c = 'E') h
      (by decide)
  | text => rfl
  | symbol s =>
    refine not_holds_of_isBlank (p := fun c => pairs.contains (s.spelling ++ [c])) h ?_
    cases s <;> decide

/-! ### Scanners that stop -/

theorem scanDigits?_stopsAt {digits rest : List Char} (h : IsDigits digits)
    (hrest : StopsAt Text.isDecimalDigit rest) : scanDigits? (digits ++ rest) = some (digits, rest) := by
  obtain ⟨htake, hdrop⟩ := takeWhile_stopsAt h.2 hrest
  rw [scanDigits?, htake, hdrop]
  obtain ⟨c, tail, rfl, -⟩ := h.exists_cons
  rfl

theorem scanName?_stopsAt {name rest : List Char} (h : IsName name)
    (hrest : StopsAt continuesName rest) : scanName? (name ++ rest) = some (name, rest) := by
  obtain ⟨hstarts, hcontinues⟩ := h
  obtain ⟨htake, hdrop⟩ := takeWhile_stopsAt hcontinues hrest
  rw [List.cons_append, scanName?, if_pos hstarts, htake, hdrop]

theorem scanExponent?_none {rest : List Char} (h : StopsAt (fun c => c = 'e' || c = 'E') rest) :
    scanExponent? rest = none := by
  cases rest with
  | nil => rfl
  | cons c tail =>
    have hmark := h c tail rfl
    simp only [Bool.or_eq_false_iff, decide_eq_false_iff_not] at hmark
    rw [scanExponent?, if_neg (by rintro (rfl | rfl) <;> simp at hmark)]

theorem scanExponent?_stopsAt {exponent rest : List Char} (h : IsExponent exponent)
    (hrest : StopsAt Text.isDecimalDigit rest) :
    scanExponent? (exponent ++ rest) = some (exponent, rest) := by
  obtain ⟨hmark, hsign, hdigits⟩ := h
  simp [scanExponent?, hmark, scanSign_append hsign hdigits, scanDigits?_stopsAt hdigits hrest]

theorem scanFloat?_stopsAt {float rest : List Char} (h : IsFloat float)
    (hdigit : StopsAt Text.isDecimalDigit rest)
    (hmark : StopsAt (fun c => c = 'e' || c = 'E') rest) :
    scanFloat? (float ++ rest) = some (float, rest) := by
  have hpoint : Text.isDecimalDigit '.' = false := by decide
  cases h with
  | @plain whole fraction isWhole isFraction =>
    rw [List.append_assoc, List.cons_append, scanFloat?,
      scanDigits?_stop isWhole hpoint (fraction ++ rest)]
    simp only [scanDigits?_stopsAt isFraction hdigit, scanExponent?_none hmark]
  | @scaled whole fraction exponent isWhole isFraction isExponent =>
    have hscan := scanExponent?_stopsAt isExponent hdigit
    have hfraction : scanDigits? (fraction ++ (exponent ++ rest)) =
        some (fraction, exponent ++ rest) := by
      refine scanDigits?_stopsAt isFraction ?_
      obtain ⟨hmark, -, -⟩ := isExponent
      refine .cons ?_ _
      rcases hmark with rfl | rfl <;> decide
    rw [List.append_assoc, List.cons_append, List.append_assoc, scanFloat?,
      scanDigits?_stop isWhole hpoint (fraction ++ (exponent ++ rest))]
    simp only [hfraction, hscan, List.append_assoc, List.cons_append]

/-! ### Scanners that find nothing -/

section

variable {c : Char} {tail : List Char}

theorem scanDigits?_none (h : Text.isDecimalDigit c = false) : scanDigits? (c :: tail) = none := by
  simp [scanDigits?, h]

theorem scanFloat?_none (h : Text.isDecimalDigit c = false) : scanFloat? (c :: tail) = none := by
  rw [scanFloat?, scanDigits?_none h]

theorem scanName?_none (h : startsName c = false) : scanName? (c :: tail) = none := by
  simp [scanName?, h]

theorem scanText?_none (h : c ≠ '"') : scanText? (c :: tail) = none := by
  unfold scanText?
  split
  next heq =>
    cases heq
    exact absurd rfl h
  next => rfl

theorem scanBlanks?_none (h : isBlank c = false) : scanBlanks? (c :: tail) = none := by
  simp [scanBlanks?, h]

/-- A slash opens no comment if no star and no other slash follows it. -/
def NoComment (c : Char) (tail : List Char) : Prop :=
  c = '/' → StopsAt (fun d => d = '*' || d = '/') tail

theorem NoComment.of_ne (h : c ≠ '/') : NoComment c tail := fun heq => absurd heq h

theorem scanBlockComment?_none (h : NoComment c tail) : scanBlockComment? (c :: tail) = none := by
  unfold scanBlockComment?
  split
  next rest heq =>
    obtain ⟨hc, htail⟩ := List.cons.inj heq
    have hstar := h hc _ _ htail
    simp at hstar
  next => rfl

theorem scanLineComment?_none (h : NoComment c tail) : scanLineComment? (c :: tail) = none := by
  unfold scanLineComment?
  split
  next rest heq =>
    obtain ⟨hc, htail⟩ := List.cons.inj heq
    have hslash := h hc _ _ htail
    simp at hslash
  next => rfl

end

/-! ### What a text starts with -/

section

variable {allows : Terminal → Bool} {text rest : List Char}

@[simp] theorem tokenOf?_none (k : Terminal) : tokenOf? allows k none = none := by
  simp [tokenOf?]

@[simp] theorem ignoredOf?_none : ignoredOf? none = none := rfl

theorem tokenOf?_some {k : Terminal} (h : allows k = true) :
    tokenOf? allows k (some (text, rest)) = some (.token k text rest) := by
  simp [tokenOf?, h]

/-- A text that starts with no quote, no blank and no comment. -/
theorem lexeme?_plain {c : Char} {tail : List Char} (hquote : c ≠ '"') (hblank : isBlank c = false)
    (hslash : NoComment c tail) :
    lexeme? allows (c :: tail) =
      (tokenOf? allows .float (scanFloat? (c :: tail))).or
        ((nameLexeme? allows (c :: tail)).or
          ((tokenOf? allows .int (scanDigits? (c :: tail))).or
            ((keywordLexeme? allows (c :: tail)).or (symbolLexeme? allows (c :: tail))))) := by
  rw [lexeme?, scanText?_none hquote, scanBlockComment?_none hslash, scanBlanks?_none hblank,
    scanLineComment?_none hslash]
  simp

/-- What starts like a name is a name or a keyword. -/
theorem lexeme?_letter {c : Char} {tail : List Char} (h : startsName c = true) :
    lexeme? allows (c :: tail) = (nameLexeme? allows (c :: tail)).or
      ((keywordLexeme? allows (c :: tail)).or (symbolLexeme? allows (c :: tail))) := by
  have hdigit := not_isDecimalDigit_of_startsName h
  have hquote : c ≠ '"' := ne_of_holds h (by decide)
  have hslash : c ≠ '/' := ne_of_holds h (by decide)
  rw [lexeme?_plain hquote (not_isBlank_of_startsName h) (.of_ne hslash), scanFloat?_none hdigit,
    scanDigits?_none hdigit]
  simp

theorem keywordLexeme?_none {c : Char} {tail : List Char} (h : startsName c = false) :
    keywordLexeme? allows (c :: tail) = none := by
  rw [keywordLexeme?, List.findSome?_eq_none_iff]
  intro k _
  obtain ⟨d, rest, hspelling, hd⟩ : ∃ d rest, k.spelling.toList = d :: rest ∧ startsName d = true := by
    cases k <;> exact ⟨_, _, rfl, by decide⟩
  have hne : d ≠ c := by
    rintro rfl
    rw [hd] at h
    cases h
  simp [hspelling, scanExact?, hne]

/-- What starts like a symbol is a symbol. -/
theorem lexeme?_sign {c : Char} {tail : List Char} (hdigit : Text.isDecimalDigit c = false)
    (hname : startsName c = false) (hquote : c ≠ '"') (hblank : isBlank c = false)
    (hslash : NoComment c tail) :
    lexeme? allows (c :: tail) = symbolLexeme? allows (c :: tail) := by
  rw [lexeme?_plain hquote hblank hslash, scanFloat?_none hdigit, scanDigits?_none hdigit,
    nameLexeme?, scanName?_none hname, keywordLexeme?_none hname]
  simp

/-- What starts with a blank is a row of blanks. -/
theorem lexeme?_blank {c : Char} {tail : List Char} (h : isBlank c = true) :
    lexeme? allows (c :: tail) =
      some (.ignored ((c :: tail).takeWhile isBlank) ((c :: tail).dropWhile isBlank)) := by
  have hdigit : Text.isDecimalDigit c = false := not_holds_of_isBlank h (by decide)
  have hname : startsName c = false := not_holds_of_isBlank h (by decide)
  have hquote : c ≠ '"' := ne_of_holds h (by decide)
  have hslash : c ≠ '/' := ne_of_holds h (by decide)
  have hblanks : scanBlanks? (c :: tail) =
      some ((c :: tail).takeWhile isBlank, (c :: tail).dropWhile isBlank) := by
    simp [scanBlanks?, h]
  rw [lexeme?, scanFloat?_none hdigit, nameLexeme?, scanName?_none hname, scanText?_none hquote,
    scanBlockComment?_none (.of_ne hslash), hblanks]
  simp [ignoredOf?]

/-- What starts with a slash is a comment or a symbol. -/
theorem lexeme?_slash {tail : List Char} :
    lexeme? allows ('/' :: tail) = (ignoredOf? (scanBlockComment? ('/' :: tail))).or
      ((ignoredOf? (scanLineComment? ('/' :: tail))).or (symbolLexeme? allows ('/' :: tail))) := by
  rw [lexeme?, scanFloat?_none (by decide), scanDigits?_none (by decide), nameLexeme?,
    scanName?_none (by decide), scanText?_none (by decide), scanBlanks?_none (by decide),
    keywordLexeme?_none (by decide)]
  simp

/-! ### Pieces where they end -/

theorem lexeme?_float (ha : allows .float = true) (ht : IsFloat text)
    (hrest : StopsAt (Terminal.float.goesOn allows) rest) :
    lexeme? allows (text ++ rest) = some (.token .float text rest) := by
  have hscan : scanFloat? (text ++ rest) = some (text, rest) := by
    refine scanFloat?_stopsAt ht (hrest.mono fun c hc => ?_) (hrest.mono fun c hc => ?_)
    · simp only [Terminal.goesOn, Bool.or_eq_false_iff] at hc
      exact hc.1.1
    · simp only [Terminal.goesOn, Bool.or_eq_false_iff] at hc ⊢
      exact ⟨hc.1.2, hc.2⟩
  rw [lexeme?, hscan, tokenOf?_some ha, Option.some_or]

theorem lexeme?_text (ha : allows .text = true) (ht : IsText text) :
    lexeme? allows (text ++ rest) = some (.token .text text rest) := by
  obtain ⟨hbody⟩ := ht
  have hscan := scanTextBody?_append hbody rest
  rw [List.cons_append, List.append_assoc, List.cons_append, List.nil_append, lexeme?,
    scanFloat?_none (by decide), nameLexeme?, scanName?_none (by decide), scanText?, hscan]
  simp [tokenOf?_some ha]

theorem lexeme?_int (ha : allows .int = true) (ht : IsDigits text)
    (hrest : StopsAt (Terminal.int.goesOn allows) rest) :
    lexeme? allows (text ++ rest) = some (.token .int text rest) := by
  have hdigits : scanDigits? (text ++ rest) = some (text, rest) := by
    refine scanDigits?_stopsAt ht (hrest.mono fun c hc => ?_)
    simp only [Terminal.goesOn, Bool.or_eq_false_iff] at hc
    exact hc.1
  have hfloat : scanFloat? (text ++ rest) = none := by
    rw [scanFloat?, hdigits]
    split
    next heq =>
      cases heq
      have hpoint := hrest _ _ rfl
      simp [Terminal.goesOn] at hpoint
    next => rfl
  obtain ⟨c, tail, rfl, hc⟩ := ht.exists_cons
  have hname := not_startsName_of_isDecimalDigit hc
  have hquote : c ≠ '"' := ne_of_holds hc (by decide)
  have hslash : c ≠ '/' := ne_of_holds hc (by decide)
  rw [List.cons_append] at hdigits hfloat ⊢
  rw [lexeme?_plain hquote (not_isBlank_of_isDecimalDigit hc) (.of_ne hslash), hfloat, hdigits,
    nameLexeme?, scanName?_none hname, tokenOf?_some ha]
  simp

theorem lexeme?_name (ha : allows .name = true) (ht : IsName text)
    (hword : ∀ k, Keyword.ofText? text = some k → allows (.keyword k) = false)
    (hrest : StopsAt continuesName rest) :
    lexeme? allows (text ++ rest) = some (.token .name text rest) := by
  have hscan := scanName?_stopsAt ht hrest
  obtain ⟨hstarts, -⟩ := ht
  rw [List.cons_append] at hscan ⊢
  rw [lexeme?_letter hstarts, nameLexeme?, if_pos ha, hscan, Option.map_some]
  dsimp only
  split
  next k hk =>
    rw [hword k hk]
    simp
  next => simp

theorem keyword_isName (k : Keyword) : IsName k.spelling.toList := by
  cases k <;> exact .mk (by decide) (List.all_eq_true.mp (by decide))

theorem lexeme?_keyword {k : Keyword} (ha : allows (.keyword k) = true)
    (hrest : StopsAt ((Terminal.keyword k).goesOn allows) rest) :
    lexeme? allows (k.spelling.toList ++ rest) =
      some (.token (.keyword k) k.spelling.toList rest) := by
  have hname := keyword_isName k
  have hword : Keyword.ofText? k.spelling.toList = some k := by cases k <;> rfl
  have hexact : keywordLexeme? allows (k.spelling.toList ++ rest) =
      some (.token (.keyword k) k.spelling.toList rest) := by
    cases k <;> simp [keywordLexeme?, Keyword.all, Keyword.spelling, scanExact?, tokenOf?, ha]
  generalize k.spelling.toList = text at hname hword hexact ⊢
  by_cases hallows : allows .name = true
  · have hscan := scanName?_stopsAt hname
      (hrest.mono fun c hc => by simpa [Terminal.goesOn, hallows] using hc)
    obtain ⟨hstarts, -⟩ := hname
    rw [List.cons_append] at hscan ⊢
    rw [lexeme?_letter hstarts, nameLexeme?, if_pos hallows, hscan]
    simp [hword, ha]
  · obtain ⟨hstarts, -⟩ := hname
    rw [List.cons_append] at hexact ⊢
    rw [lexeme?_letter hstarts, nameLexeme?, if_neg hallows, hexact]
    simp

/-- The first symbol that a text starts with is the one that ends there: a longer one would go on
after it, and a shorter one is tried later. -/
theorem symbolLexeme?_spelling {s : Symbol} (ha : allows (.symbol s) = true)
    (hrest : StopsAt ((Terminal.symbol s).goesOn allows) rest) :
    symbolLexeme? allows (s.spelling ++ rest) = some (.token (.symbol s) s.spelling rest) := by
  cases rest with
  | nil =>
    cases s <;> simp [symbolLexeme?, Symbol.all, Symbol.spelling, scanExact?, tokenOf?, ha]
  | cons c tail =>
    have hne : ∀ d, (Terminal.symbol s).goesOn allows d = true → d ≠ c :=
      fun d hd => ne_of_holds hd (hrest c tail rfl)
    cases s with
    | equal =>
      simp [symbolLexeme?, Symbol.all, Symbol.spelling, scanExact?, tokenOf?, ha, hne '=' rfl,
        hne '>' rfl, hne '<' rfl]
    | minus =>
      simp [symbolLexeme?, Symbol.all, Symbol.spelling, scanExact?, tokenOf?, ha, hne '>' rfl]
    | _ => simp [symbolLexeme?, Symbol.all, Symbol.spelling, scanExact?, tokenOf?, ha]

theorem lexeme?_symbol {s : Symbol} (ha : allows (.symbol s) = true)
    (hrest : StopsAt ((Terminal.symbol s).goesOn allows) rest) :
    lexeme? allows (s.spelling ++ rest) = some (.token (.symbol s) s.spelling rest) := by
  have hsymbol := symbolLexeme?_spelling ha hrest
  obtain ⟨c, more, hspelling, hdigit, hname, hquote, hblank, hslash⟩ : ∃ c more,
      s.spelling = c :: more ∧ Text.isDecimalDigit c = false ∧ startsName c = false ∧ c ≠ '"' ∧
        isBlank c = false ∧ (c = '/' → more = []) := by
    cases s <;> exact ⟨_, _, rfl, by decide, by decide, by decide, by decide, by decide⟩
  have hcomment : NoComment c (more ++ rest) := by
    intro hc
    rw [hslash hc, List.nil_append]
    refine hrest.mono fun d hd => ?_
    rw [Terminal.goesOn, hspelling, hslash hc, hc] at hd
    simp only [pairs, List.contains_cons, Bool.or_eq_false_iff] at hd
    simp_all
  rw [hspelling, List.cons_append] at hsymbol ⊢
  rw [lexeme?_sign hdigit hname hquote hblank hcomment, hsymbol]

/-- **A piece is cut off where it ends.** -/
theorem lexeme?_piece {x : Piece} (hx : x.FitsIn allows)
    (hrest : StopsAt (x.terminal.goesOn allows) rest) :
    lexeme? allows (x.text ++ rest) = some (.token x.terminal x.text rest) := by
  obtain ⟨k, text⟩ := x
  obtain ⟨ha, hin, hword⟩ := hx
  cases k with
  | keyword k =>
    obtain rfl : text = k.spelling.toList := hin
    exact lexeme?_keyword ha hrest
  | name => exact lexeme?_name ha hin (hword rfl) hrest
  | int => exact lexeme?_int ha hin hrest
  | float => exact lexeme?_float ha hin hrest
  | text => exact lexeme?_text ha hin
  | symbol s =>
    obtain rfl : text = s.spelling := hin
    exact lexeme?_symbol ha hrest

end

end SmallImp.Source

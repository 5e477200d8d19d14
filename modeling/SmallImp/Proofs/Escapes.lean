import SmallImp.Source.Literal

/-!
# What escaped texts stand for

The characters between two quotes stand for a text: most of them for themselves, and a backslash with
what belongs to it for one code point, for nothing, or for itself. This is said here without the states
in which the characters are read one by one.

* `StandsFor` — the text that the characters between two quotes stand for;
* `Escape.Completes` — the text that the characters after a state stand for;
* `unescapeStep_follows` — one character of a text;
* `unescape_eq_ok_iff` — reading the characters gives the text that they stand for.
-/

namespace SmallImp.Source

/-! ### Escapes -/

/-- The characters that stand for another one after a backslash. -/
def simpleEscapes : List (Char × Char) :=
  [('\\', '\\'), ('\x27', '\x27'), ('"', '"'), ('a', '\x07'), ('b', '\x08'), ('f', '\x0c'),
    ('n', '\n'), ('r', '\r'), ('t', '\t'), ('v', '\x0b')]

/-- The letters that open a code of a character, with the number of its hexadecimal digits. -/
def codeLetters : List (Char × Nat) := [('x', 2), ('u', 4), ('U', 8)]

/-- The number that digits stand for, after a number that was read before them. -/
def numberFrom? (base : Nat) (digit? : Char → Option Nat) (value : Nat) : List Char → Option Nat
  | [] => some value
  | c :: rest => do
    let digit ← digit? c
    numberFrom? base digit? (base * value + digit) rest

variable [Host]

/-- The text that the characters between two quotes stand for. -/
inductive StandsFor : List Char → Codes → Prop where
  | done : StandsFor [] []
  | plain {c : Char} {rest : List Char} {t : Codes} (noEscape : c ≠ '\\') (noReturn : c ≠ '\r')
      (more : StandsFor rest t) : StandsFor (c :: rest) (.char c :: t)
  | simple {c d : Char} {rest : List Char} {t : Codes} (escape : (c, d) ∈ simpleEscapes)
      (more : StandsFor rest t) : StandsFor ('\\' :: c :: rest) (.char d :: t)
  /-- A code of up to three octal digits, as many as there are. -/
  | octal {c : Char} {n : Nat} {digits rest : List Char} {t : Codes}
      (number : numberFrom? 8 octalValue? 0 (c :: digits) = some n) (short : digits.length ≤ 2)
      (longest : digits.length = 2 ∨ ∀ d ∈ rest.head?, octalValue? d = none)
      (more : StandsFor rest t) : StandsFor ('\\' :: c :: (digits ++ rest)) (.ofNat n :: t)
  /-- A code of as many hexadecimal digits as its letter asks for. -/
  | code {c : Char} {count n : Nat} {digits rest : List Char} {t : Codes}
      (letter : (c, count) ∈ codeLetters) (complete : digits.length = count)
      (number : numberFrom? 16 Text.hexValue? 0 digits = some n) (bounded : n ≤ 0x10FFFF)
      (more : StandsFor rest t) : StandsFor ('\\' :: c :: (digits ++ rest)) (.ofNat n :: t)
  /-- The name of a character that the host knows. -/
  | named {d : Char} {name rest : List Char} {t : Codes} (nonempty : name ≠ [])
      (noBrace : '\x7d' ∉ name) (noReturn : '\r' ∉ name) (known : Host.named name = some d)
      (more : StandsFor rest t) :
      StandsFor ('\\' :: 'N' :: '\x7b' :: (name ++ '\x7d' :: rest)) (.char d :: t)
  /-- The text goes on in the next line. -/
  | continued {rest : List Char} {t : Codes} (more : StandsFor rest t) :
      StandsFor ('\\' :: '\r' :: rest) t
  /-- A backslash that opens no escape stands for itself. -/
  | unknown {c : Char} {rest : List Char} {t : Codes} (noSimple : c ∉ simpleEscapes.map Prod.fst)
      (noCode : c ∉ codeLetters.map Prod.fst) (noOctal : octalValue? c = none) (noName : c ≠ 'N')
      (noReturn : c ≠ '\r') (more : StandsFor rest t) :
      StandsFor ('\\' :: c :: rest) (.char '\\' :: .char c :: t)

/-! ### Kinds of characters -/

section Kinds

omit [Host]

variable {c d : Char} {count value : Nat}

theorem mem_simpleEscapes : (c, d) ∈ simpleEscapes ↔ simpleEscape? c = some d := by
  constructor
  · intro h
    simp only [simpleEscapes, List.mem_cons, Prod.mk.injEq, List.not_mem_nil, or_false] at h
    rcases h with ⟨rfl, rfl⟩ | ⟨rfl, rfl⟩ | ⟨rfl, rfl⟩ | ⟨rfl, rfl⟩ | ⟨rfl, rfl⟩ | ⟨rfl, rfl⟩ |
      ⟨rfl, rfl⟩ | ⟨rfl, rfl⟩ | ⟨rfl, rfl⟩ | ⟨rfl, rfl⟩ <;> rfl
  · intro h
    unfold simpleEscape? at h
    split at h <;> cases h <;> decide

theorem mem_codeLetters : (c, count) ∈ codeLetters ↔ hexLength? c = some count := by
  constructor
  · intro h
    simp only [codeLetters, List.mem_cons, Prod.mk.injEq, List.not_mem_nil, or_false] at h
    rcases h with ⟨rfl, rfl⟩ | ⟨rfl, rfl⟩ | ⟨rfl, rfl⟩ <;> rfl
  · intro h
    unfold hexLength? at h
    split at h <;> cases h <;> decide

/-- A character has no entry in a table just if the search of the table finds none. -/
theorem notMem_keys {β : Type} {table : List (Char × β)} {search : Char → Option β}
    (h : ∀ {c : Char} {entry : β}, (c, entry) ∈ table ↔ search c = some entry) :
    c ∉ table.map Prod.fst ↔ search c = none := by
  constructor
  · intro hc
    cases hentry : search c with
    | none => rfl
    | some entry => exact absurd (List.mem_map_of_mem (h.mpr hentry)) hc
  · rintro hnone hmem
    obtain ⟨⟨c, entry⟩, hentry, rfl⟩ := List.mem_map.mp hmem
    cases hnone.symm.trans (h.mp hentry)

theorem notMem_simpleEscapes : c ∉ simpleEscapes.map Prod.fst ↔ simpleEscape? c = none :=
  notMem_keys mem_simpleEscapes

theorem notMem_codeLetters : c ∉ codeLetters.map Prod.fst ↔ hexLength? c = none :=
  notMem_keys mem_codeLetters

/-- A character that stands for another one opens no code and no name. -/
theorem simpleEscape?_some (h : simpleEscape? c = some d) :
    hexLength? c = none ∧ octalValue? c = none ∧ c ≠ 'N' ∧ c ≠ '\r' := by
  unfold simpleEscape? at h
  split at h
  case h_11 => cases h
  all_goals exact ⟨rfl, rfl, by decide, by decide⟩

theorem hexLength?_some (h : hexLength? c = some count) :
    1 ≤ count ∧ octalValue? c = none ∧ c ≠ 'N' ∧ c ≠ '\r' := by
  unfold hexLength? at h
  split at h
  case h_4 => cases h
  all_goals
    cases h
    exact ⟨by decide, rfl, by decide, by decide⟩

theorem octalValue?_some (h : octalValue? c = some value) : value ≤ 7 ∧ '0' ≤ c ∧ c ≤ '7' := by
  rw [octalValue?] at h
  split at h
  next hc =>
    cases h
    have hlast : c.toNat ≤ 55 := hc.2
    refine ⟨?_, hc⟩
    show c.toNat - 48 ≤ 7
    omega
  next => cases h

end Kinds

/-! ### The first characters of a text -/

section First

variable {c : Char} {rest : List Char} {t : Codes}

theorem standsFor_nil : StandsFor [] t ↔ t = [] := by
  refine ⟨fun h => ?_, ?_⟩
  · cases h
    rfl
  · rintro rfl
    exact .done

theorem standsFor_plain (hc : c ≠ '\\') :
    StandsFor (c :: rest) t ↔ c ≠ '\r' ∧ ∃ t', t = .char c :: t' ∧ StandsFor rest t' := by
  constructor
  · intro h
    cases h with
    | plain _ noReturn more => exact ⟨noReturn, _, rfl, more⟩
    | _ => exact absurd rfl hc
  · rintro ⟨noReturn, t, rfl, more⟩
    exact .plain hc noReturn more

theorem not_standsFor_backslash : ¬StandsFor ['\\'] t := by
  intro h
  cases h with
  | plain noEscape => exact noEscape rfl

theorem standsFor_simple {d : Char} (hd : simpleEscape? c = some d) :
    StandsFor ('\\' :: c :: rest) t ↔ ∃ t', t = .char d :: t' ∧ StandsFor rest t' := by
  obtain ⟨hcode, hoctal, hname, hreturn⟩ := simpleEscape?_some hd
  constructor
  · intro h
    cases h with
    | plain noEscape => exact absurd rfl noEscape
    | simple escape more =>
      obtain rfl := Option.some.inj (hd.symm.trans (mem_simpleEscapes.mp escape))
      exact ⟨_, rfl, more⟩
    | octal number => simp [numberFrom?, hoctal] at number
    | code letter => cases hcode.symm.trans (mem_codeLetters.mp letter)
    | named => exact absurd rfl hname
    | continued => exact absurd rfl hreturn
    | unknown noSimple => cases hd.symm.trans (notMem_simpleEscapes.mp noSimple)
  · rintro ⟨t, rfl, more⟩
    exact .simple (mem_simpleEscapes.mpr hd) more

/-- Hexadecimal digits that complete a code, and what comes after them. -/
def CompletesCode (value count : Nat) (cs : List Char) (t : Codes) : Prop :=
  ∃ digits rest n t', cs = digits ++ rest ∧ digits.length = count ∧
    numberFrom? 16 Text.hexValue? value digits = some n ∧ n ≤ 0x10FFFF ∧ t = .ofNat n :: t' ∧
    StandsFor rest t'

theorem standsFor_code {count : Nat} (hc : hexLength? c = some count) :
    StandsFor ('\\' :: c :: rest) t ↔ CompletesCode 0 count rest t := by
  obtain ⟨-, hoctal, hname, hreturn⟩ := hexLength?_some hc
  constructor
  · intro h
    cases h with
    | plain noEscape => exact absurd rfl noEscape
    | simple escape =>
      cases hc.symm.trans (simpleEscape?_some (mem_simpleEscapes.mp escape)).1
    | octal number => simp [numberFrom?, hoctal] at number
    | code letter complete number bounded more =>
      obtain rfl := Option.some.inj (hc.symm.trans (mem_codeLetters.mp letter))
      exact ⟨_, _, _, _, rfl, complete, number, bounded, rfl, more⟩
    | named => exact absurd rfl hname
    | continued => exact absurd rfl hreturn
    | unknown _ noCode => cases hc.symm.trans (notMem_codeLetters.mp noCode)
  · rintro ⟨digits, rest, n, t, rfl, complete, number, bounded, rfl, more⟩
    exact .code (mem_codeLetters.mpr hc) complete number bounded more

/-- Octal digits that complete a code, and what comes after them. -/
def CompletesOctal (value count : Nat) (cs : List Char) (t : Codes) : Prop :=
  ∃ digits rest n t', cs = digits ++ rest ∧ digits.length ≤ count ∧
    (digits.length = count ∨ ∀ d ∈ rest.head?, octalValue? d = none) ∧
    numberFrom? 8 octalValue? value digits = some n ∧ t = .ofNat n :: t' ∧ StandsFor rest t'

theorem standsFor_octal {value : Nat} (hc : octalValue? c = some value) :
    StandsFor ('\\' :: c :: rest) t ↔ CompletesOctal value 2 rest t := by
  have hnumber : ∀ digits, numberFrom? 8 octalValue? 0 (c :: digits) =
      numberFrom? 8 octalValue? value digits := by
    intro digits
    simp [numberFrom?, hc]
  constructor
  · intro h
    cases h with
    | plain noEscape => exact absurd rfl noEscape
    | simple escape =>
      cases hc.symm.trans (simpleEscape?_some (mem_simpleEscapes.mp escape)).2.1
    | octal number short longest more =>
      exact ⟨_, _, _, _, rfl, short, longest, (hnumber _).symm.trans number, rfl, more⟩
    | code letter => cases hc.symm.trans (hexLength?_some (mem_codeLetters.mp letter)).2.1
    | named => cases hc
    | continued => cases hc
    | unknown _ _ noOctal => cases hc.symm.trans noOctal
  · rintro ⟨digits, rest, n, t, rfl, short, longest, number, rfl, more⟩
    exact .octal ((hnumber digits).trans number) short longest more

/-- Letters that complete the name of a character, and what comes after it. -/
def CompletesName (letters cs : List Char) (t : Codes) : Prop :=
  ∃ more rest d t', cs = more ++ '\x7d' :: rest ∧ letters.reverse ++ more ≠ [] ∧ '\x7d' ∉ more ∧
    '\r' ∉ more ∧ Host.named (letters.reverse ++ more) = some d ∧ t = .char d :: t' ∧
    StandsFor rest t'

theorem standsFor_name :
    StandsFor ('\\' :: 'N' :: rest) t ↔ ∃ after, rest = '\x7b' :: after ∧ CompletesName [] after t := by
  constructor
  · intro h
    cases h with
    | plain noEscape => exact absurd rfl noEscape
    | simple escape => cases mem_simpleEscapes.mp escape
    | octal number => cases number
    | code letter => cases mem_codeLetters.mp letter
    | named nonempty noBrace noReturn known more =>
      exact ⟨_, rfl, _, _, _, _, rfl, nonempty, noBrace, noReturn, known, rfl, more⟩
    | unknown _ _ _ noName => exact absurd rfl noName
  · rintro ⟨_, rfl, name, rest, d, t, rfl, nonempty, noBrace, noReturn, known, rfl, more⟩
    exact .named nonempty noBrace noReturn known more

theorem standsFor_continued : StandsFor ('\\' :: '\r' :: rest) t ↔ StandsFor rest t := by
  constructor
  · intro h
    cases h with
    | plain noEscape => exact absurd rfl noEscape
    | simple escape => cases mem_simpleEscapes.mp escape
    | octal number => cases number
    | code letter => cases mem_codeLetters.mp letter
    | continued more => exact more
    | unknown _ _ _ _ noReturn => exact absurd rfl noReturn
  · exact .continued

theorem standsFor_unknown (hsimple : simpleEscape? c = none) (hcode : hexLength? c = none)
    (hoctal : octalValue? c = none) (hname : c ≠ 'N') (hreturn : c ≠ '\r') :
    StandsFor ('\\' :: c :: rest) t ↔
      ∃ t', t = .char '\\' :: .char c :: t' ∧ StandsFor rest t' := by
  constructor
  · intro h
    cases h with
    | plain noEscape => exact absurd rfl noEscape
    | simple escape => cases hsimple.symm.trans (mem_simpleEscapes.mp escape)
    | octal number => simp [numberFrom?, hoctal] at number
    | code letter => cases hcode.symm.trans (mem_codeLetters.mp letter)
    | named => exact absurd rfl hname
    | continued => exact absurd rfl hreturn
    | unknown _ _ _ _ _ more => exact ⟨_, rfl, more⟩
  · rintro ⟨t, rfl, more⟩
    exact .unknown (notMem_simpleEscapes.mpr hsimple) (notMem_codeLetters.mpr hcode) hoctal hname
      hreturn more

/-! ### The next characters of a code or a name -/

theorem completesCode_cons {value count : Nat} : CompletesCode value (count + 1) (c :: rest) t ↔
    ∃ digit, Text.hexValue? c = some digit ∧ CompletesCode (16 * value + digit) count rest t := by
  constructor
  · rintro ⟨digits, after, n, t, hcs, complete, number, bounded, rfl, more⟩
    obtain ⟨d, digits, rfl⟩ := List.exists_cons_of_length_eq_add_one complete
    obtain ⟨rfl, rfl⟩ := List.cons.inj hcs
    obtain ⟨digit, hdigit, number⟩ := Option.bind_eq_some_iff.mp number
    exact ⟨digit, hdigit, digits, after, n, t, rfl, Nat.succ.inj complete, number, bounded, rfl, more⟩
  · rintro ⟨digit, hdigit, digits, after, n, t, rfl, complete, number, bounded, rfl, more⟩
    refine ⟨c :: digits, after, n, t, rfl, congrArg (· + 1) complete, ?_, bounded, rfl, more⟩
    exact Option.bind_eq_some_iff.mpr ⟨digit, hdigit, number⟩

theorem completesCode_zero {value : Nat} : CompletesCode value 0 rest t ↔
    value ≤ 0x10FFFF ∧ ∃ t', t = .ofNat value :: t' ∧ StandsFor rest t' := by
  constructor
  · rintro ⟨digits, after, n, t, rfl, complete, number, bounded, rfl, more⟩
    cases List.length_eq_zero_iff.mp complete
    cases number
    exact ⟨bounded, t, rfl, more⟩
  · rintro ⟨bounded, t, rfl, more⟩
    exact ⟨[], rest, value, t, rfl, rfl, rfl, bounded, rfl, more⟩

theorem completesOctal_digit {value count digit : Nat} (hc : octalValue? c = some digit) :
    CompletesOctal value (count + 1) (c :: rest) t ↔
      CompletesOctal (8 * value + digit) count rest t := by
  constructor
  · rintro ⟨digits, after, n, t, hcs, short, longest, number, rfl, more⟩
    cases digits with
    | nil =>
      -- the digit would have to be taken
      obtain rfl : after = c :: rest := hcs.symm
      rcases longest with hlength | hend
      · cases hlength
      · cases hc.symm.trans (hend c rfl)
    | cons d digits =>
      obtain ⟨rfl, rfl⟩ := List.cons.inj hcs
      obtain ⟨_, hd, number⟩ := Option.bind_eq_some_iff.mp number
      obtain rfl := Option.some.inj (hc.symm.trans hd)
      refine ⟨digits, after, n, t, rfl, Nat.le_of_succ_le_succ short, ?_, number, rfl, more⟩
      exact longest.imp_left Nat.succ.inj
  · rintro ⟨digits, after, n, t, rfl, short, longest, number, rfl, more⟩
    refine ⟨c :: digits, after, n, t, rfl, Nat.succ_le_succ short, ?_, ?_, rfl, more⟩
    · exact longest.imp_left (congrArg (· + 1))
    · exact Option.bind_eq_some_iff.mpr ⟨digit, hc, number⟩

/-- A code that takes no more digits is complete. -/
theorem completesOctal_end {value count : Nat}
    (hend : count = 0 ∨ ∀ d ∈ rest.head?, octalValue? d = none) :
    CompletesOctal value count rest t ↔ ∃ t', t = .ofNat value :: t' ∧ StandsFor rest t' := by
  constructor
  · rintro ⟨digits, after, n, t, rfl, short, -, number, rfl, more⟩
    cases digits with
    | nil =>
      cases number
      exact ⟨t, rfl, more⟩
    | cons d digits =>
      obtain ⟨digit, hd, -⟩ := Option.bind_eq_some_iff.mp number
      rcases hend with rfl | hend
      · cases short
      · cases hd.symm.trans (hend d rfl)
  · rintro ⟨t, rfl, more⟩
    exact ⟨[], rest, value, t, rfl, Nat.zero_le _, hend.imp_left Eq.symm, rfl, rfl, more⟩

theorem completesName_brace {letters : List Char} : CompletesName letters ('\x7d' :: rest) t ↔
    letters ≠ [] ∧ ∃ d t', Host.named letters.reverse = some d ∧ t = .char d :: t' ∧
      StandsFor rest t' := by
  constructor
  · rintro ⟨more, after, d, t, hcs, nonempty, noBrace, noReturn, known, rfl, hmore⟩
    cases more with
    | nil =>
      obtain ⟨-, rfl⟩ := List.cons.inj hcs
      rw [List.append_nil] at nonempty known
      exact ⟨fun h => nonempty (by rw [h]; rfl), d, t, known, rfl, hmore⟩
    | cons c more =>
      obtain ⟨rfl, -⟩ := List.cons.inj hcs
      exact absurd List.mem_cons_self noBrace
  · rintro ⟨nonempty, d, t, known, rfl, hmore⟩
    refine ⟨[], rest, d, t, rfl, ?_, by simp, by simp, ?_, rfl, hmore⟩
    · simpa using nonempty
    · rw [List.append_nil, known]

theorem completesName_cons {letters : List Char} (hc : c ≠ '\x7d') :
    CompletesName letters (c :: rest) t ↔ c ≠ '\r' ∧ CompletesName (c :: letters) rest t := by
  constructor
  · rintro ⟨more, after, d, t, hcs, -, noBrace, noReturn, known, rfl, hmore⟩
    cases more with
    | nil =>
      obtain ⟨rfl, -⟩ := List.cons.inj hcs
      exact absurd rfl hc
    | cons c more =>
      obtain ⟨rfl, rfl⟩ := List.cons.inj hcs
      rw [List.mem_cons, not_or] at noBrace noReturn
      refine ⟨Ne.symm noReturn.1, more, after, d, t, rfl, by simp, noBrace.2, noReturn.2, ?_, rfl, hmore⟩
      simpa using known
  · rintro ⟨hreturn, more, after, d, t, rfl, -, noBrace, noReturn, known, rfl, hmore⟩
    refine ⟨c :: more, after, d, t, rfl, by simp, ?_, ?_, by simpa using known, rfl, hmore⟩
    · simpa using ⟨Ne.symm hc, noBrace⟩
    · simpa using ⟨Ne.symm hreturn, noReturn⟩

end First

/-! ### Unescaping, state by state -/

namespace Escape

/-- The digits read so far leave room for those that may come. -/
def Sound : Escape → Prop
  | .octal value more => value < 512 ∧ (1 ≤ more → value < 64) ∧ (2 ≤ more → value < 8) ∧ more ≤ 2
  | .hex _ more => 1 ≤ more
  | _ => True

/-- The text that the characters after a state stand for. -/
def Completes : Escape → List Char → Codes → Prop
  | .none, cs, t => StandsFor cs t
  | .backslash, cs, t => StandsFor ('\\' :: cs) t
  | .octal value more, cs, t => CompletesOctal value more cs t
  | .hex value more, cs, t => CompletesCode value more cs t
  | .letterN, cs, t => StandsFor ('\\' :: 'N' :: cs) t
  | .name letters, cs, t => CompletesName letters cs t

/-- What a character adds to the texts that can come: nothing if there is no such text, and otherwise
what is added stands before what the rest stands for in the next state. -/
def Follows (next? : Option (Codes × Escape)) (rest : List Char) (texts : Codes → Prop) : Prop :=
  match next? with
  | Option.none => ∀ t, ¬texts t
  | some (added, next) => next.Sound ∧ ∀ t, texts t ↔ ∃ t', t = added ++ t' ∧ next.Completes rest t'

omit [Host] in
/-- A code of at most three octal digits is that of a character. -/
theorem Sound.octal_le {value more : Nat} (h : (Escape.octal value more).Sound) :
    value ≤ 0x10FFFF := by
  have hvalue : value < 512 := h.1
  omega

/-- A character that adds nothing and is looked at in another state. -/
theorem follows_silent {next : Escape} {rest : List Char} {texts : Codes → Prop} (hsound : next.Sound)
    (h : ∀ t, texts t ↔ next.Completes rest t) : Follows (some ([], next)) rest texts := by
  refine ⟨hsound, fun t => (h t).trans ⟨fun ht => ⟨t, rfl, ht⟩, ?_⟩⟩
  rintro ⟨t, rfl, ht⟩
  exact ht

end Escape

open Escape (Follows Sound Completes follows_silent)

omit [Host] in
theorem codePoint?_of_le {n : Nat} (h : n ≤ 0x10FFFF) : codePoint? n = some (.ofNat n) := by
  rw [codePoint?, if_neg (Nat.not_lt.mpr h)]

section

variable {c : Char} {rest : List Char}

theorem plainChar_follows : Follows (plainChar c) rest (StandsFor (c :: rest)) := by
  rw [plainChar]
  split
  next hc =>
    rw [hc]
    exact follows_silent trivial fun _ => Iff.rfl
  next hc =>
    split
    next hreturn => exact fun t h => ((standsFor_plain hc).mp h).1 hreturn
    next hreturn =>
      exact ⟨trivial, fun t => (standsFor_plain hc).trans (and_iff_right hreturn)⟩

theorem afterBackslash_follows :
    Follows (afterBackslash c) rest (StandsFor ('\\' :: c :: rest)) := by
  rw [afterBackslash]
  split
  next d hsimple => exact ⟨trivial, fun t => standsFor_simple hsimple⟩
  next hsimple =>
    split
    next count hcount =>
      exact follows_silent (hexLength?_some hcount).1 fun t => standsFor_code hcount
    next hcount =>
      split
      next value hvalue =>
        refine follows_silent ?_ fun t => standsFor_octal hvalue
        have hle := (octalValue?_some hvalue).1
        exact ⟨by omega, fun _ => by omega, fun _ => by omega, Nat.le_refl 2⟩
      next hvalue =>
        split
        next hname =>
          rw [hname]
          exact follows_silent trivial fun _ => Iff.rfl
        next hname =>
          split
          next hreturn =>
            rw [hreturn]
            exact follows_silent trivial fun _ => standsFor_continued
          next hreturn =>
            exact ⟨trivial, fun t => standsFor_unknown hsimple hcount hvalue hname hreturn⟩

/-- After an octal escape the character is read as outside of escapes. -/
theorem octalEnd_follows {value more : Nat} (h : (Escape.octal value more).Sound)
    (hend : more = 0 ∨ octalValue? c = none) :
    Follows (do
      let d ← codePoint? value
      let (added, next) ← plainChar c
      return (d :: added, next)) rest (CompletesOctal value more (c :: rest)) := by
  have hplain : Follows (plainChar c) rest (StandsFor (c :: rest)) := plainChar_follows
  have hhead : more = 0 ∨ ∀ d ∈ (c :: rest).head?, octalValue? d = none := by
    refine hend.imp_right ?_
    rintro hc _ ⟨⟩
    exact hc
  rw [codePoint?_of_le h.octal_le]
  cases hnext : plainChar c with
  | none =>
    rw [hnext] at hplain
    intro t ht
    obtain ⟨t', -, hmore⟩ := (completesOctal_end hhead).mp ht
    exact hplain t' hmore
  | some next =>
    obtain ⟨added, next⟩ := next
    rw [hnext] at hplain
    obtain ⟨hsound, htexts⟩ := hplain
    refine ⟨hsound, fun t => (completesOctal_end hhead).trans ?_⟩
    constructor
    · rintro ⟨t', rfl, hmore⟩
      obtain ⟨t'', rfl, hcompletes⟩ := (htexts t').mp hmore
      exact ⟨t'', rfl, hcompletes⟩
    · rintro ⟨t'', rfl, hcompletes⟩
      exact ⟨added ++ t'', rfl, (htexts _).mpr ⟨t'', rfl, hcompletes⟩⟩

/-- In an octal escape: another digit, or a character after it. -/
theorem octalStep_follows {value more : Nat} (h : (Escape.octal value more).Sound) :
    Follows (unescapeStep (.octal value more) c) rest (CompletesOctal value more (c :: rest)) := by
  cases more with
  | zero => exact octalEnd_follows h (.inl rfl)
  | succ more =>
    unfold unescapeStep
    cases hc : octalValue? c with
    | none => exact octalEnd_follows h (.inr hc)
    | some digit =>
      refine follows_silent ?_ fun t => completesOctal_digit hc
      have hle := (octalValue?_some hc).1
      obtain ⟨-, hone, htwo, hmore⟩ := h
      exact ⟨by omega, fun _ => by omega, fun _ => by omega, by omega⟩

/-- In a hexadecimal escape: one of the digits that have to come. -/
theorem hexStep_follows {value more : Nat} :
    Follows (unescapeStep (.hex value (more + 1)) c) rest
      (CompletesCode value (more + 1) (c :: rest)) := by
  rw [unescapeStep]
  cases hc : Text.hexValue? c with
  | none =>
    intro t ht
    obtain ⟨digit, hdigit, -⟩ := completesCode_cons.mp ht
    cases hc.symm.trans hdigit
  | some digit =>
    have hnext : ∀ t, CompletesCode value (more + 1) (c :: rest) t ↔
        CompletesCode (16 * value + digit) more rest t := by
      intro t
      rw [completesCode_cons]
      constructor
      · rintro ⟨_, hdigit, hcode⟩
        obtain rfl := Option.some.inj (hc.symm.trans hdigit)
        exact hcode
      · exact fun hcode => ⟨digit, hc, hcode⟩
    dsimp only
    split
    next hlast =>
      obtain rfl : more = 0 := by omega
      by_cases hle : 16 * value + digit ≤ 0x10FFFF
      · rw [codePoint?_of_le hle]
        exact ⟨trivial, fun t => (hnext t).trans (completesCode_zero.trans (and_iff_right hle))⟩
      · rw [codePoint?, if_pos (Nat.lt_of_not_le hle)]
        exact fun t ht => hle (completesCode_zero.mp ((hnext t).mp ht)).1
    next hmore =>
      rw [Nat.add_sub_cancel]
      exact follows_silent (show 1 ≤ more by omega) hnext

/-- In the name of a character: its closing brace, or another letter. -/
theorem nameStep_follows {letters : List Char} :
    Follows (nameStep letters c) rest (CompletesName letters (c :: rest)) := by
  rw [nameStep]
  split
  next hbrace =>
    rw [hbrace]
    split
    next hempty =>
      exact fun t ht => (completesName_brace.mp ht).1 (List.isEmpty_iff.mp hempty)
    next hempty =>
      have hletters : letters ≠ [] := fun h => hempty (List.isEmpty_iff.mpr h)
      cases hd : Host.named letters.reverse with
      | none =>
        intro t ht
        obtain ⟨-, d, t', hknown, -⟩ := completesName_brace.mp ht
        cases hd.symm.trans hknown
      | some d =>
        refine ⟨trivial, fun t => completesName_brace.trans ?_⟩
        constructor
        · rintro ⟨-, _, t', hknown, rfl, hmore⟩
          obtain rfl := Option.some.inj (hd.symm.trans hknown)
          exact ⟨t', rfl, hmore⟩
        · rintro ⟨t', rfl, hmore⟩
          exact ⟨hletters, d, t', hd, rfl, hmore⟩
  next hbrace =>
    split
    next hreturn => exact fun t ht => ((completesName_cons hbrace).mp ht).1 hreturn
    next hreturn =>
      exact follows_silent trivial fun t =>
        (completesName_cons hbrace).trans (and_iff_right hreturn)

/-- **One character.** A text can come in a state just when its first character is taken and the rest
can come in the next state. -/
theorem unescapeStep_follows {state : Escape} (h : state.Sound) :
    Follows (unescapeStep state c) rest (state.Completes (c :: rest)) := by
  cases state with
  | none => exact plainChar_follows
  | backslash => exact afterBackslash_follows
  | octal value more => exact octalStep_follows h
  | hex value more =>
    obtain ⟨more, rfl⟩ := Nat.exists_eq_add_of_le' (show 1 ≤ more from h)
    exact hexStep_follows
  | letterN =>
    rw [unescapeStep]
    split
    next hbrace =>
      refine follows_silent trivial fun t => standsFor_name.trans ?_
      rw [hbrace]
      constructor
      · rintro ⟨_, ⟨⟩, hname⟩
        exact hname
      · exact fun hname => ⟨rest, rfl, hname⟩
    next hbrace =>
      intro t ht
      obtain ⟨_, ⟨⟩, -⟩ := standsFor_name.mp ht
      exact hbrace rfl
  | name letters => exact nameStep_follows

end

/-- At the end of a text, what is left to add is all that can come. -/
theorem unescapeEnd_eq_some_iff {state : Escape} (h : state.Sound) {t : Codes} :
    unescapeEnd state = some t ↔ state.Completes [] t := by
  cases state with
  | none => exact ⟨fun ht => standsFor_nil.mpr (Option.some.inj ht).symm,
      fun ht => by rw [standsFor_nil.mp ht]; rfl⟩
  | backslash => exact ⟨by rintro ⟨⟩, fun ht => absurd ht not_standsFor_backslash⟩
  | octal value more =>
    have hend : more = 0 ∨ ∀ d ∈ ([] : List Char).head?, octalValue? d = none := .inr (by simp)
    rw [unescapeEnd, codePoint?_of_le h.octal_le]
    refine Iff.trans ?_ (completesOctal_end hend).symm
    constructor
    · rintro ⟨⟩
      exact ⟨[], rfl, .done⟩
    · rintro ⟨t', rfl, hmore⟩
      rw [standsFor_nil.mp hmore]
      rfl
  | hex value more =>
    refine ⟨by rintro ⟨⟩, ?_⟩
    rintro ⟨digits, rest, n, t', hcs, complete, -⟩
    obtain ⟨rfl, -⟩ := List.append_eq_nil_iff.mp hcs.symm
    have hmore : 1 ≤ more := h
    exact absurd complete (Nat.ne_of_lt hmore)
  | letterN =>
    refine ⟨by rintro ⟨⟩, fun ht => ?_⟩
    obtain ⟨_, ⟨⟩, -⟩ := standsFor_name.mp ht
  | name letters =>
    refine ⟨by rintro ⟨⟩, ?_⟩
    rintro ⟨more, rest, d, t', hcs, -⟩
    exact absurd hcs.symm (by simp)

theorem unescapeFrom_eq_some_iff {body : List Char} : ∀ {state : Escape} {t : Codes}, state.Sound →
    (unescapeFrom state body = some t ↔ state.Completes body t) := by
  induction body with
  | nil => exact fun h => unescapeEnd_eq_some_iff h
  | cons c rest ih =>
    intro state t h
    have hfollows : Follows (unescapeStep state c) rest (state.Completes (c :: rest)) :=
      unescapeStep_follows h
    rw [unescapeFrom]
    cases hstep : unescapeStep state c with
    | none =>
      rw [hstep] at hfollows
      exact ⟨by rintro ⟨⟩, fun ht => absurd ht (hfollows t)⟩
    | some taken =>
      obtain ⟨added, next⟩ := taken
      rw [hstep] at hfollows
      obtain ⟨hsound, htexts⟩ := hfollows
      rw [htexts t]
      show (unescapeFrom next rest).bind (fun body => some (added ++ body)) = some t ↔ _
      rw [Option.bind_eq_some_iff]
      constructor
      · rintro ⟨t', ht', ⟨⟩⟩
        exact ⟨t', rfl, (ih hsound).mp ht'⟩
      · rintro ⟨t', rfl, ht'⟩
        exact ⟨t', (ih hsound).mpr ht', rfl⟩

/-- **Reading the characters between two quotes gives the text that they stand for**, if there is no
null character among them. -/
theorem unescape_eq_ok_iff {body : List Char} {t : Codes} :
    unescape body = .ok t ↔ '\x00' ∉ body ∧ StandsFor body t := by
  have hfrom : unescapeFrom .none body = some t ↔ StandsFor body t :=
    unescapeFrom_eq_some_iff (show Escape.none.Sound from trivial)
  rw [← hfrom, unescape]
  split
  next hnull =>
    refine ⟨by rintro ⟨⟩, fun h => absurd ?_ h.1⟩
    simpa using hnull
  next hnull =>
    have hnotMem : '\x00' ∉ body := by simpa using hnull
    cases unescapeFrom .none body with
    | none => exact ⟨by rintro ⟨⟩, by rintro ⟨-, ⟨⟩⟩⟩
    | some t' =>
      refine ⟨?_, ?_⟩
      · rintro ⟨⟩
        exact ⟨hnotMem, rfl⟩
      · rintro ⟨-, ⟨⟩⟩
        rfl

/-- Characters that stand for nothing are refused, a null character before all else. -/
theorem unescape_eq_error_iff {body : List Char} {fault : LiteralFault} :
    unescape body = .error fault ↔
      ('\x00' ∈ body ∧ fault = .nullCharacter) ∨
        ('\x00' ∉ body ∧ (∀ t, ¬StandsFor body t) ∧ fault = .malformedText) := by
  have hfrom : ∀ t, unescapeFrom .none body = some t ↔ StandsFor body t := fun t =>
    unescapeFrom_eq_some_iff (show Escape.none.Sound from trivial)
  rw [unescape]
  split
  next hnull =>
    have hmem : '\x00' ∈ body := by simpa using hnull
    constructor
    · rintro ⟨⟩
      exact .inl ⟨hmem, rfl⟩
    · rintro (⟨-, rfl⟩ | ⟨hnotMem, -⟩)
      · rfl
      · exact absurd hmem hnotMem
  next hnull =>
    have hnotMem : '\x00' ∉ body := by simpa using hnull
    cases hbody : unescapeFrom .none body with
    | none =>
      constructor
      · rintro ⟨⟩
        refine .inr ⟨hnotMem, fun t ht => ?_, rfl⟩
        cases hbody.symm.trans ((hfrom t).mpr ht)
      · rintro (⟨hmem, -⟩ | ⟨-, -, rfl⟩)
        · exact absurd hmem hnotMem
        · rfl
    | some t =>
      constructor
      · rintro ⟨⟩
      · rintro (⟨hmem, -⟩ | ⟨-, hnone, -⟩)
        · exact absurd hmem hnotMem
        · exact absurd ((hfrom t).mp hbody) (hnone t)

end SmallImp.Source

import SmallImp.Proofs.EmitRun
import SmallImp.Proofs.FaultOrder

/-!
# What is reported of a source text

A text either has a program or has a fault. Most faults have a wording, with which the command reports
them. Two kinds of literals have none: integers of more than 4300 digits, and texts that cannot be
unescaped. A sentence in which such a literal comes before all others without a value is not reported,
and every other text is.

* `WellEscaped` — texts between quotes that stand for something;
* `Token.BreaksOff`, `BreaksOff` — literals and texts that are not reported;
* `front_end_reports_iff` — which texts are reported.
-/

namespace SmallImp.Source

/-! ### Literals and texts that are not reported -/

section

variable [Host]

/-- The characters between two quotes stand for a text: there is no raw carriage return outside of an
escape, every named character is known, and every code is complete and not above that of the last
character. -/
def WellEscaped (body : List Char) : Prop := ∃ t, StandsFor body t

/-- The conversion of a literal breaks off: it is an integer of more than 4300 digits, or a text that
has a null character or is not well escaped. -/
inductive Token.BreaksOff (t : Token) : Prop where
  | digits (terminal_eq : t.terminal = .int) (long : 4300 < t.text.length)
  | escapes (terminal_eq : t.terminal = .text)
      (undecodable : ¬('\x00' ∉ t.quoted ∧ WellEscaped t.quoted))

/-- A literal is an integer above the largest one, with few enough digits to be converted. -/
structure Token.OutOfRange (t : Token) : Prop where
  terminal_eq : t.terminal = .int
  short : t.text.length ≤ 4300
  large : 9223372036854775807 < Text.digitsValue t.text

/-- A sentence whose leftmost literal without a value is one whose conversion breaks off. -/
def BreaksOff (text : String) : Prop :=
  ∃ d before t after, IsSentence text.toList d ∧ d.yield = before ++ t :: after ∧ t.BreaksOff ∧
    ∀ t' ∈ before, ¬t'.BreaksOff ∧ ¬t'.OutOfRange

section

variable {t : Token} {fault : LiteralFault}

/-- A literal without a value is out of range, which is reported, or its conversion breaks off. -/
theorem Token.Bad.outOfRange_or_breaksOff (h : t.Bad fault) :
    (t.OutOfRange ∧ ∃ message, (Fault.literal fault).message? = some message) ∨
      (t.BreaksOff ∧ (Fault.literal fault).message? = none) := by
  cases h with
  | tooLong terminal_eq long => exact .inr ⟨.digits terminal_eq long, rfl⟩
  | tooLarge terminal_eq short large => exact .inl ⟨⟨terminal_eq, short, large⟩, _, rfl⟩
  | null terminal_eq hasNull =>
    exact .inr ⟨.escapes terminal_eq fun h => h.1 hasNull, rfl⟩
  | malformed terminal_eq noNull meaningless =>
    exact .inr ⟨.escapes terminal_eq fun h => h.2.elim meaningless, rfl⟩

theorem Token.BreaksOff.bad (h : t.BreaksOff) :
    ∃ fault, t.Bad fault ∧ (Fault.literal fault).message? = none := by
  cases h with
  | digits terminal_eq long => exact ⟨.tooManyDigits, .tooLong terminal_eq long, rfl⟩
  | escapes terminal_eq undecodable =>
    by_cases hnull : '\x00' ∈ t.quoted
    · exact ⟨.nullCharacter, .null terminal_eq hnull, rfl⟩
    · exact ⟨.malformedText, .malformed terminal_eq hnull fun s hs => undecodable ⟨hnull, s, hs⟩, rfl⟩

end

variable {text : String}

omit [Host] in
/-- A fault of the grammar has a wording. -/
theorem Fault.IsSyntax.reported {fault : Fault} (h : fault.IsSyntax) :
    ∃ message, fault.message? = some message := by
  cases fault with
  | unexpected _ => exact ⟨_, rfl⟩
  | unexpectedEnd _ => exact ⟨_, rfl⟩
  | noTerminal _ _ => exact ⟨_, rfl⟩
  | literal _ => exact h.elim
  | severalMains => exact h.elim

theorem BreaksOff.parse (h : BreaksOff text) : ∃ fault, Source.parse text = .error (.literal fault) ∧
    (Fault.literal fault).message? = none := by
  obtain ⟨d, before, t, after, hd, hyield, ht, hbefore⟩ := h
  obtain ⟨fault, hbad, hmessage⟩ := ht.bad
  refine ⟨fault, hd.parse_fault ?_, hmessage⟩
  rw [hyield]
  refine literalFault?_leftmost hbad fun t' ht' fault' hbad' => ?_
  rcases hbad'.outOfRange_or_breaksOff with ⟨hrange, -⟩ | ⟨hbreaks, -⟩
  · exact (hbefore t' ht').2 hrange
  · exact (hbefore t' ht').1 hbreaks

/-- **All other texts are reported**: they have a program, or a fault with a wording. -/
theorem parse_reported (h : ¬BreaksOff text) : (∃ p, Source.parse text = .ok p) ∨
    ∃ fault message, Source.parse text = .error fault ∧ fault.message? = some message := by
  cases hread : readAll text.toList with
  | error fault =>
    obtain ⟨message, hmessage⟩ := (readAll_isSyntax hread).reported
    exact .inr ⟨fault, message, by rw [Source.parse, hread], hmessage⟩
  | ok c =>
    obtain ⟨d, hd, -⟩ := exists_isSentence hread
    cases hfault : literalFault? d.yield with
    | none =>
      rw [hd.parse_program hfault]
      by_cases hmains : 2 ≤ d.mains.length
      · exact .inr ⟨_, _, assemble_several hmains, rfl⟩
      · exact .inl (exists_assemble (by omega))
    | some fault =>
      obtain ⟨before, t, after, hyield, ht, hbefore⟩ := List.findSome?_eq_some_iff.mp hfault
      rcases (Token.fault?_eq_some_iff.mp ht).outOfRange_or_breaksOff with
        ⟨-, message, hmessage⟩ | ⟨hbreaks, -⟩
      · exact .inr ⟨_, message, hd.parse_fault hfault, hmessage⟩
      · -- then the literal is the leftmost without a value
        refine absurd ⟨d, before, t, after, hd, hyield, hbreaks, fun t' ht' => ?_⟩ h
        have hgood : ∀ fault', ¬t'.Bad fault' := fun fault' hbad' => by
          have hnone := hbefore t' ht'
          rw [Token.fault?_eq_some_iff.mpr hbad'] at hnone
          cases hnone
        refine ⟨fun hbreaks' => ?_, fun hrange => ?_⟩
        · obtain ⟨fault', hbad', -⟩ := hbreaks'.bad
          exact hgood fault' hbad'
        · exact hgood _ (.tooLarge hrange.terminal_eq hrange.short hrange.large)

/-- **What the front end reports.** A text has a program or a fault with a wording, unless it is a
sentence whose leftmost literal without a value is an integer of more than 4300 digits or a text that
cannot be unescaped. Reading a file of such a text breaks off without a report; reading a file of any
other text gives a program, or ends the command with status one and the syntax error. -/
theorem front_end_reports_iff (text : String) :
    ((∃ p, parse text = .ok p) ∨
      (∃ fault message, parse text = .error fault ∧ fault.message? = some message) ↔
        ¬BreaksOff text) ∧
    ∀ (files : FileTree) (path : Path), files.readText path = .ok text →
      (¬BreaksOff text → (∃ p, Command.readSource files path = .ok p) ∨
        ∃ message, Command.readSource files path =
          .error ⟨.status 1, [], "Syntax error: " ++ message ++ "\n", files⟩) ∧
      (BreaksOff text → ∃ fault, Command.readSource files path =
        .error ⟨.crash (.source (.literal fault)), [], "", files⟩) := by
  refine ⟨⟨?_, parse_reported⟩, ?_⟩
  · intro hreported hbreaks
    obtain ⟨fault, hparse, hmessage⟩ := hbreaks.parse
    rcases hreported with ⟨p, hp⟩ | ⟨fault', message, hfault', hmessage'⟩
    · rw [hparse] at hp
      cases hp
    · rw [hparse] at hfault'
      cases hfault'
      rw [hmessage] at hmessage'
      cases hmessage'
  · intro files path hread
    refine ⟨fun hreported => ?_, fun hbreaks => ?_⟩
    · rcases parse_reported hreported with ⟨p, hp⟩ | ⟨fault, message, hparse, hmessage⟩
      · exact .inl ⟨p, Command.readSource_of_readText hread hp⟩
      · refine .inr ⟨message, ?_⟩
        rw [Command.readSource_of_fault hread hparse hmessage, ← Codes.ofString_append,
          Command.failed_ofString]
    · obtain ⟨fault, hparse, hmessage⟩ := hbreaks.parse
      exact ⟨fault, Command.readSource_of_unreported hread hparse hmessage⟩

end

section

open Host
open Command (oneFile readText_oneFile emptyText parse_emptyText)

/-- A text with an escape that breaks off before its second digit. -/
def unescapableText : String := "main\x7bs=\"\\x7\";\x7d"

theorem parse_unescapableText : parse unescapableText = .error (.literal .malformedText) := by cbv

/-- An escape that breaks off is a fault without a wording. -/
theorem unescapable_text_not_reported :
    ¬((∃ p, parse unescapableText = .ok p) ∨
      ∃ fault message, parse unescapableText = .error fault ∧ fault.message? = some message) := by
  rw [parse_unescapableText]
  rintro (⟨p, hp⟩ | ⟨fault, message, ⟨⟩, hmessage⟩)
  · cases hp
  · cases hmessage

/-- Two files, one of them with an escape that breaks off. -/
theorem front_end_reports_iff_files :
    BreaksOff unescapableText ∧
    (∃ fault, Command.readSource (oneFile ["a"] unescapableText) (.ofText "a") =
      .error ⟨.crash (.source (.literal fault)), [], "", oneFile ["a"] unescapableText⟩) ∧
    ¬BreaksOff emptyText ∧
    ((∃ p, Command.readSource (oneFile ["a"] emptyText) (.ofText "a") = .ok p) ∨
      ∃ message, Command.readSource (oneFile ["a"] emptyText) (.ofText "a") =
        .error ⟨.status 1, [], "Syntax error: " ++ message ++ "\n", oneFile ["a"] emptyText⟩) := by
  have hread : (oneFile ["a"] unescapableText).readText (.ofText "a") = .ok unescapableText :=
    readText_oneFile rfl (by decide)
  have hread' : (oneFile ["a"] emptyText).readText (.ofText "a") = .ok emptyText :=
    readText_oneFile rfl (by decide)
  obtain ⟨hiff, hfiles⟩ := front_end_reports_iff unescapableText
  obtain ⟨hiff', hfiles'⟩ := front_end_reports_iff emptyText
  have hbreaks : BreaksOff unescapableText := by
    by_contra h
    rcases hiff.mpr h with ⟨p, hp⟩ | ⟨fault, message, hfault, hmessage⟩
    · cases parse_unescapableText.symm.trans hp
    · cases parse_unescapableText.symm.trans hfault
      cases hmessage
  have hreported : ¬BreaksOff emptyText := hiff'.mp (.inl ⟨_, parse_emptyText⟩)
  exact ⟨hbreaks, (hfiles _ _ hread).2 hbreaks, hreported, (hfiles' _ _ hread').1 hreported⟩

end

end SmallImp.Source

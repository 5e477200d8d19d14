import SmallImp.Proofs.Layout
import SmallImp.Proofs.ReadingCompleteness

/-!
# Sentences of the grammar are read

The tokens of a derivation, written down with a space between them, are a text that is read: the
lexer cuts it up into the same tokens again, in whatever context each of them stands.

* `spaced`, `Layout.ofPieces` — pieces with a space between them;
* `parse_spaced` — the text of a derivation gives what the derivation stands for.
-/

namespace SmallImp.Source

/-! ### Pieces with a space between them -/

/-- The text of pieces with a space between them. -/
def spaced : List Piece → List Char
  | [] => []
  | [x] => x.text
  | x :: y :: rest => x.text ++ ' ' :: spaced (y :: rest)

namespace Layout

/-- Pieces with a gap before the first one and a space between them. -/
def ofPieces : List Char → List Piece → Layout
  | _, [] => last []
  | gap, x :: rest => next gap x (ofPieces [' '] rest)

theorem text_ofPieces (x : Piece) (rest : List Piece) : ∀ gap : List Char,
    (ofPieces gap (x :: rest)).text = gap ++ spaced (x :: rest) := by
  induction rest generalizing x with
  | nil => intro gap; simp [ofPieces, text, spaced]
  | cons y rest ih =>
    intro gap
    rw [ofPieces, text, ih, spaced]
    rfl

variable [Host]

/-- Pieces with spaces between them can be read if their tokens can. -/
theorem reads_ofPieces (xs : List Piece) : ∀ {gap : List Char} {s s' : State},
    (∀ rest, Gap gap rest) → (∀ x ∈ xs, x.Fits) →
    s.feedAll (xs.map (·.token .start)) = some s' → (ofPieces gap xs).Reads s s' := by
  induction xs with
  | nil =>
    intro gap s s' _ _ hfeed
    cases hfeed
    exact .last .nil
  | cons x rest ih =>
    intro gap s s' hgap hfits hfeed
    obtain ⟨hx, hfits⟩ := List.forall_mem_cons.mp hfits
    rw [List.map_cons, State.feedAll] at hfeed
    obtain ⟨t, ht, hfeed⟩ := Option.bind_eq_some_iff.mp hfeed
    have hspace : ∀ after, Gap [' '] after :=
      fun _ => .of_blanks (List.all_eq_true.mp (by decide))
    refine .next (hgap _) (hx.fitsIn (State.allows_of_feed? ht)) ht ?_ (ih hspace hfits hfeed)
    cases rest with
    | nil => exact .nil
    | cons y rest =>
      rw [text_ofPieces]
      exact .cons (Terminal.goesOn_of_isBlank _ _ rfl) _

end Layout

variable [Host]

/-- **The text of a derivation, with a space between the tokens, gives what the derivation stands
for.** -/
theorem parse_spaced {xs : List Piece} (hfits : ∀ x ∈ xs, x.Fits) {d : Derivation .program}
    (hd : d.yield = xs.map (·.token .start)) {p : Program}
    (hp : assemble d.image = .ok p) : parse (String.ofList (spaced xs)) = .ok p := by
  obtain ⟨s, hfeed, hend, htrees⟩ := State.feedAll_initial d
  have hvalues : literalFault? d.yield = none := by
    rw [hd, literalFault?, List.findSome?_map, List.findSome?_eq_none_iff]
    exact fun x hx => (hfits x hx).noFault .start
  rw [hd] at hfeed
  have hreads := Layout.reads_ofPieces xs (fun _ => .nil) hfits hfeed
  have htext : (Layout.ofPieces [] xs).text = spaced xs := by
    cases xs with
    | nil => rfl
    | cons x rest => exact Layout.text_ofPieces x rest []
  rw [← htext, hreads.parse_iff hend, htrees, buildProgram_of_values hvalues, hp]

end SmallImp.Source

import SmallImp.Text.Codes

/-!
# Texts as rows of code points

* `Code.ofNat_toNat` — a code point is that of its number;
* `Codes.ofString_injective` — strings are told apart by their texts;
* `Codes.isPlain_iff` — a text is that of a string unless it has a surrogate.
-/

namespace SmallImp

theorem Code.ofNat_toNat (code : Code) : Code.ofNat code.toNat = code := by
  cases code with
  | char c =>
    have hc : ¬(0xD800 ≤ c.toNat ∧ c.toNat < 0xE000) := by
      have hvalid : c.toNat < 0xD800 ∨ 0xDFFF < c.toNat ∧ c.toNat < 0x110000 := c.valid
      omega
    rw [toNat, ofNat, dif_neg hc, Char.ofNat_toNat]
  | surrogate half =>
    have hrange : 0xD800 ≤ 0xD800 + (half : Nat) ∧ 0xD800 + (half : Nat) < 0xE000 := by omega
    rw [toNat, ofNat, dif_pos hrange]
    simp

namespace Codes

/-! ### Texts of characters -/

theorem ofChars_injective : Function.Injective ofChars := fun _ _ h =>
  (List.map_inj_right fun _ _ => Code.char.inj).mp h

theorem ofString_injective : Function.Injective ofString := fun _ _ h =>
  String.toList_injective (ofChars_injective h)

@[simp] theorem ofString_inj {s s' : String} : ofString s = ofString s' ↔ s = s' :=
  ofString_injective.eq_iff

@[simp] theorem ofString_ofList (cs : List Char) : ofString (String.ofList cs) = ofChars cs := by
  rw [ofString, String.toList_ofList]

theorem ofString_append (s s' : String) : ofString (s ++ s') = ofString s ++ ofString s' := by
  simp [ofString, ofChars]

@[simp] theorem filterMap_ofChars (cs : List Char) : (ofChars cs).filterMap Code.char? = cs := by
  induction cs with
  | nil => rfl
  | cons c rest ih => exact congrArg (c :: ·) ih

@[simp] theorem characters_nil : characters [] = "" := rfl

@[simp] theorem characters_append (t t' : Codes) :
    characters (t ++ t') = characters t ++ characters t' := by
  rw [characters, List.filterMap_append, String.ofList_append, characters, characters]

@[simp] theorem characters_ofChars (cs : List Char) : characters (ofChars cs) = String.ofList cs := by
  rw [characters, filterMap_ofChars]

@[simp] theorem characters_ofString (s : String) : characters (ofString s) = s := by
  rw [characters, ofString, filterMap_ofChars, String.ofList_toList]

@[simp] theorem escaped_ofString (s : String) : escaped (ofString s) = s := by
  have hchars : ∀ cs : List Char, (ofChars cs).flatMap Code.escaped = cs := by
    intro cs
    induction cs with
    | nil => rfl
    | cons c rest ih => exact congrArg (c :: ·) ih
  rw [escaped, ofString, hchars, String.ofList_toList]

theorem escaped_append (t t' : Codes) : escaped (t ++ t') = escaped t ++ escaped t' := by
  rw [escaped, List.flatMap_append, String.ofList_append, escaped, escaped]

/-! ### Plain texts -/

@[simp] theorem isPlain_nil : isPlain [] = true := rfl

@[simp] theorem isPlain_append (t t' : Codes) : isPlain (t ++ t') = (isPlain t && isPlain t') :=
  List.all_append

theorem isPlain_intercalate {sep : Codes} (hsep : isPlain sep = true) : ∀ {texts : List Codes},
    (∀ t ∈ texts, isPlain t = true) → isPlain (sep.intercalate texts) = true
  | [], _ => rfl
  | [t], h => by
    rw [List.intercalate_singleton]
    exact h t List.mem_cons_self
  | t :: u :: rest, h => by
    obtain ⟨ht, hrest⟩ := List.forall_mem_cons.mp h
    rw [List.intercalate_cons_cons, isPlain_append, isPlain_append, ht, hsep,
      isPlain_intercalate hsep hrest]
    rfl

@[simp] theorem isPlain_ofChars (cs : List Char) : isPlain (ofChars cs) = true := by
  simp [isPlain, ofChars, Code.char?]

@[simp] theorem isPlain_ofString (s : String) : isPlain (ofString s) = true :=
  isPlain_ofChars s.toList

/-- A plain text is the text of its characters. -/
theorem ofString_characters {t : Codes} (h : isPlain t = true) : ofString (characters t) = t := by
  rw [characters, ofString_ofList]
  induction t with
  | nil => rfl
  | cons code rest ih =>
    simp only [isPlain, List.all_cons, Bool.and_eq_true] at h
    cases code with
    | char c => exact congrArg (Code.char c :: ·) (ih h.2)
    | surrogate half => cases h.1

/-- A text is plain just if it is that of a string. -/
theorem isPlain_iff {t : Codes} : isPlain t = true ↔ ∃ s : String, t = ofString s := by
  refine ⟨fun h => ⟨characters t, (ofString_characters h).symm⟩, ?_⟩
  rintro ⟨s, rfl⟩
  exact isPlain_ofString s

@[simp] theorem string?_ofString (s : String) : string? (ofString s) = some s := by
  rw [string?, if_pos (isPlain_ofString s), characters_ofString]

end Codes

end SmallImp

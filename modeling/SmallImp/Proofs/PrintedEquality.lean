import SmallImp.Proofs.CodePoints
import SmallImp.Proofs.FloatDisplay

/-!
# Equality and printed forms

Two values of one type are equal just if they are printed alike. For floats this says that the text is
a code: the digits before and after the point and the exponent can be told from it, they spell a
decimal, and that decimal is rounded to one float only.

* `Numeral.shown_injective` — the parts of a number can be told from its text;
* `Shown` — the text of a float without its sign;
* `Decimal.display_injective` — different floats are shown differently;
* `Value.same_iff_display_eq` — equality and printed forms.
-/

namespace SmallImp

/-! ### The parts of a shown number -/

namespace Json.Numeral

variable {n m : Numeral}

/-- Digits up to something else can be told from a text. -/
theorem digits_inj {row row' rest rest' : List Char} (hrow : ∀ c ∈ row, c.isDigit = true)
    (hrow' : ∀ c ∈ row', c.isDigit = true) (hrest : ∀ c ∈ rest.head?, c.isDigit = false)
    (hrest' : ∀ c ∈ rest'.head?, c.isDigit = false) (h : row ++ rest = row' ++ rest') :
    row = row' ∧ rest = rest' := by
  have hdigits := congrArg digitsOf h
  rw [digitsOf_append hrow hrest, digitsOf_append hrow' hrest'] at hdigits
  exact Prod.mk.inj hdigits

theorem shownExponent_stops (n : Numeral) : ∀ c ∈ n.shownExponent.head?, c.isDigit = false := by
  intro c hc
  rw [shownExponent] at hc
  rcases hexponent : n.exponent with _ | ⟨negative, digits⟩
  · simp [hexponent] at hc
  · obtain rfl : 'E' = c := by simpa [hexponent] using hc
    decide

/-- A text after a sign can be told from one without a sign. -/
theorem signed_inj {negative negative' : Bool} {text text' : List Char}
    (h : ∀ rest, text ≠ '-' :: rest) (h' : ∀ rest, text' ≠ '-' :: rest)
    (heq : (if negative then ['-'] else []) ++ text = (if negative' then ['-'] else []) ++ text') :
    negative = negative' ∧ text = text' := by
  cases negative with
  | false =>
    cases negative' with
    | false => exact ⟨rfl, heq⟩
    | true => exact absurd heq (h text')
  | true =>
    cases negative' with
    | false => exact absurd heq.symm (h' text)
    | true => exact ⟨rfl, (List.cons.inj heq).2⟩

theorem digits_ne_minus {row : List Char} (hrow : ∀ c ∈ row, c.isDigit = true) (rest : List Char) :
    row ≠ '-' :: rest := by
  rintro rfl
  exact absurd (hrow '-' List.mem_cons_self) (by decide)

theorem shownExponent_inj (hn : n.Proper) (hm : m.Proper) (h : n.shownExponent = m.shownExponent) :
    n.exponent = m.exponent := by
  rw [shownExponent, shownExponent] at h
  rcases hne : n.exponent with _ | ⟨negative, digits⟩
  · rcases hme : m.exponent with _ | ⟨negative', digits'⟩
    · rfl
    · simp [hne, hme] at h
  · rcases hme : m.exponent with _ | ⟨negative', digits'⟩
    · simp [hne, hme] at h
    · simp only [hne, hme] at h
      obtain ⟨rfl, rfl⟩ := signed_inj (digits_ne_minus (hn.exponent _ hne).2)
        (digits_ne_minus (hm.exponent _ hme).2) (List.cons.inj h).2
      rfl

/-- The parts of a number can be told from its text. -/
theorem shown_injective (hn : n.Proper) (hm : m.Proper) (h : n.shown = m.shown) : n = m := by
  have hpoint : ∀ c ∈ ('.' :: (n.fraction ++ n.shownExponent)).head?, c.isDigit = false := by simp
  have hpoint' : ∀ c ∈ ('.' :: (m.fraction ++ m.shownExponent)).head?, c.isDigit = false := by simp
  rw [shown, shown, List.append_assoc, List.append_assoc] at h
  obtain ⟨hwhole, hrest⟩ := digits_inj hn.whole hm.whole hpoint hpoint' h
  obtain ⟨hfraction, hexponent⟩ := digits_inj hn.fraction hm.fraction n.shownExponent_stops
    m.shownExponent_stops (List.cons.inj hrest).2
  have hpower := shownExponent_inj hn hm hexponent
  cases n
  cases m
  rw [mk.injEq]
  exact ⟨hwhole, hfraction, hpower⟩

theorem shown_ne_cons (hn : n.Proper) {c : Char} (hc : c.isDigit = false) (rest : List Char) :
    n.shown ≠ c :: rest := by
  intro h
  obtain ⟨d, row, hrow⟩ := List.exists_cons_of_ne_nil hn.notEmpty
  have hd : d.isDigit = true := hn.whole d (hrow ▸ List.mem_cons_self)
  have hdc : d = c := by
    rw [shown, hrow] at h
    exact (List.cons.inj h).1
  rw [hdc, hc] at hd
  cases hd

end Json.Numeral

/-! ### The texts of floats -/

namespace Decimal

open Binary64 Json

variable {x y : Float} {text : List Char}

/-- The text of a float without its sign: a word, or a number that is rounded to the magnitude. -/
inductive Shown (x : Float) (text : List Char) : Prop where
  | nan (h : isNaN x = true) (htext : text = "NaN".toList)
  | infinity (h : isInfinite x = true) (htext : text = "Infinity".toList)
  | number (n : Numeral) (hn : n.Proper) (hnumber : isNaN x = false)
      (h : RoundsTo n.decimal.value (magnitude x)) (htext : text = n.shown)

theorem roundsTo_zero : RoundsTo 0 0.0 := by
  have hzero : nearest 0 1 = 0.0 := by decide
  have hfinite : IsFinite (nearest 0 1) := isFinite_iff.mpr (by decide)
  have hrounds := roundsTo_nearest (by decide) hfinite
  rwa [hzero, Nat.cast_zero, zero_div] at hrounds

theorem isNegative_of_isNaN (h : isNaN x = true) : isNegative x = false := by
  rw [eq_nan h]
  decide

/-- What is displayed is a sign, if there is one, and the text of the magnitude. -/
theorem display_shown (x : Float) : ∃ text, Shown x text ∧
    (display x).toList = (if isNegative x then ['-'] else []) ++ text := by
  by_cases hnan : isNaN x = true
  · refine ⟨_, .nan hnan rfl, ?_⟩
    simp only [display, hnan, isNegative_of_isNaN hnan, Bool.false_eq_true, if_true, if_false]
    rfl
  rw [Bool.not_eq_true] at hnan
  by_cases hinfinite : isInfinite x = true
  · refine ⟨_, .infinity hinfinite rfl, ?_⟩
    simp only [display, hnan, hinfinite, Bool.false_eq_true, if_true, if_false, String.toList_append,
      signText_toList]
  rw [Bool.not_eq_true] at hinfinite
  by_cases hzero : magnitude x = 0.0
  · let n : Numeral := ⟨['0'], ['0'], none⟩
    have hproper : n.Proper := ⟨by simp [n], by simp [n], .inl rfl, by simp [n], by simp [n]⟩
    have hvalue : n.decimal.value = 0 := value_eq_zero.mpr rfl
    refine ⟨_, .number n hproper hnan ?_ rfl, ?_⟩
    · rw [hvalue, hzero]
      exact roundsTo_zero
    · simp only [display, hnan, hinfinite, hzero, Bool.false_eq_true, if_true, if_false,
        String.toList_append, signText_toList]
      rfl
  · obtain ⟨n, htidy, hrounds, -, hshown⟩ := exists_shown (positive_magnitude hnan hinfinite hzero)
    refine ⟨_, .number n htidy.toProper hnan hrounds rfl, ?_⟩
    rw [hshown]
    simp only [display, hnan, hinfinite, hzero, Bool.false_eq_true, if_false]
    split
    · rw [String.toList_append, signText_toList, String.toList_ofList]
    · simp only [String.toList_append, signText_toList, String.toList_ofList, List.append_assoc]
      rfl

/-- A number that is not negative is known by its value, zero included. -/
theorem magnitudeBits_eq (hx : IsFinite x) (hy : IsFinite y) (hxsign : isNegative x = false)
    (hysign : isNegative y = false) (h : exactValue x = exactValue y) :
    magnitudeBits x = magnitudeBits y := by
  by_cases hzero : exactValue x = 0
  · have hbits : ∀ {z : Float}, IsFinite z → isNegative z = false → exactValue z = 0 →
        magnitudeBits z = 0 := by
      intro z hz hsign hvalue
      by_contra hne
      have hpos : Positive z := ⟨hsign, hne, hz⟩
      rw [exactValue_eq_value hsign] at hvalue
      exact hpos.value_pos.ne' hvalue
    rw [hbits hx hxsign hzero, hbits hy hysign (h ▸ hzero)]
  · rw [exactValue_injective hx hy hzero h]

/-- One text belongs to one magnitude. -/
theorem Shown.magnitudeBits_eq (hx : Shown x text) (hy : Shown y text) :
    magnitudeBits x = magnitudeBits y := by
  cases hx with
  | nan h htext =>
    subst htext
    cases hy with
    | nan h' _ => rw [eq_nan h, eq_nan h']
    | infinity _ htext => exact absurd htext (by decide)
    | number n hn _ _ htext => exact absurd htext.symm (Numeral.shown_ne_cons hn (by decide) _)
  | infinity h htext =>
    subst htext
    cases hy with
    | nan _ htext => exact absurd htext (by decide)
    | infinity h' _ =>
      rw [isInfinite, beq_iff_eq] at h h'
      rw [← h, ← h']
    | number n hn _ _ htext => exact absurd htext.symm (Numeral.shown_ne_cons hn (by decide) _)
  | number n hn hnumber h htext =>
    subst htext
    cases hy with
    | nan _ htext => exact absurd htext (Numeral.shown_ne_cons hn (by decide) _)
    | infinity _ htext => exact absurd htext (Numeral.shown_ne_cons hn (by decide) _)
    | number m hm hnumber' h' htext =>
      obtain rfl := Numeral.shown_injective hn hm htext
      rw [← magnitudeBits_magnitude hnumber, ← magnitudeBits_magnitude hnumber']
      exact Decimal.magnitudeBits_eq h.finite h'.finite (isNegative_magnitude hnumber)
        (isNegative_magnitude hnumber') (h.unique h')

theorem Shown.ne_minus (h : Shown x text) (rest : List Char) : text ≠ '-' :: rest := by
  cases h with
  | nan _ htext => simp [htext]
  | infinity _ htext => simp [htext]
  | number n hn _ _ htext => exact htext ▸ Numeral.shown_ne_cons hn (by decide) rest

/-- Different floats are shown differently. -/
theorem display_injective (h : display x = display y) : x = y := by
  obtain ⟨text, hx, hxtext⟩ := display_shown x
  obtain ⟨text', hy, hytext⟩ := display_shown y
  have htexts : (if isNegative x then ['-'] else []) ++ text =
      (if isNegative y then ['-'] else []) ++ text' := by rw [← hxtext, ← hytext, h]
  obtain ⟨hsign, rfl⟩ := Numeral.signed_inj hx.ne_minus hy.ne_minus htexts
  exact eq_of_magnitude hsign (hx.magnitudeBits_eq hy)

end Decimal

/-! ### Values -/

namespace Value

theorem same_iff {a b : Value} : a.same b = true ↔ a = b := decide_eq_true_iff

/-- Values of one type that are printed alike are equal. -/
theorem eq_of_display_eq {a b : Value} (htype : a.typeName = b.typeName)
    (h : a.display = b.display) : a = b := by
  cases a with
  | null =>
    cases b with
    | null => rfl
    | _ => simp [typeName] at htype
  | bool p =>
    cases b with
    | bool q =>
      revert h
      cases p <;> cases q <;> decide
    | _ => simp [typeName] at htype
  | int n =>
    cases b with
    | int m => rw [Int.repr_injective (Codes.ofString_injective h)]
    | _ => simp [typeName] at htype
  | float x =>
    cases b with
    | float y => rw [Decimal.display_injective (Codes.ofString_injective h)]
    | _ => simp [typeName] at htype
  | str s =>
    cases b with
    | str t => exact congrArg str h
    | _ => simp [typeName] at htype

/-- **Equality agrees with what is printed.** Equality is an equivalence, values of different types are
not equal, and values of one type are equal just if they are printed alike. Floats are equal just if
both are not a number or their bits are the same. -/
theorem same_iff_display_eq :
    Equivalence (fun a b : Value => a.same b = true) ∧
    (∀ a b : Value, a.typeName ≠ b.typeName → a.same b = false) ∧
    (∀ x y : Float, (float x).same (float y) = true ↔
      Binary64.isNaN x = true ∧ Binary64.isNaN y = true ∨ x.toBits = y.toBits) ∧
    ∀ a b : Value, a.typeName = b.typeName → (a.display = b.display ↔ a.same b = true) := by
  refine ⟨⟨?_, ?_, ?_⟩, ?_, ?_, ?_⟩
  · exact fun a => same_iff.mpr rfl
  · exact fun h => same_iff.mpr (same_iff.mp h).symm
  · exact fun h h' => same_iff.mpr ((same_iff.mp h).trans (same_iff.mp h'))
  · intro a b htype
    rw [Bool.eq_false_iff, ne_eq, same_iff]
    rintro rfl
    exact htype rfl
  · intro x y
    rw [same_iff, float.injEq]
    refine ⟨?_, ?_⟩
    · rintro rfl
      exact .inr rfl
    · rintro (⟨hx, hy⟩ | hbits)
      · rw [Binary64.eq_nan hx, Binary64.eq_nan hy]
      · exact Float.toBits_inj.mp hbits
  · intro a b htype
    rw [same_iff]
    refine ⟨eq_of_display_eq htype, ?_⟩
    rintro rfl
    rfl

/-- The two least positive floats. The digits of the first are widened, and they are shown apart; the
two zeros are neither equal nor shown alike. -/
theorem same_iff_display_eq_leastFloats :
    (float (Float.ofBits 1)).display = "4.9E-324" ∧ (float (Float.ofBits 2)).display = "9.9E-324" ∧
    ¬(float (Float.ofBits 1)).same (float (Float.ofBits 2)) = true ∧
    ¬(float 0.0).display = (float (-0.0)).display := by
  obtain ⟨-, -, -, hprinted⟩ := same_iff_display_eq
  have hone : (float (Float.ofBits 1)).display = "4.9E-324" := by decide +kernel
  have htwo : (float (Float.ofBits 2)).display = "9.9E-324" := by decide +kernel
  refine ⟨hone, htwo, ?_, ?_⟩
  · rw [← hprinted (float (Float.ofBits 1)) (float (Float.ofBits 2)) rfl, hone, htwo]
    decide
  · rw [hprinted (float 0.0) (float (-0.0)) rfl]
    decide

end Value

end SmallImp

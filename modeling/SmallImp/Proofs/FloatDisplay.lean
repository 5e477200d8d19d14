import SmallImp.Proofs.FloatOrder
import SmallImp.Proofs.Rounding

/-!
# Floats as the language shows them

A float is shown with digits on both sides of a point, plain between a thousandth and ten million and
otherwise with an exponent. The decimal that is shown is rounded to the float again.

* `Numeral.shown`, `Numeral.Tidy` — the text of a number in this form, and the rules for its digits;
* `exponentShown` — the parts of a number shown with an exponent;
* `displayDigits_spec` — the digits are those of a decimal that is rounded to the float;
* `display_rounds_back` — the text of every finite float other than zero.
-/

namespace SmallImp

namespace Json

/-! ### Shown numbers -/

namespace Numeral

/-- The exponent as it is shown, without a sign unless it is negative. -/
def shownExponent (n : Numeral) : List Char :=
  match n.exponent with
  | none => []
  | some (negative, digits) => 'E' :: ((if negative then ['-'] else []) ++ digits)

/-- The text of a number as it is shown. -/
def shown (n : Numeral) : List Char := n.whole ++ ('.' :: n.fraction) ++ n.shownExponent

/-- A number as it is shown: there are digits on both sides of the point, no zero too many at either
end, and with an exponent one digit before the point, which is not zero. -/
structure Tidy (n : Numeral) : Prop extends n.Proper where
  pointed : n.fraction ≠ []
  trailing : n.fraction = ['0'] ∨ ∀ c ∈ n.fraction.getLast?, c ≠ '0'
  normal : n.exponent ≠ none → n.whole.length = 1 ∧ n.whole ≠ ['0']
  plainExponent : ∀ e ∈ n.exponent, ∀ c ∈ e.2.head?, c ≠ '0'

end Numeral

theorem plainNumeral_exponent (digits : List Char) (lead : Int) :
    (plainNumeral digits lead).exponent = none := by
  unfold plainNumeral
  split
  · rfl
  · split <;> rfl

theorem plainNumeral_shown {digits : List Char} (hdigits : Significant digits) (lead : Int) :
    (plainNumeral digits lead).shown = Decimal.plain digits lead := by
  rw [← plainNumeral_text hdigits, Numeral.shown, Numeral.shownExponent, Numeral.text,
    Numeral.fractionText, if_neg (plainNumeral_fraction hdigits lead), Numeral.exponentText,
    plainNumeral_exponent]
  simp

theorem plainNumeral_tidy {digits : List Char} (hdigits : Significant digits) (lead : Int) :
    (plainNumeral digits lead).Tidy := by
  have hexponent := plainNumeral_exponent digits lead
  refine ⟨plainNumeral_proper hdigits lead, plainNumeral_fraction hdigits lead, ?_,
    fun h => absurd hexponent h, by simp [hexponent]⟩
  unfold plainNumeral
  split
  · right
    rw [List.getLast?_append_of_ne_nil _ hdigits.notEmpty]
    exact hdigits.trailing
  · split
    · exact .inl rfl
    next hlong =>
      right
      rw [List.getLast?_drop, if_neg hlong]
      exact hdigits.trailing

/-- The parts of a number that is shown with an exponent. -/
def exponentShown (digits : List Char) (lead : Int) : Numeral :=
  ⟨digits.take 1, if digits.length = 1 then ['0'] else digits.drop 1,
    some (decide (lead < 0), Nat.toDigits 10 lead.natAbs)⟩

theorem exponentShown_shown {digits : List Char} (hdigits : Significant digits) (lead : Int) :
    (exponentShown digits lead).shown =
      Decimal.mantissaText digits ++ 'E' :: (toString lead).toList := by
  have hexponent : (toString lead).toList =
      (if decide (lead < 0) then ['-'] else []) ++ Nat.toDigits 10 lead.natAbs := by
    rw [intNumeral_text]
    simp [intNumeral, Numeral.text, Numeral.fractionText, Numeral.exponentText]
  rw [hexponent]
  cases digits with
  | nil => exact (hdigits.notEmpty rfl).elim
  | cons c tail =>
    cases tail with
    | nil => simp [Numeral.shown, exponentShown, Numeral.shownExponent, Decimal.mantissaText]
    | cons c' tail => simp [Numeral.shown, exponentShown, Numeral.shownExponent, Decimal.mantissaText]

theorem exponentShown_tidy {digits : List Char} (hdigits : Significant digits) {lead : Int}
    (hlead : lead ≠ 0) : (exponentShown digits lead).Tidy := by
  obtain ⟨c, tail, rfl⟩ := List.exists_cons_of_ne_nil hdigits.notEmpty
  have hc : c.isDigit = true := hdigits.isDigit c List.mem_cons_self
  have hne : c ≠ '0' := hdigits.leading c rfl
  have hfraction : (exponentShown (c :: tail) lead).fraction = if tail = [] then ['0'] else tail := by
    simp [exponentShown]
  refine ⟨⟨by simp [exponentShown, hc], by simp [exponentShown], .inr (by simp [exponentShown, hne]),
    ?_, ?_⟩, ?_, ?_, fun _ => ⟨by simp [exponentShown], by simp [exponentShown, hne]⟩, ?_⟩
  · rw [hfraction]
    split
    · simp
    · exact fun d hd => hdigits.isDigit d (List.mem_cons_of_mem c hd)
  · intro e he
    obtain rfl := Option.some.inj he
    exact ⟨Nat.toDigits_ne_nil, isDigit_toDigits⟩
  · rw [hfraction]
    split
    · simp
    next htail => exact htail
  · rw [hfraction]
    split
    · exact .inl rfl
    next htail =>
      have htrailing := hdigits.trailing
      rw [List.getLast?_cons_of_ne_nil htail] at htrailing
      exact .inr htrailing
  · intro e he
    obtain rfl := Option.some.inj he
    exact head_toDigits (by omega)

theorem exponentShown_value {digits : List Char} (hdigits : Significant digits) (lead : Int) :
    (exponentShown digits lead).decimal.value = (scaled digits lead).value := by
  have hpower : (exponentShown digits lead).power = some lead :=
    Numeral.power_eq rfl (natOfDigits_toDigits lead.natAbs)
  obtain ⟨c, tail, rfl⟩ := List.exists_cons_of_ne_nil hdigits.notEmpty
  rw [Numeral.decimal, hpower, Option.getD_some, scaled]
  cases tail with
  | nil =>
    have hshift := Decimal.value_shift (natOfDigits [c]) 1 (lead - 1)
    have hdigits : natOfDigits ([c] ++ ['0']) = natOfDigits [c] * 10 ^ 1 := natOfDigits_append [c] ['0']
    show (⟨natOfDigits ([c] ++ ['0']), lead - 1⟩ : Decimal).value = _
    rw [hdigits, hshift]
    congr 2
    simp
  | cons c' tail =>
    have hexp : lead - (c' :: tail).length = lead + 1 - (c :: c' :: tail).length := by
      rw [List.length_cons (a := c)]
      push_cast
      ring
    rw [← hexp]
    rfl

end Json

/-! ### Digits -/

namespace Decimal

open Binary64 Json

variable {x : Float}

/-- A decimal that is rounded to a positive float is not zero. -/
theorem coeff_ne_zero {d : Decimal} (hx : Positive x) (h : RoundsTo d.value x) : d.coeff ≠ 0 := by
  intro hzero
  have hnear := h.nearest 0 minExponent (by norm_num) le_rfl
  rw [value_eq_zero.mpr hzero, exactValue_eq_value hx.notNegative, Int.cast_zero, zero_mul, sub_zero,
    abs_zero, zero_sub, abs_neg, abs_of_pos hx.value_pos] at hnear
  exact absurd hx.value_pos (not_lt.mpr hnear)

/-- The digits of a float are those of a decimal that is rounded to it. -/
theorem displayDigits_spec (hx : Positive x) :
    ∃ d : Decimal, RoundsTo d.value x ∧ displayDigits x = d.scientific := by
  have hshortest := roundsTo_toFloat hx (toFloat_shortest hx)
  rw [displayDigits]
  dsimp only
  split
  next hone =>
    obtain ⟨c, hc⟩ := List.length_eq_one_iff.mp hone
    obtain ⟨hdigits, hvalue⟩ := scientific_spec (coeff_ne_zero hx hshortest)
    refine ⟨closestTwo x (shortest x).scientific.2, ?_, rfl⟩
    have hdigit : natOfDigits [c] ≤ 9 := by
      have hnine : c.toNat ≤ 57 := (Char.isDigit_iff_toNat.mp (hdigits.isDigit c (by simp [hc]))).2
      show 10 * 0 + (c.toNat - 48) ≤ 9
      omega
    refine roundsTo_closestTwo hx hdigit ?_
    have hscaled : scaled [c] (shortest x).scientific.2 =
        ⟨natOfDigits [c], (shortest x).scientific.2⟩ := by simp [scaled]
    rw [hc, hscaled] at hvalue
    rw [hvalue]
    exact hshortest
  next => exact ⟨shortest x, hshortest, rfl⟩

/-- The leading digit gives the size of a decimal. -/
theorem scientific_bounds {d : Decimal} (hd : d.coeff ≠ 0) :
    (10 : ℚ) ^ d.scientific.2 ≤ d.value ∧ d.value < 10 ^ (d.scientific.2 + 1) := by
  have hlead : d.scientific.2 = digitCount d.coeff + d.exp - 1 := by
    rw [add_comm (digitCount d.coeff : Int)]
    rfl
  rw [hlead, sub_add_cancel]
  exact value_bounds hd

/-! ### The limits of plain notation -/

theorem positive_thousandth : Positive 1e-3 := ⟨by decide, by decide, by decide⟩

theorem positive_tenMillion : Positive 1e7 := ⟨by decide, by decide, by decide⟩

theorem roundsTo_thousandth : RoundsTo (1 / 1000) 1e-3 := by
  have hnearest : nearest 1 1000 = 1e-3 := by decide
  have hfinite : IsFinite (nearest 1 1000) := by
    rw [hnearest]
    exact positive_thousandth.finite
  have hrounds := roundsTo_nearest (by decide) hfinite
  rw [hnearest] at hrounds
  exact_mod_cast hrounds

theorem value_tenMillion : Binary64.value 1e7 = 10 ^ 7 := by
  have hparts : parts 1e7 = (5368709120000000, -29) := by decide
  rw [Binary64.value, hparts]
  norm_num

theorem value_thousandth_lt : Binary64.value 1e-3 < 1 := by
  have hparts : parts 1e-3 = (4611686018427388, -62) := by decide
  rw [Binary64.value, hparts]
  norm_num

/-- The limits of plain notation, by value. -/
theorem plain_iff (hx : Positive x) :
    1e-3 ≤ x ∧ x < 1e7 ↔ Binary64.value 1e-3 ≤ Binary64.value x ∧ Binary64.value x < 10 ^ 7 := by
  rw [positive_thousandth.le_iff hx, hx.lt_iff positive_tenMillion, value_tenMillion]

/-- A decimal between one and ten is rounded to a float that is shown in plain notation. -/
theorem scientific_ne_zero {d : Decimal} (hx : Positive x) (h : RoundsTo d.value x)
    (hplain : ¬(1e-3 ≤ x ∧ x < 1e7)) : d.scientific.2 ≠ 0 := by
  intro hlead
  obtain ⟨hlow, hhigh⟩ := scientific_bounds (coeff_ne_zero hx h)
  have hlow : 1 ≤ d.value := by simpa [hlead] using hlow
  have hhigh : d.value < 10 := by simpa [hlead] using hhigh
  have hexact := exactValue_eq_value hx.notNegative
  have hone : |d.value - Binary64.value x| ≤ |d.value - 1| := by
    simpa [hexact] using h.nearest 1 0 (by norm_num) (by decide)
  have hten : |d.value - Binary64.value x| ≤ |d.value - 10| := by
    simpa [hexact] using h.nearest 10 0 (by norm_num) (by decide)
  rw [abs_of_nonneg (sub_nonneg.mpr hlow)] at hone
  rw [abs_of_neg (sub_neg.mpr hhigh)] at hten
  have hthousandth := value_thousandth_lt
  refine hplain ((plain_iff hx).mpr ⟨?_, ?_⟩)
  · have hle := (abs_le.mp hone).2
    linarith
  · have hle := (abs_le.mp hten).1
    linarith

/-! ### The text of a float -/

/-- The text of a positive float is that of a tidy number which is rounded to the float. -/
theorem exists_shown (hx : Positive x) :
    ∃ n : Numeral, n.Tidy ∧ RoundsTo n.decimal.value x ∧ (n.exponent = none ↔ 1e-3 ≤ x ∧ x < 1e7) ∧
      n.shown = if 1e-3 ≤ x ∧ x < 1e7 then plain (displayDigits x).1 (displayDigits x).2
        else mantissaText (displayDigits x).1 ++ 'E' :: (toString (displayDigits x).2).toList := by
  obtain ⟨d, hd, hdisplay⟩ := displayDigits_spec hx
  obtain ⟨hdigits, hvalue⟩ := scientific_spec (coeff_ne_zero hx hd)
  rw [hdisplay]
  by_cases hplain : 1e-3 ≤ x ∧ x < 1e7
  · refine ⟨plainNumeral d.scientific.1 d.scientific.2, plainNumeral_tidy hdigits _, ?_, ?_, ?_⟩
    · rw [plainNumeral_value, hvalue]
      exact hd
    · exact iff_of_true (plainNumeral_exponent _ _) hplain
    · rw [if_pos hplain, plainNumeral_shown hdigits]
  · refine ⟨exponentShown d.scientific.1 d.scientific.2,
      exponentShown_tidy hdigits (scientific_ne_zero hx hd hplain), ?_, ?_, ?_⟩
    · rw [exponentShown_value hdigits, hvalue]
      exact hd
    · exact iff_of_false (Option.some_ne_none _) hplain
    · rw [if_neg hplain, exponentShown_shown hdigits]

/-- **A float is rounded back from the text that shows it.** Let `x` be finite and not zero. Its text is
a sign `-` just if `x` is negative, and a tidy number: in plain notation just if `x` is at least the
float nearest to a thousandth and less than ten million in magnitude, otherwise with an exponent. The
decimal that the text spells is rounded to `x` and to no other float. -/
theorem display_rounds_back {x : Float} (hnumber : isNaN x = false) (hfinite : isInfinite x = false)
    (hzero : exactValue x ≠ 0) :
    RoundsTo (1 / 1000) 1e-3 ∧
    ∃ n : Numeral, n.Tidy ∧
      (display x).toList = (if exactValue x < 0 then ['-'] else []) ++ n.shown ∧
      (n.exponent = none ↔ exactValue 1e-3 ≤ |exactValue x| ∧ |exactValue x| < 10 ^ 7) ∧
      ∀ y, RoundsTo (if exactValue x < 0 then -n.decimal.value else n.decimal.value) y ↔ y = x := by
  have hx : IsFinite x := isFinite_iff.mpr ⟨hnumber, hfinite⟩
  have hpositive := hx.positive_magnitude hzero
  have hsign := isNegative_iff hzero
  obtain ⟨n, htidy, hrounds, hexponent, hshown⟩ := exists_shown hpositive
  have hback : RoundsTo (if exactValue x < 0 then -n.decimal.value else n.decimal.value) x := by
    simp only [← hsign]
    exact hrounds.of_magnitude hnumber
  refine ⟨roundsTo_thousandth, n, htidy, ?_, ?_, fun y => ⟨fun hy => ?_, ?_⟩⟩
  · have hmagnitude : magnitude x ≠ 0.0 := by
      intro h
      exact hpositive.notZero (by rw [h]; decide)
    rw [hshown]
    simp only [← hsign, display, hnumber, hfinite, hmagnitude, Bool.false_eq_true, if_false]
    split
    · rw [String.toList_append, signText_toList, String.toList_ofList]
    · simp only [String.toList_append, signText_toList, String.toList_ofList, List.append_assoc]
      rfl
  · rw [hexponent, plain_iff hpositive, value_magnitude hnumber, abs_exactValue,
      exactValue_eq_value positive_thousandth.notNegative]
  · exact (exactValue_injective hx hy.finite hzero (hback.unique hy)).symm
  · rintro rfl
    exact hback

/-- The largest negative float. The shortest decimal is `-5e-324`, which is widened to two digits. -/
theorem display_rounds_back_leastNegative :
    let x := Float.ofBits 0x8000000000000001
    isNaN x = false ∧ isInfinite x = false ∧ exactValue x = -2 ^ (-1074 : Int) ∧
    display x = "-4.9E-324" ∧
    ∃ n : Numeral, n.Tidy ∧ "-4.9E-324".toList = '-' :: n.shown ∧
      (n.exponent = none ↔ exactValue 1e-3 ≤ |exactValue x| ∧ |exactValue x| < 10 ^ 7) ∧
      ∀ y, RoundsTo (-n.decimal.value) y ↔ y = x := by
  intro x
  have hnumber : isNaN x = false := by decide
  have hfinite : isInfinite x = false := by decide
  have hexact : exactValue x = -2 ^ (-1074 : Int) := by
    have hparts : parts x = (1, -1074) := by decide
    have hmantissa : mantissa x = -1 := by decide
    rw [exactValue, hmantissa, hparts, Int.cast_neg, Int.cast_one, neg_one_mul]
  have hpos : (0 : ℚ) < 2 ^ (-1074 : Int) := by positivity
  have hneg : exactValue x < 0 := by
    rw [hexact]
    exact neg_neg_of_pos hpos
  have hdisplay : display x = "-4.9E-324" := by decide +kernel
  obtain ⟨n, htidy, hshown, hexponent, hrounds⟩ :=
    (display_rounds_back hnumber hfinite hneg.ne).2
  rw [hdisplay, if_pos hneg] at hshown
  rw [if_pos hneg] at hrounds
  exact ⟨hnumber, hfinite, hexact, hdisplay, n, htidy, hshown, hexponent, hrounds⟩

end Decimal

end SmallImp

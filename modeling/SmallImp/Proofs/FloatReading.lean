import SmallImp.Proofs.Rounding

/-!
# The float that a number is read as

A number that is not negative is read as the float it is rounded to. From half a unit above the largest
float on there is no such float, and the number is read as infinity.

* `Binary64.overflow` — the least number that is read as infinity;
* `Binary64.ReadsAs` — the float that a number is read as;
* `Binary64.ReadsAs.unique` — there is one only;
* `Decimal.readsAs_toFloat` — a decimal is read so.
-/

namespace SmallImp

namespace Binary64

/-- The least number that is read as infinity: half a unit above the largest float, whose mantissa is
odd. -/
def overflow : ℚ := (2 ^ 53 - 1 + 1 / 2) * 2 ^ (971 : ℤ)

/-- The float that a number which is not negative is read as. -/
inductive ReadsAs (v : ℚ) (x : Float) : Prop where
  | rounded (inReach : v < overflow) (rounds : RoundsTo v x) (noSign : isNegative x = false)
  | infinite (outOfReach : overflow ≤ v) (isInfinity : x = infinity)

variable {v : ℚ} {x y : Float}

theorem magnitudeBits_eq_zero (h : exactValue x = 0) : magnitudeBits x = 0 := by
  have hpower : (2 : ℚ) ^ (parts x).2 ≠ 0 := by positivity
  have hmantissa : mantissa x = 0 := by
    rw [exactValue, mul_eq_zero, or_iff_left hpower] at h
    exact_mod_cast h
  have hparts : (parts x).1 = 0 := by
    have habs := abs_mantissa x
    rw [hmantissa, abs_zero] at habs
    exact_mod_cast habs.symm
  unfold parts leadingBit at hparts
  dsimp only at hparts
  split at hparts
  · dsimp only at hparts
    omega
  · dsimp only at hparts
    omega

/-- **A number is read as one float only.** -/
theorem ReadsAs.unique (hx : ReadsAs v x) (hy : ReadsAs v y) : x = y := by
  cases hx with
  | rounded inReach rounds noSign =>
    cases hy with
    | rounded _ rounds' noSign' =>
      have hvalue := rounds.unique rounds'
      by_cases hzero : exactValue x = 0
      · refine eq_of_magnitude (noSign.trans noSign'.symm) ?_
        rw [magnitudeBits_eq_zero hzero, magnitudeBits_eq_zero (hvalue ▸ hzero)]
      · exact exactValue_injective rounds.finite rounds'.finite hzero hvalue
    | infinite outOfReach _ => exact absurd outOfReach (not_le.mpr inReach)
  | infinite outOfReach isInfinity =>
    cases hy with
    | rounded inReach _ _ => exact absurd outOfReach (not_le.mpr inReach)
    | infinite _ isInfinity' => rw [isInfinity, isInfinity']

theorem IsFinite.exponent_le (h : IsFinite x) : (Binary64.parts x).2 ≤ 971 := by
  unfold IsFinite infinityBits leadingBit at h
  unfold Binary64.parts minExponent leadingBit
  dsimp only
  split <;> dsimp only <;> omega

/-- A number that is rounded to a float is in reach: it is within half a unit of the float, and if the
float is the largest one, less than half a unit. -/
theorem RoundsTo.lt_overflow (h : RoundsTo v x) : v < overflow := by
  have hstep := h.nearestStep
  have hm : mantissa x ≤ 2 ^ 53 - 1 := by
    have := (le_abs_self _).trans_lt h.finite.mantissa_lt
    omega
  have hunit : (2 : ℚ) ^ (parts x).2 ≤ 2 ^ (971 : ℤ) :=
    zpow_le_zpow_right₀ one_le_two h.finite.exponent_le
  have hg : (0 : ℚ) < 2 ^ (parts x).2 := by positivity
  unfold overflow
  generalize (2 : ℚ) ^ (parts x).2 = g at *
  generalize (2 : ℚ) ^ (971 : ℤ) = top at *
  generalize mantissa x = m at *
  have hmantissa : (m : ℚ) ≤ 2 ^ 53 - 1 := by exact_mod_cast hm
  have hupper : v ≤ (m + 1 / 2) * g := by
    have hclose := (abs_le.mp hstep.close).2
    linarith
  by_contra hlarge
  rw [not_lt] at hlarge
  obtain rfl : g = top := by
    refine le_antisymm hunit ?_
    by_contra hlt
    nlinarith
  have hlast : (m : ℚ) = 2 ^ 53 - 1 := by
    refine le_antisymm hmantissa ?_
    by_contra hlt
    nlinarith
  have htie : |v - m * g| = g / 2 := by
    rw [hlast] at hupper ⊢
    rw [abs_of_nonneg (by linarith)]
    linarith
  have hodd : m = 2 ^ 53 - 1 := by exact_mod_cast hlast
  have heven := hstep.even htie
  rw [hodd] at heven
  exact absurd heven (by decide)

/-- A float that is not negative is what its value is read as. -/
theorem readsAs_exactValue (hfinite : IsFinite x) (hsign : isNegative x = false) :
    ReadsAs (exactValue x) x := by
  have hrounds : RoundsTo (exactValue x) x := by
    refine ⟨hfinite, fun m q _ _ => ?_, fun m q _ _ heq => .inl ?_⟩
    · rw [sub_self, abs_zero]
      exact abs_nonneg _
    · rw [sub_self, abs_zero, abs_eq_zero, sub_eq_zero] at heq
      exact heq.symm
  exact .rounded hrounds.lt_overflow hrounds hsign

/-- A number whose nearest float is infinite is out of reach. -/
theorem overflow_le {num den : Nat} (hden : 0 < den) (h : ¬IsFinite (nearest num den)) :
    overflow ≤ (num : ℚ) / den ∧ nearest num den = infinity := by
  obtain ⟨hsign, hmagnitude⟩ := nearest_bits num den
  rw [IsFinite, hmagnitude, not_lt] at h
  by_cases hnum : num = 0
  · rw [nearestBits, if_pos hnum] at h
    exact absurd h (by decide)
  obtain ⟨r, e, hmin, hr, hrfull, hfull, hstep, hbits⟩ := nearestBits_eq hnum hden
  have hinfinite : nearestBits num den = infinityBits := le_antisymm (hbits ▸ min_le_right _ _) h
  refine ⟨?_, eq_of_magnitude (hsign.trans (by decide)) (hmagnitude.trans (hinfinite.trans (by decide)))⟩
  have hpattern : infinityBits ≤ (e - minExponent).toNat * leadingBit + r := by
    rw [hbits] at h
    exact h.trans (min_le_left _ _)
  unfold infinityBits leadingBit minExponent at hpattern
  rw [minExponent] at hmin hfull
  rcases le_or_gt e 971 with hle | hgt
  · -- the mantissa is carried over to the next power of two
    obtain rfl : e = 971 := by omega
    obtain rfl : r = 2 ^ 53 := by omega
    have hclose := (abs_le.mp hstep.close).1
    unfold overflow
    generalize (2 : ℚ) ^ (971 : ℤ) = g at *
    push_cast at hclose
    linarith
  · have hlarge := hfull.resolve_right (by omega)
    have hunit : (2 : ℚ) * 2 ^ (971 : ℤ) ≤ 2 ^ e := by
      rw [← zpow_one_add₀ two_ne_zero]
      exact zpow_le_zpow_right₀ one_le_two (by omega)
    have hpos : (0 : ℚ) < 2 ^ (971 : ℤ) := by positivity
    unfold overflow
    generalize (2 : ℚ) ^ (971 : ℤ) = g at *
    generalize (2 : ℚ) ^ e = u at *
    linarith

/-- The float nearest to a ratio is what it is read as. -/
theorem readsAs_nearest {num den : Nat} (hden : 0 < den) :
    ReadsAs ((num : ℚ) / den) (nearest num den) := by
  by_cases hfinite : IsFinite (nearest num den)
  · have hrounds := roundsTo_nearest hden hfinite
    exact .rounded hrounds.lt_overflow hrounds (nearest_bits num den).1
  · obtain ⟨hreach, hinfinity⟩ := overflow_le hden hfinite
    exact .infinite hreach hinfinity

theorem exactValue_zero : exactValue 0.0 = 0 := by
  have hmantissa : mantissa 0.0 = 0 := by decide
  rw [exactValue, hmantissa, Int.cast_zero, zero_mul]

/-- A number below half of the least float is read as zero. -/
theorem readsAs_zero (hv : 0 ≤ v) (hsmall : v ≤ 2 ^ minExponent / 2) : ReadsAs v 0.0 := by
  have hrounds : RoundsTo v 0.0 := by
    refine roundsTo_of_nearestStep (r := 0) (e := minExponent) (isFinite_iff.mpr (by decide)) ?_
      (fun _ => by decide) ⟨?_, fun _ => Even.zero⟩ (.inr rfl)
    · rw [exactValue_zero, Int.cast_zero, zero_mul]
    · rw [Int.cast_zero, zero_mul, sub_zero, abs_of_nonneg hv]
      exact hsmall
  exact .rounded hrounds.lt_overflow hrounds (by decide)

end Binary64

namespace Decimal

open Binary64

/-- **A decimal is read as the float that its value asks for**, however large its exponent is. -/
theorem readsAs_toFloat (d : Decimal) : ReadsAs d.value d.toFloat := by
  by_cases hzero : d.coeff = 0
  · rw [value_eq_zero.mpr hzero, toFloat, if_pos (.inl hzero)]
    exact readsAs_zero le_rfl (by positivity)
  obtain ⟨hlow, hhigh⟩ := value_bounds hzero
  by_cases hsmall : (digitCount d.coeff : Int) + d.exp < -330
  · rw [toFloat, if_pos (.inr hsmall)]
    refine readsAs_zero (by unfold value; positivity) ?_
    have hpow : (10 : ℚ) ^ ((digitCount d.coeff : Int) + d.exp) ≤ 10 ^ (-330 : Int) :=
      zpow_le_zpow_right₀ (by norm_num) hsmall.le
    have hhalf : (2 : ℚ) ^ (-1080 : Int) ≤ 2 ^ minExponent / 2 := by
      rw [div_eq_mul_inv, ← zpow_sub_one₀ two_ne_zero]
      exact zpow_le_zpow_right₀ one_le_two (by decide)
    exact ((hhigh.trans_le hpow).trans ten_zpow_lt).le.trans hhalf
  by_cases hlarge : 310 < (digitCount d.coeff : Int) + d.exp
  · have hread : d.toFloat = infinity := by
      rw [toFloat]
      simp only [hzero, false_or, if_neg hsmall, if_pos hlarge]
    refine .infinite ?_ hread
    have hpow : (10 : ℚ) ^ (310 : Int) ≤ 10 ^ ((digitCount d.coeff : Int) + d.exp - 1) :=
      zpow_le_zpow_right₀ (by norm_num) (by omega)
    have hreach : overflow ≤ (2 : ℚ) ^ (1024 : Int) := by
      have hpower : (2 : ℚ) ^ (1024 : Int) = 2 ^ (53 : Int) * 2 ^ (971 : Int) :=
        zpow_add₀ two_ne_zero 53 971
      rw [overflow, hpower]
      gcongr
      norm_num
    exact hreach.trans (lt_ten_zpow.le.trans (hpow.trans hlow))
  · have hread : d.toFloat =
        nearest (scale 10 d.coeff 1 d.exp).1 (scale 10 d.coeff 1 d.exp).2 := by
      rw [toFloat]
      simp only [hzero, false_or, if_neg hsmall, if_neg hlarge]
    have hvalue := scale_value (show 0 < 10 by decide) d.coeff 1 d.exp
    rw [Nat.cast_one, div_one, Nat.cast_ofNat] at hvalue
    rw [hread, value, ← hvalue]
    exact readsAs_nearest (scale_den_pos (by decide) d.coeff Nat.one_pos d.exp)

end Decimal

end SmallImp

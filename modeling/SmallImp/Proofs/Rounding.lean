import SmallImp.Proofs.NumberText

/-!
# Rounding to the nearest float

A number is rounded to the float that no number with a mantissa of 53 bits is nearer to; of two equally
near ones, to the one with the even mantissa. The exponent has a least value and no greatest one, so a
number that is too large for a float is rounded to none.

* `NearestStep` — the multiple of a step that is nearest to a number;
* `Binary64.exactValue` — the value of a finite float, with its sign;
* `Binary64.RoundsTo` — a number is rounded to a float;
* `Binary64.RoundsTo.unique`, `Binary64.exactValue_injective` — to one float only;
* `Binary64.roundsTo_nearest`, `Decimal.roundsTo_toFloat` — the float nearest to a ratio, and the float
  that a decimal reads as;
* `Decimal.roundsTo_closestTwo` — if a decimal of one digit is rounded to a float, so is the closest
  decimal of two digits.
-/

namespace SmallImp

/-! ### Multiples of a step -/

/-- No multiple of the step `g` is nearer to `v` than `r · g`; half a step away only if `r` is even. -/
structure NearestStep (g v : ℚ) (r : ℤ) : Prop where
  close : |v - r * g| ≤ g / 2
  even : |v - r * g| = g / 2 → Even r

/-- Different multiples of a step are a step apart. -/
theorem step_le_abs_sub {g : ℚ} (hg : 0 < g) {r n : ℤ} (hne : n ≠ r) : g ≤ |r * g - n * g| := by
  have hone : (1 : ℚ) ≤ |(r - n : ℚ)| := by
    exact_mod_cast Int.one_le_abs (sub_ne_zero.mpr hne.symm)
  rw [← sub_mul, abs_mul, abs_of_pos hg]
  nlinarith

theorem NearestStep.nearest {g v : ℚ} {r : ℤ} (h : NearestStep g v r) (hg : 0 < g) (n : ℤ) :
    |v - r * g| ≤ |v - n * g| ∧ (|v - n * g| = |v - r * g| → n = r ∨ Even r) := by
  by_cases hne : n = r
  · subst hne
    exact ⟨le_rfl, fun _ => .inl rfl⟩
  have hapart := step_le_abs_sub hg hne
  have htriangle : |r * g - n * g| ≤ |v - r * g| + |v - n * g| := by
    rw [abs_sub_comm v (r * g)]
    exact abs_sub_le _ _ _
  have hclose := h.close
  refine ⟨by linarith, fun heq => .inr (h.even ?_)⟩
  linarith

/-- A rounded quotient is off by half a divisor at most, and by half a divisor only if it is even. -/
theorem roundDiv_off (num : Nat) {den : Nat} (hden : 0 < den) :
    |2 * ((num : ℤ) - roundDiv num den * den)| ≤ den ∧
      (|2 * ((num : ℤ) - roundDiv num den * den)| = den → Even (roundDiv num den)) := by
  have hsplit : (num : ℤ) = (num / den : Nat) * den + (num % den : Nat) := by
    exact_mod_cast (Nat.div_add_mod' num den).symm
  have hrest : num % den < den := Nat.mod_lt num hden
  rw [hsplit, roundDiv]
  generalize num / den = q, num % den = r at hrest
  have hdown : 2 * ((q : ℤ) * den + r - (q : Nat) * den) = 2 * r := by ring
  have hup : 2 * ((q : ℤ) * den + r - (q + 1 : Nat) * den) = 2 * r - 2 * den := by
    push_cast
    ring
  split
  next hless =>
    rw [hdown, abs_of_nonneg (by omega)]
    omega
  next =>
    split
    next hmore =>
      rw [hup, abs_of_nonpos (by omega)]
      omega
    next =>
      -- just between two naturals, of which the even one is taken
      rcases Nat.mod_two_eq_zero_or_one q with hq | hq
      · rw [hq, Nat.add_zero, hdown, abs_of_nonneg (by omega)]
        exact ⟨by omega, fun _ => Nat.even_iff.mpr hq⟩
      · rw [hq, hup, abs_of_nonpos (by omega)]
        exact ⟨by omega, fun _ => Nat.even_iff.mpr (by omega)⟩

/-- A rounded quotient counts the steps to the nearest multiple. -/
theorem roundDiv_nearestStep {num den : Nat} (hden : 0 < den) {v g : ℚ} (hg : 0 < g)
    (hv : (num : ℚ) / den = v / g) : NearestStep g v (roundDiv num den) := by
  obtain ⟨hle, heven⟩ := roundDiv_off num hden
  have hpos : (0 : ℚ) < den := by exact_mod_cast hden
  have hoff : 2 * |v - ((roundDiv num den : ℤ) : ℚ) * g| * den =
      ((|2 * ((num : ℤ) - roundDiv num den * den)| : ℤ) : ℚ) * g := by
    have hnum : v * den = num * g := by
      rw [div_eq_div_iff hpos.ne' hg.ne'] at hv
      exact hv.symm
    have hscaled : 2 * (v - ((roundDiv num den : ℤ) : ℚ) * g) * den =
        2 * ((num : ℚ) - roundDiv num den * den) * g := by
      rw [Int.cast_natCast]
      linear_combination 2 * hnum
    have habs := congrArg abs hscaled
    rw [abs_mul, abs_mul, abs_of_pos hpos, abs_of_pos (two_pos : (0 : ℚ) < 2), abs_mul _ g,
      abs_of_pos hg] at habs
    push_cast
    exact habs
  constructor
  · have hcast : ((|2 * ((num : ℤ) - roundDiv num den * den)| : ℤ) : ℚ) ≤ den := by exact_mod_cast hle
    have hscaled := mul_le_mul_of_nonneg_right hcast hg.le
    rw [← hoff, mul_comm (den : ℚ) g] at hscaled
    have hdouble := le_of_mul_le_mul_right hscaled hpos
    linarith
  · intro hhalf
    rw [hhalf] at hoff
    have hcast : ((|2 * ((num : ℤ) - roundDiv num den * den)| : ℤ) : ℚ) = den := by
      refine mul_right_cancel₀ hg.ne' ?_
      rw [← hoff]
      ring
    exact_mod_cast heven (by exact_mod_cast hcast)

namespace Binary64

/-! ### Rounding -/

/-- The mantissa of a finite float, with its sign. -/
def mantissa (x : Float) : ℤ := if isNegative x then -((parts x).1 : ℤ) else (parts x).1

/-- The value of a finite float, with its sign. -/
def exactValue (x : Float) : ℚ := mantissa x * 2 ^ (parts x).2

/-- A float that is neither an infinity nor not a number. -/
def IsFinite (x : Float) : Prop := magnitudeBits x < infinityBits

/-- A number is rounded to a finite float that no number with a mantissa of 53 bits is nearer to. If
another one is as near, the float has the even mantissa. -/
structure RoundsTo (v : ℚ) (x : Float) : Prop where
  finite : IsFinite x
  nearest : ∀ m q : ℤ, |m| < 2 ^ 53 → minExponent ≤ q → |v - exactValue x| ≤ |v - m * 2 ^ q|
  even : ∀ m q : ℤ, |m| < 2 ^ 53 → minExponent ≤ q → |v - m * 2 ^ q| = |v - exactValue x| →
    m * 2 ^ q = exactValue x ∨ Even (mantissa x)

variable {x y : Float} {v : ℚ}

theorem IsFinite.parts (h : IsFinite x) : (parts x).1 < 2 ^ 53 ∧ minExponent ≤ (parts x).2 := by
  unfold IsFinite infinityBits leadingBit at h
  unfold Binary64.parts minExponent leadingBit
  dsimp only
  split <;> dsimp only <;> omega

theorem abs_mantissa (x : Float) : |mantissa x| = (parts x).1 := by
  unfold mantissa
  split
  · rw [abs_neg, Nat.abs_cast]
  · rw [Nat.abs_cast]

theorem IsFinite.mantissa_lt (h : IsFinite x) : |mantissa x| < 2 ^ 53 := by
  rw [abs_mantissa]
  exact_mod_cast h.parts.1

/-- The next number after the largest mantissa counts as well: it is a power of two. -/
theorem RoundsTo.compare (h : RoundsTo v x) {m q : ℤ} (hm : |m| ≤ 2 ^ 53) (hq : minExponent ≤ q) :
    |v - exactValue x| ≤ |v - m * 2 ^ q| ∧
      (|v - m * 2 ^ q| = |v - exactValue x| → m * 2 ^ q = exactValue x ∨ Even (mantissa x)) := by
  rcases hm.lt_or_eq with hlt | heq
  · exact ⟨h.nearest m q hlt hq, h.even m q hlt hq⟩
  · obtain ⟨k, hk, rfl⟩ : ∃ k : ℤ, |k| < 2 ^ 53 ∧ m = 2 * k := by
      rcases abs_eq (by norm_num) |>.mp heq with rfl | rfl
      · exact ⟨2 ^ 52, by norm_num, by norm_num⟩
      · exact ⟨-2 ^ 52, by norm_num, by norm_num⟩
    have hdouble : ((2 * k : ℤ) : ℚ) * 2 ^ q = k * 2 ^ (q + 1) := by
      rw [zpow_add₀ two_ne_zero, zpow_one]
      push_cast
      ring
    rw [hdouble]
    exact ⟨h.nearest k (q + 1) hk (by omega), h.even k (q + 1) hk (by omega)⟩

/-- A number is within half a unit of what it is rounded to. -/
theorem RoundsTo.nearestStep (h : RoundsTo v x) : NearestStep (2 ^ (parts x).2) v (mantissa x) := by
  have hlt := h.finite.mantissa_lt
  have hq := h.finite.parts.2
  have hg : (0 : ℚ) < 2 ^ (parts x).2 := by positivity
  obtain ⟨hup, hupEven⟩ := h.compare (m := mantissa x + 1) (by grind) hq
  obtain ⟨hdown, hdownEven⟩ := h.compare (m := mantissa x - 1) (by grind) hq
  rw [exactValue] at hup hupEven hdown hdownEven
  push_cast at hup hupEven hdown hdownEven
  generalize (2 : ℚ) ^ (parts x).2 = g at *
  generalize mantissa x = m at *
  refine ⟨?_, fun hhalf => ?_⟩
  · -- more than half a unit away, the next multiple on this side would be nearer
    grind
  · rcases (abs_eq (by positivity)).mp hhalf with habove | hbelow
    · have htie : |v - (m + 1) * g| = |v - m * g| := by grind
      exact (hupEven htie).resolve_left (by grind)
    · have htie : |v - (m - 1) * g| = |v - m * g| := by grind
      exact (hdownEven htie).resolve_left (by grind)

/-- A multiple of a larger unit is one of a smaller unit. -/
theorem exists_multiple {e q : ℤ} (h : e ≤ q) (m : ℤ) : ∃ n : ℤ, (m : ℚ) * 2 ^ q = n * 2 ^ e := by
  obtain ⟨k, hk⟩ := Int.le.dest h
  refine ⟨m * 2 ^ k, ?_⟩
  rw [← hk, zpow_add₀ two_ne_zero, zpow_natCast]
  push_cast
  ring

/-- A number is rounded to its nearest multiple of a unit, if it fills the mantissa in this unit or the
unit is the least one. -/
theorem roundsTo_of_nearestStep {r e : ℤ} (hfinite : IsFinite x) (hvalue : exactValue x = r * 2 ^ e)
    (heven : Even r → Even (mantissa x)) (hstep : NearestStep (2 ^ e) v r)
    (hfull : 2 ^ 52 * 2 ^ e ≤ v ∨ e = minExponent) : RoundsTo v x := by
  have hg : (0 : ℚ) < 2 ^ e := by positivity
  -- a number with a smaller unit is below the mantissas of this unit, and further away
  have hsmaller : ∀ m q : ℤ, |m| < 2 ^ 53 → minExponent ≤ q → q < e →
      |v - r * 2 ^ e| < |v - m * 2 ^ q| := by
    intro m q hm hq hlt
    have hv : 2 ^ 52 * 2 ^ e ≤ v := hfull.resolve_right (by omega)
    have hbelow : (m : ℚ) * 2 ^ q < 2 ^ 52 * 2 ^ e := by
      have hmantissa : (m : ℚ) < 2 ^ 53 := by exact_mod_cast (le_abs_self m).trans_lt hm
      have hunit : (2 : ℚ) * 2 ^ q ≤ 2 ^ e := by
        rw [← zpow_one_add₀ two_ne_zero]
        exact zpow_le_zpow_right₀ one_le_two (by omega)
      have hq : (0 : ℚ) < 2 ^ q := by positivity
      nlinarith
    have hfloor := (hstep.nearest hg (2 ^ 52)).1
    rw [Int.cast_pow, Int.cast_ofNat] at hfloor
    calc |v - r * 2 ^ e| ≤ |v - 2 ^ 52 * 2 ^ e| := hfloor
      _ = v - 2 ^ 52 * 2 ^ e := abs_of_nonneg (sub_nonneg.mpr hv)
      _ < v - m * 2 ^ q := sub_lt_sub_left hbelow v
      _ ≤ |v - m * 2 ^ q| := le_abs_self _
  refine ⟨hfinite, fun m q hm hq => ?_, fun m q hm hq htie => ?_⟩
  · rw [hvalue]
    rcases lt_or_ge q e with hlt | hge
    · exact (hsmaller m q hm hq hlt).le
    · obtain ⟨n, hn⟩ := exists_multiple hge m
      rw [hn]
      exact (hstep.nearest hg n).1
  · rw [hvalue] at htie ⊢
    rcases lt_or_ge q e with hlt | hge
    · exact absurd htie (hsmaller m q hm hq hlt).ne'
    · obtain ⟨n, hn⟩ := exists_multiple hge m
      rw [hn] at htie ⊢
      rcases (hstep.nearest hg n).2 htie with rfl | hr
      · exact .inl rfl
      · exact .inr (heven hr)

/-! ### The nearest float -/

theorem toBits_ofNat {n : Nat} (h : n ≤ infinityBits) :
    (Float.ofBits (UInt64.ofNat n)).toBits.toNat = n := by
  unfold infinityBits leadingBit at h
  have hnat : (UInt64.ofNat n).toNat = n := by
    rw [UInt64.toNat_ofNat']
    omega
  rw [toBits_ofBits, hnat]
  rw [hnat]
  exact (Nat.mod_le _ _).trans h

/-- What a bit pattern is worth. A carry out of the mantissa is a unit more. -/
theorem exactValue_of_bits {r : Nat} {e : ℤ} (hsign : isNegative x = false)
    (hbits : magnitudeBits x = (e - minExponent).toNat * leadingBit + r) (he : minExponent ≤ e)
    (hr : r ≤ 2 ^ 53) (hfull : 2 ^ 52 ≤ r ∨ e = minExponent) :
    exactValue x = r * 2 ^ e ∧ (Even r → Even (mantissa x)) := by
  have hmantissa : mantissa x = (parts x).1 := by simp [mantissa, hsign]
  rcases hr.lt_or_eq with hlt | rfl
  · have hparts : parts x = (r, e) := by
      unfold parts
      rw [hbits]
      unfold minExponent at *
      unfold leadingBit
      dsimp only
      split <;> rw [Prod.mk.injEq] <;> omega
    rw [exactValue, hmantissa, hparts]
    exact ⟨rfl, fun h => by exact_mod_cast h⟩
  · have hparts : parts x = (2 ^ 52, e + 1) := by
      unfold parts
      rw [hbits]
      unfold minExponent at *
      unfold leadingBit
      dsimp only
      split <;> rw [Prod.mk.injEq] <;> omega
    rw [exactValue, hmantissa, hparts]
    have heven : Even (((2 ^ 52 : Nat) : ℤ)) := by decide
    refine ⟨?_, fun _ => heven⟩
    rw [zpow_add₀ two_ne_zero, zpow_one]
    push_cast
    ring

/-- The unit of a number fits its size. -/
theorem unitExponent_bounds {num den : Nat} (hnum : num ≠ 0) (hden : 0 < den) :
    minExponent ≤ unitExponent num den ∧ (num : ℚ) / den < 2 ^ 53 * 2 ^ unitExponent num den ∧
      (2 ^ 52 * 2 ^ unitExponent num den ≤ (num : ℚ) / den ∨ unitExponent num den = minExponent) := by
  have hpos : (0 : ℚ) < (num : ℚ) / den :=
    div_pos (by exact_mod_cast Nat.pos_of_ne_zero hnum) (by exact_mod_cast hden)
  have hlow : (2 : ℚ) ^ Int.log 2 ((num : ℚ) / den) ≤ (num : ℚ) / den := by
    exact_mod_cast Int.zpow_log_le_self (b := 2) (by decide) hpos
  have hhigh : (num : ℚ) / den < 2 ^ (Int.log 2 ((num : ℚ) / den) + 1) := by
    exact_mod_cast Int.lt_zpow_succ_log_self (b := 2) (by decide) ((num : ℚ) / den)
  have hshift : ∀ k : Nat, (2 : ℚ) ^ k * 2 ^ unitExponent num den = 2 ^ (k + unitExponent num den) :=
    fun k => by rw [zpow_add₀ two_ne_zero, zpow_natCast]
  rw [hshift, hshift, unitExponent_eq hnum hden.ne']
  refine ⟨le_max_right _ _, ?_, ?_⟩
  · exact hhigh.trans_le (zpow_le_zpow_right₀ one_le_two (by omega))
  · rcases max_choice (Int.log 2 ((num : ℚ) / den) - 52) minExponent with hmax | hmax
    · left
      rw [hmax]
      exact le_trans (zpow_le_zpow_right₀ one_le_two (by omega)) hlow
    · exact .inr hmax

/-- The bits of the float nearest to a ratio. -/
theorem nearest_bits (num den : Nat) :
    isNegative (nearest num den) = false ∧ magnitudeBits (nearest num den) = nearestBits num den := by
  have hle : nearestBits num den ≤ infinityBits := by
    rw [nearestBits]
    split
    · exact Nat.zero_le _
    · exact min_le_right _ _
  have hless : nearestBits num den < signBit := hle.trans_lt (by decide)
  have hbits : (nearest num den).toBits.toNat = nearestBits num den := toBits_ofNat hle
  constructor
  · rw [isNegative, hbits, decide_eq_false_iff_not]
    exact not_le.mpr hless
  · rw [magnitudeBits, hbits, Nat.mod_eq_of_lt hless]

/-- The pattern of the float nearest to a ratio: the mantissa counts the steps to the nearest multiple of
a unit that fits the size of the ratio, and the largest pattern is that of infinity. -/
theorem nearestBits_eq {num den : Nat} (hnum : num ≠ 0) (hden : 0 < den) :
    ∃ (r : Nat) (e : ℤ), minExponent ≤ e ∧ r ≤ 2 ^ 53 ∧ (2 ^ 52 ≤ r ∨ e = minExponent) ∧
      (2 ^ 52 * 2 ^ e ≤ (num : ℚ) / den ∨ e = minExponent) ∧ NearestStep (2 ^ e) ((num : ℚ) / den) r ∧
      nearestBits num den = min ((e - minExponent).toNat * leadingBit + r) infinityBits := by
  obtain ⟨hmin, hhigh, hfull⟩ := unitExponent_bounds hnum hden
  have hbits : nearestBits num den = min ((unitExponent num den - minExponent).toNat * leadingBit +
      roundDiv (scale 2 num den (-unitExponent num den)).1 (scale 2 num den (-unitExponent num den)).2)
      infinityBits := by
    rw [nearestBits, if_neg hnum]
  generalize unitExponent num den = e at hmin hhigh hfull hbits
  have hg : (0 : ℚ) < 2 ^ e := by positivity
  have hscaled := scale_value Nat.two_pos num den (-e)
  rw [Nat.cast_ofNat, zpow_neg, ← div_eq_mul_inv] at hscaled
  have hstep := roundDiv_nearestStep (scale_den_pos Nat.two_pos num hden (-e)) hg hscaled
  generalize roundDiv (scale 2 num den (-e)).1 (scale 2 num den (-e)).2 = r at hstep hbits
  have hclose := abs_le.mp hstep.close
  rw [Int.cast_natCast] at hclose
  refine ⟨r, e, hmin, ?_, hfull.imp_left fun hle => ?_, hfull, hstep, hbits⟩
  · have hlt : (r : ℚ) < (2 ^ 53 + 1 : Nat) := by
      push_cast
      nlinarith
    have := Nat.cast_lt.mp hlt
    omega
  · have hlt : ((2 ^ 52 : Nat) : ℚ) < (r + 1 : Nat) := by
      push_cast
      nlinarith
    have := Nat.cast_lt.mp hlt
    omega

/-- **The float nearest to a ratio is what it is rounded to**, unless it is infinite. -/
theorem roundsTo_nearest {num den : Nat} (hden : 0 < den) (hfinite : IsFinite (nearest num den)) :
    RoundsTo ((num : ℚ) / den) (nearest num den) := by
  obtain ⟨hsign, hmagnitude⟩ := nearest_bits num den
  have h : nearestBits num den < infinityBits := hmagnitude ▸ hfinite
  by_cases hnum : num = 0
  · have hzero : nearestBits num den = (minExponent - minExponent).toNat * leadingBit + 0 := by
      rw [nearestBits, if_pos hnum]
      rfl
    obtain ⟨hvalue, heven⟩ := exactValue_of_bits hsign (hmagnitude.trans hzero) le_rfl (by norm_num)
      (.inr rfl)
    refine roundsTo_of_nearestStep (r := 0) hfinite (by exact_mod_cast hvalue)
      (fun _ => heven Even.zero) ⟨?_, fun _ => Even.zero⟩ (.inr rfl)
    simp [hnum]
    positivity
  obtain ⟨r, e, hmin, hr, hrfull, hfull, hstep, hbits⟩ := nearestBits_eq hnum hden
  rw [hbits, min_lt_iff] at h
  rw [min_eq_left (h.resolve_right (lt_irrefl _)).le] at hbits
  obtain ⟨hvalue, heven⟩ := exactValue_of_bits hsign (hmagnitude.trans hbits) hmin hr hrfull
  exact roundsTo_of_nearestStep hfinite hvalue (fun h => heven (by exact_mod_cast h)) hstep hfull

/-! ### One float only -/

/-- A number is rounded to floats of one value only. -/
theorem RoundsTo.unique (hx : RoundsTo v x) (hy : RoundsTo v y) : exactValue x = exactValue y := by
  wlog hle : (parts x).2 ≤ (parts y).2 generalizing x y
  · exact (this hy hx (by omega)).symm
  by_contra hne
  -- both are equally near, so both have even mantissas; in the smaller unit they are two units apart
  have hdist : |v - exactValue x| = |v - exactValue y| :=
    le_antisymm (hx.nearest _ _ hy.finite.mantissa_lt hy.finite.parts.2)
      (hy.nearest _ _ hx.finite.mantissa_lt hx.finite.parts.2)
  have hxeven : Even (mantissa x) :=
    (hx.even _ _ hy.finite.mantissa_lt hy.finite.parts.2 hdist.symm).resolve_left (Ne.symm hne)
  have hyeven : Even (mantissa y) :=
    (hy.even _ _ hx.finite.mantissa_lt hx.finite.parts.2 hdist).resolve_left hne
  obtain ⟨a, ha⟩ := hxeven
  obtain ⟨b, hb⟩ := hyeven
  obtain ⟨n, hn⟩ := exists_multiple hle b
  have hg : (0 : ℚ) < 2 ^ (parts x).2 := by positivity
  have hxvalue : exactValue x = a * (2 * 2 ^ (parts x).2) := by
    rw [exactValue, ha]
    push_cast
    ring
  have hyvalue : exactValue y = n * (2 * 2 ^ (parts x).2) := by
    have hhalf : exactValue y = 2 * (b * 2 ^ (parts y).2) := by
      rw [exactValue, hb]
      push_cast
      ring
    rw [hhalf, hn]
    ring
  have hna : n ≠ a := by
    rintro rfl
    exact hne (hxvalue.trans hyvalue.symm)
  have hapart := step_le_abs_sub (mul_pos two_pos hg) hna
  rw [← hxvalue, ← hyvalue] at hapart
  have htriangle : |exactValue x - exactValue y| ≤ |v - exactValue x| + |v - exactValue y| := by
    rw [abs_sub_comm v (exactValue x)]
    exact abs_sub_le _ _ _
  have hclose : |v - exactValue x| ≤ 2 ^ (parts x).2 / 2 := hx.nearestStep.close
  linarith

theorem isFinite_iff : IsFinite x ↔ isNaN x = false ∧ isInfinite x = false := by
  rw [IsFinite, isNaN, isInfinite, decide_eq_false_iff_not, beq_eq_false_iff_ne]
  omega

theorem abs_exactValue (x : Float) : |exactValue x| = value x := by
  rw [exactValue, abs_mul, abs_of_pos (show (0 : ℚ) < 2 ^ (parts x).2 by positivity), value]
  have hmantissa := abs_mantissa x
  rw [← Int.cast_abs, hmantissa, Int.cast_natCast]

theorem exactValue_eq_value (h : isNegative x = false) : exactValue x = value x := by
  simp [exactValue, mantissa, h, value]

/-- A number other than zero is negative if its sign says so. -/
theorem isNegative_iff (hzero : exactValue x ≠ 0) : isNegative x = true ↔ exactValue x < 0 := by
  have hg : (0 : ℚ) < 2 ^ (parts x).2 := by positivity
  have hneg : exactValue x < 0 ↔ mantissa x < 0 := by
    rw [exactValue, mul_neg_iff]
    simp [hg, hg.le]
  have hmantissa : mantissa x ≠ 0 := by
    intro h
    exact hzero (by rw [exactValue, h, Int.cast_zero, zero_mul])
  rw [hneg]
  cases hsign : isNegative x with
  | true =>
    rw [mantissa, if_pos hsign] at hmantissa ⊢
    simp only [true_iff]
    omega
  | false =>
    rw [mantissa, if_neg (by rw [hsign]; exact Bool.false_ne_true)]
    simp only [Bool.false_eq_true, false_iff]
    omega

theorem parts_congr (h : magnitudeBits x = magnitudeBits y) : parts x = parts y := by
  simp only [parts, h]

/-- A float is its sign and its magnitude. -/
theorem eq_of_magnitude (hsign : isNegative x = isNegative y)
    (hbits : magnitudeBits x = magnitudeBits y) : x = y := by
  refine Float.toBits_inj.mp (UInt64.toNat_inj.mp ?_)
  have hx := UInt64.toNat_lt x.toBits
  have hy := UInt64.toNat_lt y.toBits
  rw [isNegative, isNegative, decide_eq_decide] at hsign
  unfold magnitudeBits signBit at *
  omega

/-- The ratio of a float is its value. -/
theorem ratio_value (x : Float) :
    0 < (ratio x).2 ∧ ((ratio x).1 : ℚ) / (ratio x).2 = value x := by
  refine ⟨scale_den_pos Nat.two_pos _ Nat.one_pos _, ?_⟩
  rw [ratio, scale_value Nat.two_pos, Nat.cast_one, div_one, Nat.cast_ofNat, value]

/-- The magnitude of a float other than zero is positive. -/
theorem IsFinite.positive_magnitude (h : IsFinite x) (hzero : exactValue x ≠ 0) :
    Positive (magnitude x) := by
  obtain ⟨hnumber, -⟩ := isFinite_iff.mp h
  have hsame := magnitudeBits_magnitude hnumber
  refine ⟨isNegative_magnitude hnumber, ?_, hsame.trans_lt h⟩
  intro hbits
  have hparts : Binary64.parts x = (0, minExponent) := by
    rw [hsame] at hbits
    rw [Binary64.parts, hbits]
    rfl
  refine hzero (abs_eq_zero.mp ?_)
  rw [abs_exactValue, value, hparts, Nat.cast_zero, zero_mul]

theorem value_magnitude (h : isNaN x = false) : value (magnitude x) = value x := by
  rw [value, value, parts_congr (magnitudeBits_magnitude h)]

/-- Floats other than zero with one value are equal. -/
theorem exactValue_injective (hx : IsFinite x) (hy : IsFinite y) (hzero : exactValue x ≠ 0)
    (h : exactValue x = exactValue y) : x = y := by
  obtain ⟨hxnumber, -⟩ := isFinite_iff.mp hx
  obtain ⟨hynumber, -⟩ := isFinite_iff.mp hy
  have hzero' : exactValue y ≠ 0 := h ▸ hzero
  have hsign : isNegative x = isNegative y := by
    rw [Bool.eq_iff_iff, isNegative_iff hzero, isNegative_iff hzero', h]
  have hvalue : value x = value y := by rw [← abs_exactValue, h, abs_exactValue]
  obtain ⟨hden, hratio⟩ := ratio_value x
  have hmagnitude : magnitude x = magnitude y := by
    rw [← (hx.positive_magnitude hzero).nearest_eq hden (hratio.trans (value_magnitude hxnumber).symm),
      (hy.positive_magnitude hzero').nearest_eq hden
        (hratio.trans (hvalue.trans (value_magnitude hynumber).symm))]
  refine eq_of_magnitude hsign ?_
  rw [← magnitudeBits_magnitude hxnumber, hmagnitude, magnitudeBits_magnitude hynumber]

/-- A number that is rounded to the magnitude of a float is rounded to the float under its sign. -/
theorem RoundsTo.of_magnitude (h : isNaN x = false) (hv : RoundsTo v (magnitude x)) :
    RoundsTo (if isNegative x then -v else v) x := by
  have hparts : parts (magnitude x) = parts x := parts_congr (magnitudeBits_magnitude h)
  have hfinite : IsFinite x := by
    have hmagnitude := hv.finite
    rwa [IsFinite, magnitudeBits_magnitude h] at hmagnitude
  have hmantissa : mantissa (magnitude x) = (parts x).1 := by
    simp [mantissa, isNegative_magnitude h, hparts]
  cases hsign : isNegative x with
  | false =>
    have hx : magnitude x = x := ofBits_magnitudeBits hsign
    rw [hx] at hv
    exact hv
  | true =>
    have hxmantissa : mantissa x = -mantissa (magnitude x) := by
      rw [hmantissa, mantissa, if_pos hsign]
    have hxvalue : exactValue x = -exactValue (magnitude x) := by
      rw [exactValue, exactValue, hxmantissa, hparts, Int.cast_neg, neg_mul]
    have hflip : ∀ z : ℚ, |-v - z| = |v - -z| := by
      intro z
      rw [← abs_neg]
      congr 1
      ring
    rw [if_pos rfl]
    refine ⟨hfinite, fun m q hm hq => ?_, fun m q hm hq htie => ?_⟩
    · have hnear := hv.nearest (-m) q (by rwa [abs_neg]) hq
      rw [Int.cast_neg, neg_mul] at hnear
      rw [hflip, hflip, hxvalue, neg_neg]
      exact hnear
    · have heven := hv.even (-m) q (by rwa [abs_neg]) hq
      rw [Int.cast_neg, neg_mul] at heven
      rw [hflip, hflip, hxvalue, neg_neg] at htie
      rw [hxvalue, hxmantissa, even_neg, ← neg_eq_iff_eq_neg]
      exact heven htie

end Binary64

/-! ### Decimals -/

namespace Decimal

open Binary64

variable {x : Float}

/-- A decimal that reads as a positive float is rounded to it. -/
theorem roundsTo_toFloat {d : Decimal} (hx : Positive x) (h : d.toFloat = x) :
    RoundsTo d.value x := by
  have hten : 0 < 10 := by decide
  have hden := scale_den_pos hten d.coeff Nat.one_pos d.exp
  have hvalue := scale_value hten d.coeff 1 d.exp
  rw [Nat.cast_one, div_one, Nat.cast_ofNat] at hvalue
  have hnearest : nearest (scale 10 d.coeff 1 d.exp).1 (scale 10 d.coeff 1 d.exp).2 = x := by
    rw [toFloat] at h
    split at h
    · refine absurd ?_ hx.notZero
      rw [← h]
      decide
    · split at h
      · refine absurd hx.finite ?_
        rw [← h]
        decide
      · exact h
  have hrounds := roundsTo_nearest hden (by rw [hnearest]; exact hx.finite)
  rw [hvalue, hnearest] at hrounds
  exact hrounds

/-- The closest decimal of two digits is on a grid of at least a hundredth of the power of ten. -/
theorem closestTwo_nearestStep (x : Float) (k : Int) :
    ∃ j : Nat, j ≤ 2 ∧ (closestTwo x k).exp = k - j ∧
      NearestStep (10 ^ (k - j)) (Binary64.value x) (closestTwo x k).coeff := by
  obtain ⟨hden, hratio⟩ := ratio_value x
  have hstep : ∀ grid : Int, NearestStep (10 ^ grid) (Binary64.value x)
      (roundDiv (scale 10 (ratio x).1 (ratio x).2 (-grid)).1
        (scale 10 (ratio x).1 (ratio x).2 (-grid)).2) := by
    intro grid
    have hten : 0 < 10 := by decide
    refine roundDiv_nearestStep (scale_den_pos hten _ hden _) (by positivity) ?_
    rw [scale_value hten, hratio, Nat.cast_ofNat, zpow_neg, div_eq_mul_inv]
  unfold closestTwo
  dsimp only
  split
  · exact ⟨1, by decide, rfl, hstep (k - 1)⟩
  · exact ⟨2, le_rfl, rfl, hstep (k - 2)⟩

/-- **A decimal of one digit may be replaced by the closest one of two digits.** Where the mantissa is
full, the two are the same number, since the grid of decimals is wider than the unit. With the least
unit, whatever is nearer than half a unit on either side is rounded to the float. -/
theorem roundsTo_closestTwo (hx : Positive x) {n : Nat} (hn : n ≤ 9) {k : Int}
    (h : RoundsTo (⟨n, k⟩ : Decimal).value x) : RoundsTo (closestTwo x k).value x := by
  obtain ⟨j, hj, hexp, hstep⟩ := closestTwo_nearestStep x k
  obtain ⟨-, -, -, -, hnormal, -⟩ := hx.parts
  have hexact : exactValue x = Binary64.value x := exactValue_eq_value hx.notNegative
  have hgrid : (0 : ℚ) < 10 ^ (k - j) := by positivity
  have hunit : (0 : ℚ) < 2 ^ (parts x).2 := by positivity
  have hone : (⟨n, k⟩ : Decimal).value = ((n * 10 ^ j : Nat) : ℤ) * 10 ^ (k - j) := by
    have hshift := value_shift n j (k - j)
    rw [sub_add_cancel] at hshift
    rw [← hshift, value, Int.cast_natCast]
  have htwo : (closestTwo x k).value = ((closestTwo x k).coeff : ℤ) * 10 ^ (k - j) := by
    rw [value, hexp, Int.cast_natCast]
  have hnear : |(⟨n, k⟩ : Decimal).value - exactValue x| ≤ 2 ^ (parts x).2 / 2 := h.nearestStep.close
  have hnearer : |(closestTwo x k).value - exactValue x| ≤ |(⟨n, k⟩ : Decimal).value - exactValue x| := by
    have hle := (hstep.nearest hgrid (n * 10 ^ j : Nat)).1
    rw [← htwo, ← hone, ← hexact, abs_sub_comm, abs_sub_comm (exactValue x)] at hle
    exact hle
  rcases hnormal with hlarge | hleast
  · have hsame : (closestTwo x k).value = (⟨n, k⟩ : Decimal).value := by
      by_contra hne
      have hapart : (10 : ℚ) ^ (k - j) ≤ |(closestTwo x k).value - (⟨n, k⟩ : Decimal).value| := by
        rw [htwo, hone] at hne ⊢
        exact step_le_abs_sub hgrid fun heq => hne (by rw [heq])
      have htriangle : |(closestTwo x k).value - (⟨n, k⟩ : Decimal).value| ≤
          |(closestTwo x k).value - exactValue x| + |(⟨n, k⟩ : Decimal).value - exactValue x| := by
        rw [abs_sub_comm (⟨n, k⟩ : Decimal).value]
        exact abs_sub_le _ _ _
      have hcoeff : n * 10 ^ j ≤ 900 := Nat.mul_le_mul hn (Nat.pow_le_pow_right (by decide) hj)
      have hhigh : (⟨n, k⟩ : Decimal).value ≤ 900 * 10 ^ (k - j) := by
        have hcast : (((n * 10 ^ j : Nat) : ℤ) : ℚ) ≤ 900 := by exact_mod_cast hcoeff
        rw [hone]
        exact mul_le_mul_of_nonneg_right hcast hgrid.le
      have hlow : 2 ^ 52 * 2 ^ (parts x).2 ≤ exactValue x := by
        have hcast : (2 : ℚ) ^ 52 ≤ (parts x).1 := by exact_mod_cast hlarge
        rw [hexact, Binary64.value]
        exact mul_le_mul_of_nonneg_right hcast hunit.le
      have hbelow := (abs_le.mp hnear).1
      linarith
    rw [hsame]
    exact h
  · refine roundsTo_of_nearestStep hx.finite rfl id ⟨hnearer.trans hnear, fun hhalf => ?_⟩
      (.inr hleast)
    exact h.nearestStep.even (le_antisymm hnear (hhalf ▸ hnearer))

end Decimal

end SmallImp

import SmallImp.Decimal.Shortest
import SmallImp.Proofs.FiniteFloats

/-!
# Decimals that read back

The float nearest to a ratio depends on the value of the ratio alone, and the float nearest to a ratio
that is a float is that float. So a decimal may be written with more or fewer zeros, and the decimal
found for a float is read as the float.

* `nearestBits_congr` — equal ratios have the same nearest float;
* `nearestBits_exact` — the float nearest to `m · 2 ^ q`;
* `Decimal.toFloat_congr` — decimals of one value read as the same float;
* `Decimal.toFloat_shortest` — the shortest decimal of a float reads back.
-/

namespace SmallImp

/-! ### Ratios -/

theorem roundDiv_mul (k num den : Nat) (hk : 0 < k) :
    roundDiv (k * num) (k * den) = roundDiv num den := by
  have hscale : ∀ {a b : Nat}, k * a < k * b ↔ a < b := Nat.mul_lt_mul_left hk
  have hless : 2 * (k * (num % den)) < k * den ↔ 2 * (num % den) < den := by
    rw [Nat.mul_left_comm]
    exact hscale
  have hmore : k * den < 2 * (k * (num % den)) ↔ den < 2 * (num % den) := by
    rw [Nat.mul_left_comm 2]
    exact hscale
  simp only [roundDiv, Nat.mul_div_mul_left num den hk, Nat.mul_mod_mul_left, hless, hmore]

/-- Equal ratios are rounded alike. -/
theorem roundDiv_congr {num den num' den' : Nat} (hden : 0 < den) (hden' : 0 < den')
    (h : num * den' = num' * den) : roundDiv num den = roundDiv num' den' := by
  calc roundDiv num den = roundDiv (den' * num) (den' * den) := (roundDiv_mul den' num den hden').symm
    _ = roundDiv (den * num') (den * den') := by
      rw [Nat.mul_comm den' num, h, Nat.mul_comm num' den, Nat.mul_comm den' den]
    _ = roundDiv num' den' := roundDiv_mul den num' den' hden

/-- A whole quotient is not rounded. -/
theorem roundDiv_exact {num den m : Nat} (hden : 0 < den) (h : num = m * den) :
    roundDiv num den = m := by
  subst h
  rw [roundDiv, Nat.mul_div_cancel m hden, Nat.mul_mod_left]
  simp [hden]

namespace Binary64

theorem scale_den_pos {base : Nat} (hbase : 0 < base) (num : Nat) {den : Nat} (hden : 0 < den)
    (e : Int) :
    0 < (scale base num den e).2 := by
  unfold scale
  split
  · exact hden
  · exact Nat.mul_pos hden (Nat.pow_pos hbase)

/-- The value of a scaled ratio. -/
theorem scale_value {base : Nat} (hbase : 0 < base) (num den : Nat) (e : Int) :
    ((scale base num den e).1 : ℚ) / (scale base num den e).2 = (num : ℚ) / den * (base : ℚ) ^ e := by
  have hne : (base : ℚ) ≠ 0 := by exact_mod_cast hbase.ne'
  unfold scale
  split
  next he =>
    obtain ⟨k, rfl⟩ := Int.eq_ofNat_of_zero_le he
    show ((num * base ^ k : Nat) : ℚ) / den = _
    rw [zpow_natCast]
    push_cast
    ring
  next he =>
    obtain ⟨k, rfl⟩ : ∃ k : Nat, e = -k := ⟨(-e).toNat, by omega⟩
    show (num : ℚ) / ((den * base ^ (- -(k : Int)).toNat : Nat) : ℚ) = _
    rw [Int.neg_neg, Int.toNat_natCast, zpow_neg, zpow_natCast]
    push_cast
    rw [div_mul_eq_div_div, div_eq_mul_inv ((num : ℚ) / den)]

/-- A positive number has the logarithm whose powers bracket it. -/
theorem log_eq {v : ℚ} (hv : 0 < v) {t : Int} (hle : 2 ^ t ≤ v) (hlt : v < 2 ^ (t + 1)) :
    Int.log 2 v = t := by
  have hge := (Int.zpow_le_iff_le_log (b := 2) (by decide) hv).mp (by exact_mod_cast hle)
  have hle := (Int.lt_zpow_iff_log_lt (b := 2) (by decide) hv).mp (by exact_mod_cast hlt)
  omega

/-- A ratio is bracketed by the logarithms of its parts. -/
theorem ratio_bracket {num den : Nat} (hnum : num ≠ 0) (hden : den ≠ 0) :
    (2 : ℚ) ^ ((num.log2 : Int) - den.log2 - 1) < (num : ℚ) / den ∧
      (num : ℚ) / den < 2 ^ ((num.log2 : Int) - den.log2 + 1) := by
  have hpos : (0 : ℚ) < den := by exact_mod_cast Nat.pos_of_ne_zero hden
  have hnumLow : (2 : ℚ) ^ num.log2 ≤ num := by exact_mod_cast Nat.log2_self_le hnum
  have hnumHigh : (num : ℚ) < 2 ^ (num.log2 + 1) := by exact_mod_cast Nat.lt_log2_self
  have hdenLow : (2 : ℚ) ^ den.log2 ≤ den := by exact_mod_cast Nat.log2_self_le hden
  have hdenHigh : (den : ℚ) < 2 ^ (den.log2 + 1) := by exact_mod_cast Nat.lt_log2_self
  have hpow : ∀ {a b : Nat} {t : Int}, t = a - b → (2 : ℚ) ^ t = 2 ^ a / 2 ^ b := by
    rintro a b t rfl
    rw [zpow_sub₀ two_ne_zero, zpow_natCast, zpow_natCast]
  rw [hpow (a := num.log2) (b := den.log2 + 1) (by push_cast; ring),
    hpow (a := num.log2 + 1) (b := den.log2) (by push_cast; ring)]
  constructor
  · rw [div_lt_div_iff₀ (by positivity) hpos]
    calc (2 : ℚ) ^ num.log2 * den ≤ num * den := by gcongr
      _ < num * 2 ^ (den.log2 + 1) := by gcongr
  · rw [div_lt_div_iff₀ hpos (by positivity)]
    calc (num : ℚ) * 2 ^ den.log2 ≤ num * den := by gcongr
      _ < 2 ^ (num.log2 + 1) * den := by gcongr

/-- The unit of a number is a matter of its binary logarithm. -/
theorem unitExponent_eq {num den : Nat} (hnum : num ≠ 0) (hden : den ≠ 0) :
    unitExponent num den = max (Int.log 2 ((num : ℚ) / den) - 52) minExponent := by
  obtain ⟨hlow, hhigh⟩ := ratio_bracket hnum hden
  have hpos : (0 : ℚ) < (num : ℚ) / den := lt_trans (by positivity) hlow
  generalize hsize : (num.log2 : Int) - den.log2 = size at hlow hhigh
  have hvalue := scale_value Nat.two_pos num den (-size)
  have hscaled : (0 : ℚ) < (scale 2 num den (-size)).2 := by
    exact_mod_cast scale_den_pos Nat.two_pos num (Nat.pos_of_ne_zero hden) (-size)
  -- the scaled ratio is below one exactly when the number is below its power of two
  have hless : (scale 2 num den (-size)).1 < (scale 2 num den (-size)).2 ↔
      (num : ℚ) / den < 2 ^ size := by
    rw [← Nat.cast_lt (α := ℚ), ← div_lt_one hscaled, hvalue, zpow_neg, ← div_eq_mul_inv]
    exact div_lt_one (by positivity)
  unfold unitExponent
  simp only [hsize, hless]
  split
  next h =>
    rw [log_eq hpos hlow.le (by simpa using h)]
    ring_nf
  next h => rw [log_eq hpos (not_lt.mp h) hhigh]

/-- Equal ratios have the same nearest float. -/
theorem nearestBits_congr {num den num' den' : Nat} (hden : 0 < den) (hden' : 0 < den')
    (h : num * den' = num' * den) : nearestBits num den = nearestBits num' den' := by
  have hzero : num = 0 ↔ num' = 0 := by
    constructor
    · rintro rfl
      rw [Nat.zero_mul, eq_comm, Nat.mul_eq_zero] at h
      omega
    · rintro rfl
      rw [Nat.zero_mul, Nat.mul_eq_zero] at h
      omega
  by_cases hnum : num = 0
  · rw [nearestBits, nearestBits, if_pos hnum, if_pos (hzero.mp hnum)]
  have hratio : (num : ℚ) / den = num' / den' := by
    rw [div_eq_div_iff (by exact_mod_cast hden.ne') (by exact_mod_cast hden'.ne')]
    exact_mod_cast h
  have hunit : unitExponent num den = unitExponent num' den' := by
    rw [unitExponent_eq hnum hden.ne', unitExponent_eq (mt hzero.mpr hnum) hden'.ne', hratio]
  have hround : ∀ e, roundDiv (scale 2 num den e).1 (scale 2 num den e).2 =
      roundDiv (scale 2 num' den' e).1 (scale 2 num' den' e).2 := by
    intro e
    have hpos := scale_den_pos Nat.two_pos num hden e
    have hpos' := scale_den_pos Nat.two_pos num' hden' e
    refine roundDiv_congr hpos hpos' ?_
    have hvalue := scale_value Nat.two_pos num den e
    rw [hratio, ← scale_value Nat.two_pos num' den' e,
      div_eq_div_iff (by exact_mod_cast hpos.ne') (by exact_mod_cast hpos'.ne')] at hvalue
    exact_mod_cast hvalue
  rw [nearestBits, nearestBits, if_neg hnum, if_neg (mt hzero.mpr hnum), hunit]
  simp only [hround]

/-- The float nearest to `m · 2 ^ q`, if that is a float. -/
theorem nearestBits_exact {num den m : Nat} {q : Int} (hden : 0 < den) (hm : 0 < m) (hfull : m < 2 ^ 53)
    (hmin : minExponent ≤ q) (hnormal : 2 ^ 52 ≤ m ∨ q = minExponent)
    (h : (num : ℚ) / den = m * 2 ^ q) :
    nearestBits num den = min ((q - minExponent).toNat * leadingBit + m) infinityBits := by
  have hmpos : (0 : ℚ) < m := by exact_mod_cast hm
  have hpos : (0 : ℚ) < (num : ℚ) / den := by
    rw [h]
    positivity
  have hnum : num ≠ 0 := by
    rintro rfl
    simp at hpos
  have hunit : unitExponent num den = q := by
    have hlog : Int.log 2 ((num : ℚ) / den) < q + 53 := by
      refine (Int.lt_zpow_iff_log_lt (b := 2) (by decide) hpos).mp ?_
      rw [h, Nat.cast_ofNat, add_comm q, zpow_add₀ two_ne_zero]
      have hlt : (m : ℚ) < 2 ^ (53 : Int) := by exact_mod_cast hfull
      gcongr
    rw [unitExponent_eq hnum hden.ne']
    rcases hnormal with hfloor | rfl
    · have hlog' : q + 52 ≤ Int.log 2 ((num : ℚ) / den) := by
        refine (Int.zpow_le_iff_le_log (b := 2) (by decide) hpos).mp ?_
        rw [h, Nat.cast_ofNat, add_comm q, zpow_add₀ two_ne_zero]
        have hle : (2 : ℚ) ^ (52 : Int) ≤ m := by exact_mod_cast hfloor
        gcongr
      omega
    · omega
  have hscaled := scale_den_pos Nat.two_pos num hden (-q)
  have hround : roundDiv (scale 2 num den (-q)).1 (scale 2 num den (-q)).2 = m := by
    refine roundDiv_exact hscaled ?_
    have hvalue := scale_value Nat.two_pos num den (-q)
    rw [h, Nat.cast_ofNat, mul_assoc, ← zpow_add₀ two_ne_zero, add_neg_cancel, zpow_zero, mul_one,
      div_eq_iff (by exact_mod_cast hscaled.ne')] at hvalue
    exact_mod_cast hvalue
  rw [nearestBits, if_neg hnum]
  simp only [hunit, hround]

/-! ### Finite floats -/

/-- A float that is neither zero nor negative, and finite. -/
structure Positive (x : Float) : Prop where
  notNegative : isNegative x = false
  notZero : magnitudeBits x ≠ 0
  finite : magnitudeBits x < infinityBits

theorem ofBits_magnitudeBits {x : Float} (h : isNegative x = false) :
    Float.ofBits (UInt64.ofNat (magnitudeBits x)) = x := by
  have hbits : magnitudeBits x = x.toBits.toNat := by
    rw [isNegative, decide_eq_false_iff_not] at h
    exact Nat.mod_eq_of_lt (by omega)
  rw [hbits, UInt64.ofNat_toNat, Float.ofBits_toBits]

/-- The value of a finite float that is not negative. -/
def value (x : Float) : ℚ := (parts x).1 * 2 ^ (parts x).2

/-- The mantissa and the exponent of a finite float are those of its bits. -/
theorem Positive.parts {x : Float} (h : Positive x) :
    0 < (parts x).1 ∧ (parts x).1 < 2 ^ 53 ∧ minExponent ≤ (parts x).2 ∧ (parts x).2 ≤ 971 ∧
      (2 ^ 52 ≤ (parts x).1 ∨ (parts x).2 = minExponent) ∧
      ((parts x).2 - minExponent).toNat * leadingBit + (parts x).1 = magnitudeBits x := by
  have hzero := h.notZero
  have hfinite := h.finite
  unfold infinityBits leadingBit at hfinite
  unfold Binary64.parts minExponent leadingBit
  dsimp only
  split <;> dsimp only <;> omega

theorem Positive.value_pos {x : Float} (h : Positive x) : 0 < value x := by
  have hm : (0 : ℚ) < (Binary64.parts x).1 := by exact_mod_cast h.parts.1
  unfold value
  positivity

/-- The float nearest to the value of a float. -/
theorem Positive.nearest_eq {x : Float} (h : Positive x) {num den : Nat} (hden : 0 < den)
    (hvalue : (num : ℚ) / den = value x) : nearest num den = x := by
  obtain ⟨hm, hfull, hmin, -, hnormal, hbits⟩ := h.parts
  have hexact := nearestBits_exact hden hm hfull hmin hnormal hvalue
  rw [hbits, min_eq_left h.finite.le] at hexact
  rw [nearest, hexact, ofBits_magnitudeBits h.notNegative]

end Binary64

/-! ### Decimals -/

namespace Decimal

open Binary64

/-- The value of a decimal. -/
def value (d : Decimal) : ℚ := d.coeff * 10 ^ d.exp

theorem digitCount_pos (n : Nat) : 0 < digitCount n :=
  List.length_pos_of_ne_nil Nat.toDigits_ne_nil

theorem digitCount_le_iff {n k : Nat} (hk : 0 < k) : digitCount n ≤ k ↔ n < 10 ^ k :=
  Nat.length_toDigits_le_iff (by decide) hk

/-- A number has at least the size that its digits say. -/
theorem pow_digitCount_le {n : Nat} (hn : n ≠ 0) : 10 ^ (digitCount n - 1) ≤ n := by
  by_contra hlt
  rcases Nat.eq_zero_or_pos (digitCount n - 1) with hone | hmore
  · rw [hone] at hlt
    omega
  · have hle := (digitCount_le_iff hmore).mpr (not_le.mp hlt)
    have hpos := digitCount_pos n
    omega

theorem lt_pow_digitCount (n : Nat) : n < 10 ^ digitCount n :=
  (digitCount_le_iff (digitCount_pos n)).mp le_rfl

/-- Decimals of one value have the same nearest float. -/
theorem nearest_congr {d d' : Decimal} (h : d.value = d'.value) :
    nearest (scale 10 d.coeff 1 d.exp).1 (scale 10 d.coeff 1 d.exp).2 =
      nearest (scale 10 d'.coeff 1 d'.exp).1 (scale 10 d'.coeff 1 d'.exp).2 := by
  have hbase : 0 < 10 := by decide
  have hpos := scale_den_pos hbase d.coeff Nat.one_pos d.exp
  have hpos' := scale_den_pos hbase d'.coeff Nat.one_pos d'.exp
  have hratio : ((scale 10 d.coeff 1 d.exp).1 : ℚ) / (scale 10 d.coeff 1 d.exp).2 =
      (scale 10 d'.coeff 1 d'.exp).1 / (scale 10 d'.coeff 1 d'.exp).2 := by
    rw [scale_value (by decide), scale_value (by decide), Nat.cast_one, div_one, div_one,
      Nat.cast_ofNat]
    exact h
  rw [div_eq_div_iff (by exact_mod_cast hpos.ne') (by exact_mod_cast hpos'.ne')] at hratio
  rw [nearest, nearest, nearestBits_congr hpos hpos' (by exact_mod_cast hratio)]

/-- Zeros at the end of the coefficient do not count. -/
theorem value_shift (c j : Nat) (e : Int) :
    (⟨c * 10 ^ j, e⟩ : Decimal).value = (⟨c, e + j⟩ : Decimal).value := by
  simp only [value]
  rw [zpow_add₀ (by norm_num), zpow_natCast]
  push_cast
  ring

theorem value_eq_zero {d : Decimal} : d.value = 0 ↔ d.coeff = 0 := by
  have hten : (10 : ℚ) ^ d.exp ≠ 0 := by positivity
  simp [value, hten]

/-- The digits of a decimal bound its value. -/
theorem value_bounds {d : Decimal} (hc : d.coeff ≠ 0) :
    (10 : ℚ) ^ ((digitCount d.coeff : Int) + d.exp - 1) ≤ d.value ∧
      d.value < 10 ^ ((digitCount d.coeff : Int) + d.exp) := by
  have hpos := digitCount_pos d.coeff
  have hlow : ((10 : ℚ) ^ (digitCount d.coeff - 1 : Nat)) ≤ d.coeff := by
    exact_mod_cast pow_digitCount_le hc
  have hhigh : (d.coeff : ℚ) < 10 ^ digitCount d.coeff := by
    exact_mod_cast lt_pow_digitCount d.coeff
  have hsplit : (digitCount d.coeff : Int) + d.exp - 1 =
      ((digitCount d.coeff - 1 : Nat) : Int) + d.exp := by omega
  constructor
  · rw [hsplit, zpow_add₀ (by norm_num), zpow_natCast, value]
    gcongr
  · rw [zpow_add₀ (by norm_num), zpow_natCast, value]
    gcongr

/-- Decimals of one value read as the same float. -/
theorem toFloat_congr {d d' : Decimal} (h : d.value = d'.value) : d.toFloat = d'.toFloat := by
  have hzero : d.coeff = 0 ↔ d'.coeff = 0 := by rw [← value_eq_zero, h, value_eq_zero]
  by_cases hc : d.coeff = 0
  · simp [toFloat, hc, hzero.mp hc]
  obtain ⟨hlow, hhigh⟩ := value_bounds hc
  obtain ⟨hlow', hhigh'⟩ := value_bounds (mt hzero.mpr hc)
  rw [h] at hlow hhigh
  have htop : (digitCount d.coeff : Int) + d.exp = digitCount d'.coeff + d'.exp := by
    have hle := (zpow_lt_zpow_iff_right₀ (by norm_num)).mp (hlow.trans_lt hhigh')
    have hge := (zpow_lt_zpow_iff_right₀ (by norm_num)).mp (hlow'.trans_lt hhigh)
    omega
  simp only [toFloat, htop, hzero]
  rw [nearest_congr h]

/-- Every float is below `10 ^ 310`. -/
theorem lt_ten_zpow : (2 : ℚ) ^ (1024 : Int) < 10 ^ (310 : Int) := by
  have hroot : (2 : ℚ) ^ 205 < 10 ^ 62 := by norm_num
  calc (2 : ℚ) ^ (1024 : Int) ≤ 2 ^ (1025 : Int) := zpow_le_zpow_right₀ (by norm_num) (by norm_num)
    _ = (2 ^ 205) ^ 5 := by
      rw [← pow_mul]
      rfl
    _ < (10 ^ 62) ^ 5 := by gcongr
    _ = 10 ^ (310 : Int) := by
      rw [← pow_mul]
      rfl

/-- Every positive float is far above `10 ^ (-330)`. -/
theorem ten_zpow_lt : (10 : ℚ) ^ (-330 : Int) < 2 ^ (-1080 : Int) := by
  have hroot : (2 : ℚ) ^ 216 < 10 ^ 66 := by norm_num
  have hpow : (2 : ℚ) ^ (1080 : Int) < 10 ^ (330 : Int) := by
    calc (2 : ℚ) ^ (1080 : Int) = (2 ^ 216) ^ 5 := by
          rw [← pow_mul]
          rfl
      _ < (10 ^ 66) ^ 5 := by gcongr
      _ = 10 ^ (330 : Int) := by
        rw [← pow_mul]
        rfl
  rw [zpow_neg, zpow_neg]
  exact inv_strictAnti₀ (by positivity) hpow

/-- A decimal that is the value of a float reads as the float. -/
theorem toFloat_of_value {d : Decimal} {x : Float} (hx : Positive x)
    (h : d.value = Binary64.value x) : d.toFloat = x := by
  obtain ⟨hm, hfull, hmin, hmax, -⟩ := hx.parts
  have hvalue := hx.value_pos
  have hc : d.coeff ≠ 0 := by
    intro hzero
    rw [← h, value, hzero] at hvalue
    simp at hvalue
  obtain ⟨hlow, hhigh⟩ := value_bounds hc
  have hsmall : (2 : ℚ) ^ (-1074 : Int) ≤ d.value := by
    rw [h, Binary64.value]
    have hone : (1 : ℚ) ≤ (parts x).1 := by exact_mod_cast hm
    calc (2 : ℚ) ^ (-1074 : Int) ≤ 2 ^ (parts x).2 := zpow_le_zpow_right₀ (by norm_num) hmin
      _ = 1 * 2 ^ (parts x).2 := (one_mul _).symm
      _ ≤ (parts x).1 * 2 ^ (parts x).2 := by gcongr
  have hlarge : d.value < 2 ^ (1024 : Int) := by
    rw [h, Binary64.value]
    have hlt : ((parts x).1 : ℚ) < 2 ^ (53 : Int) := by exact_mod_cast hfull
    calc ((parts x).1 : ℚ) * 2 ^ (parts x).2 < 2 ^ (53 : Int) * 2 ^ (parts x).2 := by gcongr
      _ ≤ 2 ^ (53 : Int) * 2 ^ (971 : Int) := by
        gcongr
        norm_num
      _ = 2 ^ (1024 : Int) := (zpow_add₀ two_ne_zero 53 971).symm
  have hnotLow : ¬(digitCount d.coeff : Int) + d.exp < -330 := by
    intro hlt
    have hpow : (10 : ℚ) ^ ((digitCount d.coeff : Int) + d.exp) ≤ 10 ^ (-330 : Int) :=
      zpow_le_zpow_right₀ (by norm_num) hlt.le
    have hleast : (2 : ℚ) ^ (-1080 : Int) ≤ 2 ^ (-1074 : Int) :=
      zpow_le_zpow_right₀ (by norm_num) (by norm_num)
    exact lt_irrefl _ ((hhigh.trans_le hpow).trans_le ((ten_zpow_lt.le.trans hleast).trans hsmall))
  have hnotHigh : ¬310 < (digitCount d.coeff : Int) + d.exp := by
    intro hlt
    have hpow : (10 : ℚ) ^ (310 : Int) ≤ 10 ^ ((digitCount d.coeff : Int) + d.exp - 1) :=
      zpow_le_zpow_right₀ (by norm_num) (by omega)
    exact lt_irrefl _ (((hpow.trans hlow).trans_lt hlarge).trans lt_ten_zpow)
  have hratio : ((scale 10 d.coeff 1 d.exp).1 : ℚ) / (scale 10 d.coeff 1 d.exp).2 =
      Binary64.value x := by
    rw [scale_value (by decide), Nat.cast_one, div_one, Nat.cast_ofNat]
    exact h
  rw [toFloat]
  simp only [hc, false_or, if_neg hnotLow, if_neg hnotHigh]
  exact hx.nearest_eq (scale_den_pos (by decide) d.coeff Nat.one_pos d.exp) hratio

theorem value_exactly (x : Float) : (exactly x).value = Binary64.value x := by
  unfold exactly Binary64.value
  generalize parts x = p
  obtain ⟨m, q⟩ := p
  dsimp only
  split
  next hq =>
    obtain ⟨k, rfl⟩ := Int.eq_ofNat_of_zero_le hq
    show ((m * 2 ^ k : Nat) : ℚ) * 10 ^ (0 : Int) = m * 2 ^ (k : Int)
    rw [zpow_zero, mul_one, zpow_natCast]
    push_cast
    rfl
  next hq =>
    obtain ⟨k, rfl⟩ : ∃ k : Nat, q = -k := ⟨(-q).toNat, by omega⟩
    show ((m * 5 ^ (- -(k : Int)).toNat : Nat) : ℚ) * 10 ^ (-(k : Int)) = m * 2 ^ (-(k : Int))
    rw [Int.neg_neg, Int.toNat_natCast, zpow_neg, zpow_neg, zpow_natCast, zpow_natCast]
    push_cast
    rw [show (10 : ℚ) = 2 * 5 by norm_num, mul_pow, mul_inv]
    field_simp

/-- What is found on a grid reads back. -/
theorem toFloat_onGrid? {x : Float} {k : Int} {d : Decimal} (h : onGrid? x k = some d) :
    d.toFloat = x := by
  obtain ⟨near, far, hgrid⟩ : ∃ near far : Nat, onGrid? x k =
      if toFloat ⟨near, k⟩ = x then some ⟨near, k⟩
      else if toFloat ⟨far, k⟩ = x then some ⟨far, k⟩ else none := ⟨_, _, rfl⟩
  rw [hgrid] at h
  split at h
  next hnear =>
    cases h
    exact hnear
  next =>
    split at h
    next hfar =>
      cases h
      exact hfar
    next => cases h

theorem toFloat_search {x : Float} (hx : Positive x) (steps : Nat) (k : Int) :
    (search x steps k).toFloat = x := by
  induction steps generalizing k with
  | zero => exact toFloat_of_value hx (value_exactly x)
  | succ steps ih =>
    rw [search]
    split
    next d hd => exact toFloat_onGrid? hd
    next => exact ih (k - 1)

/-- **The shortest decimal of a float reads back.** -/
theorem toFloat_shortest {x : Float} (hx : Positive x) : (shortest x).toFloat = x :=
  toFloat_search hx 24 (topExponent x)

end Decimal

end SmallImp

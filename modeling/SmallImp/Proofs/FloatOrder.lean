import SmallImp.Proofs.NumberText

/-!
# The order of positive floats

Positive floats are compared as their values are.

* `Positive.unpack_eq` — the mantissa and the exponent that comparisons are made with;
* `Positive.compare_eq` — comparison by value;
* `Positive.le_iff`, `Positive.lt_iff` — the two orders.
-/

namespace SmallImp.Binary64

open Float.Model Float.Model.UnpackedFloat

theorem finite_congr {s s' : Sign} {m m' : Nat} {e e' : Int} {h : 0 < m} {h' : 0 < m'} (hs : s = s')
    (hm : m = m') (he : e = e') : UnpackedFloat.finite s m e h = .finite s' m' e' h' := by
  subst hs hm he
  rfl

/-- A positive float is unpacked into its mantissa and its exponent. -/
theorem Positive.unpack_eq {x : Float} (h : Positive x) :
    UnpackedFloat.unpack Format.binary64 x.toBits.toBitVec =
      .finite .positive (Binary64.parts x).1 (Binary64.parts x).2 h.parts.1 := by
  have hbits : x.toBits.toNat = magnitudeBits x := by
    have hsign := h.notNegative
    rw [isNegative, decide_eq_false_iff_not] at hsign
    exact (Nat.mod_eq_of_lt (not_le.mp hsign)).symm
  have hzero := h.notZero
  have hfinite := h.finite
  unfold infinityBits leadingBit at hfinite
  have hexponent : (@unpackExponent Format.binary64 x.toBits.toBitVec).toNat =
      magnitudeBits x / leadingBit := by
    rw [exponent_toNat]
    show x.toBits.toNat / 2 ^ 52 % 2048 = _
    rw [hbits, leadingBit]
    omega
  have hmantissa : (@unpackMantissa Format.binary64 x.toBits.toBitVec).toNat =
      magnitudeBits x % leadingBit := by
    rw [mantissa_toNat]
    show x.toBits.toNat % 2 ^ 52 = _
    rw [hbits, leadingBit]
    rfl
  have hplus : @unpackSign Format.binary64 x.toBits.toBitVec = 0#1 := by
    refine BitVec.eq_of_toNat_eq ?_
    rw [sign_toNat]
    show x.toBits.toNat / 2 ^ 63 % 2 = 0
    omega
  have hnotTop : @unpackExponent Format.binary64 x.toBits.toBitVec ≠ -1#_ := by
    intro htop
    have hnat : magnitudeBits x / leadingBit = 2047 := hexponent.symm.trans (congrArg BitVec.toNat htop)
    unfold leadingBit at hnat
    omega
  simp only [UnpackedFloat.unpack, if_neg hnotTop, hplus]
  split
  next hleast =>
    have hfield : magnitudeBits x / leadingBit = 0 := hexponent.symm.trans (congrArg BitVec.toNat hleast)
    have hparts : Binary64.parts x = (magnitudeBits x % leadingBit, minExponent) := by
      simp only [Binary64.parts, hfield, if_true]
    split
    next hnone =>
      have hfraction : magnitudeBits x % leadingBit = 0 :=
        hmantissa.symm.trans (congrArg BitVec.toNat hnone)
      unfold leadingBit at hfield hfraction
      omega
    next =>
      refine finite_congr rfl ?_ ?_
      · rw [hparts, hmantissa]
      · rw [hparts, hleast]
        rfl
  next hmore =>
    have hfield : magnitudeBits x / leadingBit ≠ 0 := by
      intro hfield
      exact hmore (BitVec.eq_of_toNat_eq (hexponent.trans hfield))
    have hparts : Binary64.parts x = (leadingBit + magnitudeBits x % leadingBit,
        ((magnitudeBits x / leadingBit : Nat) : Int) - 1075) := by
      simp only [Binary64.parts, if_neg hfield]
    refine finite_congr rfl ?_ ?_
    · have hfraction : magnitudeBits x % leadingBit < 2 ^ 52 := Nat.mod_lt _ (by decide)
      rw [hparts, BitVec.toNat_append, hmantissa]
      exact (Nat.shiftLeft_add_eq_or_of_lt hfraction 1).symm
    · rw [hparts, hexponent]
      rfl

/-- A larger exponent makes a larger float. -/
theorem Positive.value_lt {x y : Float} (hx : Positive x) (hy : Positive y)
    (h : (Binary64.parts x).2 < (Binary64.parts y).2) : value x < value y := by
  obtain ⟨-, hless, hmin, -⟩ := hx.parts
  obtain ⟨-, -, -, -, hnormal, -⟩ := hy.parts
  have hfull : (2 : ℚ) ^ 52 ≤ (Binary64.parts y).1 := by
    exact_mod_cast hnormal.resolve_right (by omega)
  have hcast : ((Binary64.parts x).1 : ℚ) < 2 ^ 53 := by exact_mod_cast hless
  have hunit : (2 : ℚ) * 2 ^ (Binary64.parts x).2 ≤ 2 ^ (Binary64.parts y).2 := by
    rw [← zpow_one_add₀ two_ne_zero]
    exact zpow_le_zpow_right₀ one_le_two (by omega)
  calc value x < 2 ^ 53 * 2 ^ (Binary64.parts x).2 := mul_lt_mul_of_pos_right hcast (by positivity)
    _ = 2 ^ 52 * (2 * 2 ^ (Binary64.parts x).2) := by ring
    _ ≤ 2 ^ 52 * 2 ^ (Binary64.parts y).2 := mul_le_mul_of_nonneg_left hunit (by positivity)
    _ ≤ value y := mul_le_mul_of_nonneg_right hfull (by positivity)

/-- Positive floats are ordered as their values are. -/
theorem Positive.compare_eq {x y : Float} (hx : Positive x) (hy : Positive y) :
    x.toModel.compare y.toModel = some (compare (value x) (value y)) := by
  have hmodel : x.toModel.compare y.toModel =
      (UnpackedFloat.unpack Format.binary64 x.toBits.toBitVec).compare
        (UnpackedFloat.unpack Format.binary64 y.toBits.toBitVec) := rfl
  rw [hmodel, hx.unpack_eq, hy.unpack_eq]
  show some ((compare (Binary64.parts x).2 (Binary64.parts y).2).then
    (compare (Binary64.parts x).1 (Binary64.parts y).1)) = _
  congr 1
  rcases lt_trichotomy (Binary64.parts x).2 (Binary64.parts y).2 with hlt | heq | hgt
  · rw [compare_lt_iff_lt.mpr hlt, compare_lt_iff_lt.mpr (hx.value_lt hy hlt)]
    rfl
  · have hunit : (0 : ℚ) < 2 ^ (Binary64.parts y).2 := by positivity
    rw [compare_eq_iff_eq.mpr heq, value, value, heq]
    rcases lt_trichotomy (Binary64.parts x).1 (Binary64.parts y).1 with hlt | hsame | hgt
    · rw [compare_lt_iff_lt.mpr hlt, compare_lt_iff_lt.mpr]
      · rfl
      · exact mul_lt_mul_of_pos_right (by exact_mod_cast hlt) hunit
    · rw [hsame, compare_eq_iff_eq.mpr rfl, compare_eq_iff_eq.mpr rfl]
      rfl
    · rw [compare_gt_iff_gt.mpr hgt, compare_gt_iff_gt.mpr]
      · rfl
      · exact mul_lt_mul_of_pos_right (by exact_mod_cast hgt) hunit
  · rw [compare_gt_iff_gt.mpr hgt, compare_gt_iff_gt.mpr (hy.value_lt hx hgt)]
    rfl

theorem Positive.le_iff {x y : Float} (hx : Positive x) (hy : Positive y) :
    x ≤ y ↔ value x ≤ value y := by
  have hle : x ≤ y ↔ (x.toModel.compare y.toModel).any (·.isLE) = true := by
    show decide _ = true ↔ _
    rw [decide_eq_true_eq]
    rfl
  rw [hle, hx.compare_eq hy]
  show (compare (value x) (value y)).isLE = true ↔ _
  rw [Ordering.isLE_iff_ne_gt]
  exact compare_le_iff_le

theorem Positive.lt_iff {x y : Float} (hx : Positive x) (hy : Positive y) :
    x < y ↔ value x < value y := by
  have hlt : x < y ↔ (x.toModel.compare y.toModel == some .lt) = true := by
    show decide _ = true ↔ _
    rw [decide_eq_true_eq]
    rfl
  rw [hlt, hx.compare_eq hy, beq_iff_eq, Option.some.injEq]
  exact compare_lt_iff_lt

end SmallImp.Binary64

import Mathlib.Tactic.Linarith
import SmallImp.Proofs.ModularArithmetic

/-!
# Division toward zero

The quotient of two integers is what is left of their exact quotient when its fraction is dropped. It
fits in 64 bits if the operands do, with one exception: the least integer divided by `-1`, whose quotient
wraps around to the least integer again.

* `Truncates` — a quotient and a remainder, told by the size and the sign of the remainder;
* `Truncates.of_magnitudes` — dividing the magnitudes and setting the signs gives such a pair;
* `Truncates.natAbs_eq`, `Truncates.unique` — the magnitudes add up, and there is one such pair;
* `Truncates.inRange` — the quotient stays in range;
* `divideInt_truncates` — what the division of integers computes.
-/

namespace SmallImp

/-- The division of `a` by `b` toward zero gives `q` and leaves `r`: the remainder is smaller than the
divisor, and is zero or has the sign of the dividend. -/
structure Truncates (a b q r : Int) : Prop where
  exact : a = b * q + r
  smaller : r.natAbs < b.natAbs
  signed : r = 0 ∨ r.sign = a.sign

/-- What is left of a dividend: the remainder of the magnitudes with the sign of the dividend. -/
def signedRemainder (a b : Int) : Int :=
  if a < 0 then -↑(a.natAbs % b.natAbs) else ↑(a.natAbs % b.natAbs)

namespace Truncates

variable {a b q r q' r' : Int}

/-- The magnitude of what is left is what the division of the magnitudes leaves. -/
theorem natAbs_signedRemainder (a b : Int) :
    (signedRemainder a b).natAbs = a.natAbs % b.natAbs := by
  unfold signedRemainder
  split
  · rw [Int.natAbs_neg, Int.natAbs_natCast]
  · rw [Int.natAbs_natCast]

/-- The division of the magnitudes with the signs set again. The sign of the quotient makes up for that
of the divisor, so that their product and the remainder both lie on the side of the dividend. -/
theorem mul_signedQuotient_add (a b : Int) :
    b * signedQuotient a b + signedRemainder a b = a := by
  have hdivided : (b.natAbs : Int) * ↑(a.natAbs / b.natAbs) + ↑(a.natAbs % b.natAbs) = a.natAbs :=
    mod_cast Nat.div_add_mod a.natAbs b.natAbs
  unfold signedQuotient signedRemainder
  generalize ((a.natAbs / b.natAbs : Nat) : Int) = q at *
  generalize ((a.natAbs % b.natAbs : Nat) : Int) = r at *
  rcases lt_or_ge b 0 with hb | hb
  · rw [Int.ofNat_natAbs_of_nonpos hb.le, Int.neg_mul] at hdivided
    rcases lt_or_ge a 0 with ha | ha
    · simp only [ha, hb, if_true]
      omega
    · simp only [hb, ha.not_gt, if_false, iff_true, Int.mul_neg]
      omega
  · rw [Int.natAbs_of_nonneg hb] at hdivided
    rcases lt_or_ge a 0 with ha | ha
    · simp only [ha, hb.not_gt, if_true, if_false, iff_false, Int.mul_neg, not_true]
      omega
    · simp only [ha.not_gt, hb.not_gt, if_true, if_false]
      omega

theorem of_magnitudes (hb : b ≠ 0) : Truncates a b (signedQuotient a b) (signedRemainder a b) where
  exact := (mul_signedQuotient_add a b).symm
  smaller := by
    rw [natAbs_signedRemainder]
    exact Nat.mod_lt _ (Int.natAbs_pos.mpr hb)
  signed := by
    rw [or_iff_not_imp_left]
    intro hr
    have hle : a.natAbs % b.natAbs ≤ a.natAbs := Nat.mod_le _ _
    unfold signedRemainder at *
    split_ifs at hr ⊢ with ha
    · rw [Int.sign_eq_neg_one_of_neg ha, Int.sign_eq_neg_one_of_neg (by omega)]
    · rw [Int.sign_eq_one_of_pos (a := a) (by omega), Int.sign_eq_one_of_pos (by omega)]

/-- The remainder lies on the side of the dividend. -/
theorem side (h : Truncates a b q r) : (0 ≤ a → 0 ≤ r) ∧ (a ≤ 0 → r ≤ 0) := by
  rcases h.signed with rfl | hsign
  · exact ⟨fun _ => le_rfl, fun _ => le_rfl⟩
  · rcases lt_trichotomy a 0 with ha | rfl | ha
    · rw [Int.sign_eq_neg_one_of_neg ha, Int.sign_eq_neg_one_iff_neg] at hsign
      omega
    · rw [Int.sign_zero, Int.sign_eq_zero_iff_zero] at hsign
      omega
    · rw [Int.sign_eq_one_of_pos ha, Int.sign_eq_one_iff_pos] at hsign
      omega

/-- There is one quotient, and one remainder. -/
theorem unique (h : Truncates a b q r) (h' : Truncates a b q' r') : q = q' ∧ r = r' := by
  have hside := h.side
  have hside' := h'.side
  have hsmaller := h.smaller
  have hsmaller' := h'.smaller
  have hdiff : b * (q - q') = r' - r := by
    rw [Int.mul_sub]
    linarith [h.exact, h'.exact]
  -- both remainders are on one side of zero, so they are less than a divisor apart
  have hr : r' - r = 0 :=
    Int.eq_zero_of_dvd_of_natAbs_lt_natAbs ⟨q - q', hdiff.symm⟩ (by omega)
  have hb : b ≠ 0 := by omega
  have hq : q - q' = 0 := (mul_eq_zero.mp (hdiff.trans hr)).resolve_left hb
  omega

/-- The magnitudes are divided like natural numbers, whatever the signs are. -/
theorem natAbs_eq (h : Truncates a b q r) : b.natAbs * q.natAbs + r.natAbs = a.natAbs := by
  have hside := h.side
  have hsmaller := h.smaller
  have hexact := h.exact
  rw [← Int.natAbs_mul]
  by_cases hq : q = 0
  · subst hq
    simp [hexact]
  · -- the remainder is too small to bring the product to the other side of zero
    have hproduct : b.natAbs ≤ (b * q).natAbs := by
      rw [Int.natAbs_mul]
      exact Nat.le_mul_of_pos_right _ (Int.natAbs_pos.mpr hq)
    omega

/-- The quotient of an integer in range is in range, unless it is the negation of the least one. -/
theorem inRange (h : Truncates a b q r) (ha : InRange a) (hab : ¬(a = minInt ∧ b = -1)) :
    InRange q := by
  have hmagnitude := h.natAbs_eq
  have hsmaller := h.smaller
  unfold InRange minInt maxInt at *
  by_cases hone : b.natAbs ≤ 1
  · -- nothing is left, and the quotient is `a` or `-a`
    have hexact := h.exact
    obtain rfl : r = 0 := by omega
    obtain rfl | rfl : b = 1 ∨ b = -1 := by omega
    · omega
    · omega
  · have hhalf : 2 * q.natAbs ≤ b.natAbs * q.natAbs := Nat.mul_le_mul_right _ (by omega)
    omega

end Truncates

theorem divideInt_of_ne_zero (a : Int) {b : Int} (hb : b ≠ 0) :
    divideInt a b = .ok (wrap64 (signedQuotient a b)) := if_neg hb

/-- **The division of integers truncates and stays in range.** The quotient of an integer in range by any
other than zero is an integer in range. It is the one that division toward zero gives, unless the least
integer is divided by `-1`: then it is the least integer. Nothing can be divided by zero. -/
theorem divideInt_truncates (a b : Int) :
    (InRange a → b ≠ 0 →
      ∃ q, divideInt a b = .ok q ∧ InRange q ∧
        (a = minInt ∧ b = -1 → q = minInt) ∧
        (¬(a = minInt ∧ b = -1) →
          (∃ r, Truncates a b q r) ∧ ∀ q' r', Truncates a b q' r' → q' = q)) ∧
    (b = 0 → ∃ e, divideInt a b = .error (.error e) ∧ e.kind.name = "DivisionByZero") := by
  constructor
  · intro ha hb
    have hsigned : Truncates a b (signedQuotient a b) (signedRemainder a b) := .of_magnitudes hb
    refine ⟨_, divideInt_of_ne_zero a hb, wrap64_inRange _, ?_, ?_⟩
    · rintro ⟨rfl, rfl⟩
      decide
    · intro hab
      rw [wrap64_of_inRange (hsigned.inRange ha hab)]
      exact ⟨⟨_, hsigned⟩, fun _ _ h => (h.unique hsigned).1⟩
  · rintro rfl
    exact ⟨.zeroDivisor, rfl, rfl⟩

/-- An inexact quotient of operands of different signs, the pair that wraps around, and a zero divisor. -/
theorem divideInt_truncates_extremes :
    (∃ q, divideInt (-7) 2 = .ok q ∧ InRange q ∧
      (∃ r, Truncates (-7) 2 q r) ∧ ∀ q' r', Truncates (-7) 2 q' r' → q' = q) ∧
    (∃ q, divideInt minInt (-1) = .ok q ∧ InRange q ∧ q = minInt) ∧
    ∃ e, divideInt maxInt 0 = .error (.error e) ∧ e.kind.name = "DivisionByZero" := by
  obtain ⟨q, hq, hrange, -, htruncates⟩ :=
    (divideInt_truncates (-7) 2).1 (by decide) (by decide)
  obtain ⟨least, hleast, hrange', hwraps, -⟩ :=
    (divideInt_truncates minInt (-1)).1 (by decide) (by decide)
  exact ⟨⟨q, hq, hrange, htruncates (by decide)⟩, ⟨least, hleast, hrange', hwraps ⟨rfl, rfl⟩⟩,
    (divideInt_truncates maxInt 0).2 rfl⟩

end SmallImp

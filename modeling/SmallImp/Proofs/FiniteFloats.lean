import Mathlib
import SmallImp.Value

/-!
# Integers of 64 bits have finite floats

The lemmas of the library about the bits of floats are in none of its parts that can be imported alone,
so the whole of it is imported here, once for all modules about floats.

* `Fits` — an unpacked float whose exponent is below that of the infinities;
* `FiniteBits` — a bit pattern that is neither an infinity nor not a number;
* `nearestBits_lt` — the bit pattern nearest to a natural number up to `2 ^ 63`;
* `isInfinite_ofInt` — no integer of 64 bits is too large for a float.
-/

namespace SmallImp

open Float.Model Float.Model.UnpackedFloat

/-! ### Packing and unpacking -/

/-- A zero, or a finite float whose exponent is below that of the infinities. -/
def Fits : UnpackedFloat → Prop
  | .zero _ => True
  | .finite _ _ e _ => (e + 1075).toNat < 2047
  | .infinity _ => False
  | .notANumber => False

/-- The exponent of a bit pattern is below that of the infinities. -/
def FiniteBits (b : BitVec 64) : Prop := @unpackExponent Format.binary64 b ≠ -1#_

theorem exponent_toNat (b : BitVec 64) :
    (@unpackExponent Format.binary64 b).toNat = b.toNat / 2 ^ 52 % 2048 := by
  show (b.extractLsb (52 + 11 - 1) 52).toNat = _
  rw [BitVec.extractLsb_toNat, Nat.shiftRight_eq_div_pow]

theorem finiteBits_iff {b : BitVec 64} : FiniteBits b ↔ b.toNat / 2 ^ 52 % 2048 ≠ 2047 := by
  rw [FiniteBits, ne_eq, ← BitVec.toNat_inj, exponent_toNat]
  rfl

theorem Fits.neg {f : UnpackedFloat} (h : Fits f) : Fits f.neg := by
  cases f with
  | zero s => trivial
  | finite s m e hm => exact h
  | infinity s => exact h
  | notANumber => exact h

theorem FiniteBits.unpack {b : BitVec 64} (h : FiniteBits b) :
    Fits (UnpackedFloat.unpack Format.binary64 b) := by
  have hlt : (@unpackExponent Format.binary64 b).toNat < 2047 := by
    have := finiteBits_iff.mp h
    rw [exponent_toNat]
    omega
  simp only [UnpackedFloat.unpack, if_neg h]
  split
  next hexp =>
    split
    next => trivial
    next =>
      rw [hexp]
      show ((0 : Int) - 1075 + 1 + 1075).toNat < 2047
      decide
  next =>
    show (((@unpackExponent Format.binary64 b).toNat : Int) - 1075 + 1075).toNat < 2047
    omega

theorem Fits.pack {f : UnpackedFloat} (h : Fits f) :
    FiniteBits (UnpackedFloat.pack Format.binary64 f) := by
  cases f with
  | infinity s => exact h.elim
  | notANumber => exact h.elim
  | zero s =>
    rw [FiniteBits, UnpackedFloat.pack, packedZero, unpackExponent_packComponents]
    decide
  | finite s m e hm =>
    have hexp : (e + 1075).toNat < 2047 := h
    have hlow : ¬ 2 ^ 11 ≤ (e + 1023 + 52).toNat + 1 := by omega
    rw [FiniteBits, UnpackedFloat.pack]
    show unpackExponent (if 2 ^ 11 ≤ (e + 1023 + 52).toNat + 1 then _ else _) ≠ _
    rw [if_neg hlow]
    split
    next =>
      rw [unpackExponent_packComponents, ne_eq, ← BitVec.toNat_inj]
      show (e + 1023 + 52).toNat % 2048 ≠ 2047
      omega
    next =>
      rw [unpackExponent_packComponents]
      decide
theorem finiteBits_ofBits {b : UInt64} (h : FiniteBits b.toBitVec) :
    FiniteBits (Float.ofBits b).toBits.toBitVec := h.unpack.pack

theorem finiteBits_neg {x : Float} (h : FiniteBits x.toBits.toBitVec) :
    FiniteBits (-x).toBits.toBitVec := h.unpack.neg.pack

namespace Binary64

theorem isInfinite_of_finiteBits {x : Float} (h : FiniteBits x.toBits.toBitVec) :
    isInfinite x = false := by
  have hexp : x.toBits.toNat / 2 ^ 52 % 2048 ≠ 2047 := finiteBits_iff.mp h
  rw [isInfinite, beq_eq_false_iff_ne]
  unfold infinityBits magnitudeBits signBit leadingBit
  omega

theorem finiteBits_ofNat {n : Nat} (h : n < infinityBits) :
    FiniteBits (UInt64.ofNat n).toBitVec := by
  unfold infinityBits leadingBit at h
  rw [finiteBits_iff]
  show n % 2 ^ 64 / 2 ^ 52 % 2048 ≠ 2047
  omega

/-! ### The float nearest to a natural number -/

theorem roundDiv_le (num den : Nat) : roundDiv num den ≤ num / den + 1 := by
  unfold roundDiv
  dsimp only
  split
  · omega
  · split
    · omega
    · omega

/-- A number up to `2 ^ 63` has a unit of at most `2 ^ 11`. -/
theorem unitExponent_le {n : Nat} (hn : n ≠ 0) (h : n ≤ 2 ^ 63) : unitExponent n 1 ≤ 11 := by
  have hlog : n.log2 < 64 := (Nat.log2_lt hn).mpr (by omega)
  have hone : Nat.log2 1 = 0 := rfl
  unfold unitExponent minExponent
  dsimp only
  rw [hone]
  split <;> omega

/-- A number has a mantissa under `2 ^ 54` in its unit. -/
theorem scaled_div_lt {n : Nat} :
    (scale 2 n 1 (-unitExponent n 1)).1 / (scale 2 n 1 (-unitExponent n 1)).2 < 2 ^ 54 := by
  have hone : Nat.log2 1 = 0 := rfl
  have hunit : (n.log2 : Int) - 53 ≤ unitExponent n 1 := by
    unfold unitExponent
    dsimp only
    rw [hone]
    split <;> omega
  have hlog : n < 2 ^ (n.log2 + 1) := Nat.lt_log2_self
  generalize unitExponent n 1 = e at hunit
  unfold scale
  split
  next he =>
    obtain ⟨k, rfl⟩ : ∃ k : Nat, e = -k := ⟨(-e).toNat, by omega⟩
    show n * 2 ^ (- -(k : Int)).toNat / 1 < 2 ^ 54
    rw [Int.neg_neg, Int.toNat_natCast, Nat.div_one]
    calc n * 2 ^ k < 2 ^ (n.log2 + 1) * 2 ^ k := Nat.mul_lt_mul_of_pos_right hlog (Nat.two_pow_pos k)
      _ = 2 ^ (n.log2 + 1 + k) := (Nat.pow_add 2 _ k).symm
      _ ≤ 2 ^ 54 := Nat.pow_le_pow_right (by decide) (by omega)
  next he =>
    obtain ⟨k, rfl⟩ : ∃ k : Nat, e = k := ⟨e.toNat, by omega⟩
    show n / (1 * 2 ^ (- -(k : Int)).toNat) < 2 ^ 54
    rw [Int.neg_neg, Int.toNat_natCast, Nat.one_mul, Nat.div_lt_iff_lt_mul (Nat.two_pow_pos k)]
    calc n < 2 ^ (n.log2 + 1) := hlog
      _ ≤ 2 ^ (54 + k) := Nat.pow_le_pow_right (by decide) (by omega)
      _ = 2 ^ 54 * 2 ^ k := Nat.pow_add 2 54 k

theorem nearestBits_lt {n : Nat} (h : n ≤ 2 ^ 63) : nearestBits n 1 < infinityBits := by
  rw [nearestBits]
  split
  · decide
  next hn =>
    have hunit := unitExponent_le hn h
    have hmantissa := scaled_div_lt (n := n)
    have hround := roundDiv_le (scale 2 n 1 (-unitExponent n 1)).1 (scale 2 n 1 (-unitExponent n 1)).2
    unfold minExponent infinityBits leadingBit
    dsimp only
    omega

theorem isInfinite_ofInt {n : Int} (h : InRange n) : isInfinite (ofInt n) = false := by
  have hn : n.natAbs ≤ 2 ^ 63 := by
    unfold InRange minInt maxInt at h
    omega
  have hnearest : FiniteBits (nearest n.natAbs 1).toBits.toBitVec :=
    finiteBits_ofBits (finiteBits_ofNat (nearestBits_lt hn))
  rw [ofInt]
  split
  · exact isInfinite_of_finiteBits (finiteBits_neg hnearest)
  · exact isInfinite_of_finiteBits hnearest

end Binary64

end SmallImp

/-!
# Binary64 numbers as exact ratios

A finite `Float` is `m · 2 ^ q` for a natural mantissa `m` and an integer exponent `q`. This module
takes a float apart into that form and rounds a ratio of naturals back to the nearest float.

* `roundDiv` — a quotient rounded to nearest, a half going to the even neighbour;
* `Binary64.parts`, `Binary64.ratio` — the magnitude of a float, exactly;
* `Binary64.nearest` — the float closest to a ratio.
-/

namespace SmallImp

/-- The quotient `num / den` rounded to the nearest natural; a half goes to the even neighbour. -/
def roundDiv (num den : Nat) : Nat :=
  let q := num / den
  let r := num % den
  if 2 * r < den then q else if den < 2 * r then q + 1 else q + q % 2

namespace Binary64

/-- The least exponent a mantissa unit can have. -/
def minExponent : Int := -1074

/-- The weight of the leading bit of a full mantissa, `2 ^ 52`. -/
def leadingBit : Nat := 0x10000000000000

/-- The weight of the sign bit, `2 ^ 63`. -/
def signBit : Nat := 0x8000000000000000

/-- The bit pattern of positive infinity. -/
def infinityBits : Nat := 0x7FF * leadingBit

/-- Positive infinity. -/
def infinity : Float := Float.ofBits (UInt64.ofNat infinityBits)

/-- The one value that is not a number. -/
def nan : Float := infinity - infinity

/-- The bit pattern without its sign. -/
def magnitudeBits (x : Float) : Nat := x.toBits.toNat % signBit

/-- Whether the sign bit is set; it is for `-0.0`. -/
def isNegative (x : Float) : Bool := signBit ≤ x.toBits.toNat

/-- Whether a float is not a number. -/
def isNaN (x : Float) : Bool := infinityBits < magnitudeBits x

/-- Whether a float is an infinity of either sign. -/
def isInfinite (x : Float) : Bool := infinityBits == magnitudeBits x

/-- The same number with the sign bit cleared. -/
def magnitude (x : Float) : Float := Float.ofBits (UInt64.ofNat (magnitudeBits x))

/-- The magnitude of a finite float is `m · 2 ^ q` for the pair `(m, q)`. -/
def parts (x : Float) : Nat × Int :=
  let field : Nat := magnitudeBits x / leadingBit
  let fraction : Nat := magnitudeBits x % leadingBit
  if field = 0 then (fraction, minExponent) else (leadingBit + fraction, (field : Int) - 1075)

/-- `num / den · base ^ e`, again as a ratio. -/
def scale (base : Nat) (num den : Nat) (e : Int) : Nat × Nat :=
  if 0 ≤ e then (num * base.pow e.toNat, den) else (num, den * base.pow (-e).toNat)

/-- The magnitude of a finite float as a ratio of naturals. -/
def ratio (x : Float) : Nat × Nat := scale 2 (parts x).1 1 (parts x).2

/-- The exponent of the mantissa unit for numbers of the size of `num / den`: the least one, not
below `minExponent`, for which the mantissa stays under `2 ^ 53`. -/
def unitExponent (num den : Nat) : Int :=
  let size : Int := (num.log2 : Int) - den.log2
  let (n, d) := scale 2 num den (-size)
  max (if n < d then size - 53 else size - 52) minExponent

/-- The bit pattern of the float nearest to `num / den`. Carrying out of the mantissa raises the
exponent field by itself; beyond the largest float the answer is infinity. -/
def nearestBits (num den : Nat) : Nat :=
  if num = 0 then 0 else
    let e := unitExponent num den
    let (n, d) := scale 2 num den (-e)
    min ((e - minExponent).toNat * leadingBit + roundDiv n d) infinityBits

/-- The float nearest to `num / den`; of two equally near ones the one with the even mantissa. -/
def nearest (num den : Nat) : Float := Float.ofBits (UInt64.ofNat (nearestBits num den))

/-- The float nearest to an integer; infinite when the integer is out of reach. -/
def ofInt (n : Int) : Float :=
  if n < 0 then -nearest n.natAbs 1 else nearest n.natAbs 1

end Binary64

end SmallImp

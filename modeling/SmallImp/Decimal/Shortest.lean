import SmallImp.Decimal.Binary64

/-!
# Decimal numbers and the shortest one that reads back

* `Decimal` — a natural coefficient and a power of ten;
* `Decimal.toFloat` — reading: the float nearest to a decimal;
* `Decimal.shortest` — writing: the decimal on the coarsest grid of tens that reads back;
* `Decimal.closestTwo` — the closest decimal of two digits.
-/

namespace SmallImp

/-- The number `coeff · 10 ^ exp`. -/
structure Decimal where
  coeff : Nat
  exp : Int
deriving DecidableEq

namespace Decimal

/-- The number of decimal digits of a natural; `0` has one. -/
def digitCount (n : Nat) : Nat := (Nat.toDigits 10 n).length

/-- The float nearest to a decimal. A decimal past `10 ^ 310` is infinite and one below
`10 ^ (-330)` is zero, so that no exponent however large is ever multiplied out. -/
def toFloat (d : Decimal) : Float :=
  let top := (digitCount d.coeff : Int) + d.exp
  if d.coeff = 0 ∨ top < -330 then 0.0
  else if 310 < top then Binary64.infinity
  else
    let (num, den) := Binary64.scale 10 d.coeff 1 d.exp
    Binary64.nearest num den

/-- The exact decimal form of a finite magnitude, since `2 ^ (-k) = 5 ^ k · 10 ^ (-k)`. -/
def exactly (x : Float) : Decimal :=
  let (m, q) := Binary64.parts x
  if 0 ≤ q then ⟨m * Nat.pow 2 q.toNat, 0⟩ else ⟨m * Nat.pow 5 (-q).toNat, q⟩

/-- Of the two neighbours of `x` on the grid of multiples of `10 ^ k`, the one that reads back; if
both do, the nearer, and of two equally near ones the even. -/
def onGrid? (x : Float) (k : Int) : Option Decimal :=
  let (num, den) := Binary64.ratio x
  let (n, d) := Binary64.scale 10 num den (-k)
  let low := n / d
  let near := roundDiv n d
  let far := if near = low then low + 1 else low
  if toFloat ⟨near, k⟩ = x then some ⟨near, k⟩
  else if toFloat ⟨far, k⟩ = x then some ⟨far, k⟩
  else none

/-- The first hit on the grids `10 ^ k`, `10 ^ (k - 1)`, …; the exact form when the steps run out. -/
def search (x : Float) : Nat → Int → Decimal
  | 0, _ => exactly x
  | steps + 1, k =>
    match onGrid? x k with
    | some d => d
    | none => search x steps (k - 1)

/-- A power of ten above every number of the size of `x`, from the binary logarithm. -/
def topExponent (x : Float) : Int :=
  let (m, q) := Binary64.parts x
  ((m.log2 : Int) + 1 + q) * 30103 / 100000 + 2

/-- The shortest decimal that reads back as the positive finite `x`. Seventeen digits are always
enough, so the steps cover every grid that can hold the answer. -/
def shortest (x : Float) : Decimal := search x 24 (topExponent x)

/-- The decimal of two digits closest to the positive finite `x`, when a single digit times
`10 ^ k` reads back as `x`. -/
def closestTwo (x : Float) (k : Int) : Decimal :=
  let (num, den) := Binary64.ratio x
  let (n, d) := Binary64.scale 10 num den (-k)
  let grid := if d ≤ n then k - 1 else k - 2
  let (n, d) := Binary64.scale 10 num den (-grid)
  ⟨roundDiv n d, grid⟩

/-- The digits of a decimal without trailing zeros, and the exponent of the leading one. -/
def scientific (d : Decimal) : List Char × Int :=
  let digits := Nat.toDigits 10 d.coeff
  let kept := (digits.reverse.dropWhile (· == '0')).reverse
  (kept, d.exp + digits.length - 1)

end Decimal

end SmallImp

import ScopedGrammar.Decimal

/-!
# Decimal text of doubles

A finite double is `m · 2 ^ q` for natural `m`, hence an exact `Decimal` (`exact`). A decimal is read as the nearest
double (`ofDecimal`), a tie going to the even significand; one beyond the largest double is read as infinite. A double
is written with the fewest digits that are read back as it, and of those the nearest to it (`shortest`): the neighbours
of its exact decimal are tried on the grids of one digit, two digits and so on, and the exact decimal lies on the last
grid.
-/

namespace ScopedGrammar.Binary64

/-! ## Structure of doubles -/

/-- The sign bit. -/
def isNegative (x : Float) : Bool := x.toBits >>> 63 == 1

/-- The eleven exponent bits. -/
def exponentBits (x : Float) : Nat := (x.toBits >>> 52).toNat % 2048

/-- The magnitude of a finite double is `significand x · 2 ^ scale x`. -/
def significand (x : Float) : Nat :=
  x.toBits.toNat % Nat.pow 2 52 + if exponentBits x = 0 then 0 else Nat.pow 2 52

/-- The power of two that the significand of a finite double counts. -/
def scale (x : Float) : Int := max (exponentBits x) 1 - 1075

/-- The value of a finite double, digit for digit. -/
def exact (x : Float) : Decimal :=
  let negative := isNegative x
  if scale x < 0 then ⟨negative, significand x * Nat.pow 5 (-scale x).toNat, scale x⟩
  else ⟨negative, significand x * Nat.pow 2 (scale x).toNat, 0⟩

/-! ## Rounding to a double -/

/-- The exponent of the greatest power of two that is not above a positive quotient. -/
def quotientLog2 (num den : Nat) : Int :=
  let e : Int := (num.log2 : Int) - den.log2
  if num * Nat.pow 2 (-e).toNat < den * Nat.pow 2 e.toNat then e - 1 else e

/-- The bits of positive infinity. -/
def infinityBits : Nat := 0x7FF0000000000000

/-- The bits of the double nearest to a positive quotient. The significand is counted in the power of two that leaves
it 53 bits, or in the smallest one there is; a significand that is rounded up to 54 bits carries into the exponent. -/
def nearestBits (num den : Nat) : Nat :=
  let q := max (quotientLog2 num den - 52) (-1074)
  min infinityBits
    ((q + 1074).toNat * Nat.pow 2 52
      + Decimal.roundDiv (num * Nat.pow 2 (-q).toNat) (den * Nat.pow 2 q.toNat))

/-- The double nearest to a decimal. Numbers of more than 400 places are infinite, and those that start after 400
zeros are zero. -/
def ofDecimal (d : Decimal) : Float :=
  let magnitude :=
    if d.coefficient = 0 ∨ d.lead < -400 then 0
    else if 400 < d.lead then infinityBits
    else nearestBits (d.coefficient * Nat.pow 10 d.exponent.toNat) (Nat.pow 10 (-d.exponent).toNat)
  Float.ofBits (UInt64.ofNat (magnitude + if d.negative then Nat.pow 2 63 else 0))

/-! ## The shortest decimal -/

/-- The nearer of the two neighbours of a decimal on its grid of `n` digits, of those that are read back as `x`. A tie
goes to the greater. -/
def onGrid? (x : Float) (d : Decimal) (n : Nat) : Option Decimal :=
  let cut := (Decimal.digits d.coefficient).length - n
  let unit := Nat.pow 10 cut
  let low : Decimal := ⟨d.negative, d.coefficient / unit, d.exponent + cut⟩
  let high : Decimal := ⟨d.negative, d.coefficient / unit + 1, d.exponent + cut⟩
  let nearer := if 2 * (d.coefficient % unit) < unit then [low, high] else [high, low]
  nearer.find? fun c => (ofDecimal c).toBits == x.toBits

/-- The decimal of fewest digits that is read back as a finite double, and of those the nearest to it. -/
def shortest (x : Float) : Decimal :=
  let d := exact x
  if d.coefficient = 0 then ⟨d.negative, 0, 0⟩
  else
    let grids := (List.range (Decimal.digits d.coefficient).length).map (· + 1)
    ((grids.findSome? (onGrid? x d)).getD d).trim

/-! ## Text -/

/-- The text of a double in a given layout of decimals. Infinite and undefined values are named. -/
def write (layout : Decimal → List Char) (x : Float) : List Char :=
  if x.isFinite then layout (shortest x)
  else if x.isNaN then ['N', 'a', 'N']
  else if isNegative x then ['-', 'i', 'n', 'f'] else ['i', 'n', 'f']

/-- Reads a decimal or, in letters of either case and with an optional sign, the name of an infinite or undefined
value. -/
def read? (cs : List Char) : Option Float :=
  let (negative, name) := Decimal.splitSign cs
  let lower := String.ofList (name.map Char.toLower)
  let infinity := Float.ofBits (UInt64.ofNat infinityBits)
  if lower == "inf" || lower == "infinity" then some (if negative then -infinity else infinity)
  else if lower == "nan" then some (infinity - infinity)
  else (Decimal.read? cs).map ofDecimal

end ScopedGrammar.Binary64

import ScopedGrammar.Arith

/-!
# Doubles as weights

Totals start from negative zero, the neutral element of addition of doubles, so the total of no weights prints as `-0`.
A unit draw is a multiple of `2⁻⁵²` below one. For a total whose product with the greatest of them rounds back up to
the total, the scale is the next double below: that one lies below the total itself, and so does every product with it.
-/

namespace ScopedGrammar

namespace Binary64

/-- The greatest unit draw, `1 - 2⁻⁵²`. -/
def greatestDraw : Float := Float.ofBits 0x3FEFFFFFFFFFFFFE

/-- The next double towards zero. -/
def below (x : Float) : Float := Float.ofBits (x.toBits - 1)

/-- The greatest factor up to `total` for which every draw lands below `total`. -/
def drawScale (total : Float) : Float := if total ≤ total * greatestDraw then below total else total

end Binary64

instance : Arith Float where
  zero := 0.0
  one := 1.0
  emptySum := -0.0
  ln := Float.log
  isFinite := Float.isFinite
  drawScale := Binary64.drawScale

end ScopedGrammar

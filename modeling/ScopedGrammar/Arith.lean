/-!
# Arithmetic of weights

Every weight and every log-probability of the library lives in a type `W` with an `Arith` instance: the operations
that generation, selection and enumeration apply to weights, and no laws. Doubles are one instance
(`ScopedGrammar.Arith.Binary64`); any ordered field with a logarithm is another, so a statement about exact
probabilities and the program that runs on doubles speak of the same definitions.

- `Arith.total` adds a list of weights from left to right;
- `Arith.logShare` is the log-probability of one alternative among alternatives of a given total.
-/

namespace ScopedGrammar

/-- The arithmetic of weights and of their logarithms. -/
class Arith (W : Type) extends Add W, Sub W, Mul W, BEq W, LT W, LE W where
  [decLT : DecidableLT W]
  [decLE : DecidableLE W]
  /-- The weight of an alternative that is never taken. -/
  zero : W
  /-- The resample weight of a rule that states none. -/
  one : W
  /-- The total of no weights: what `total` starts from, so that it leaves every summand unchanged. -/
  emptySum : W
  /-- The natural logarithm. -/
  ln : W → W
  /-- Whether a value is an ordinary number, neither infinite nor undefined. -/
  isFinite : W → Bool
  /-- The factor that turns unit draws into positions below a total: the greatest one not above the total for
  which no draw lands on the total itself. In exact arithmetic it is the total. -/
  drawScale : W → W

namespace Arith

variable {W : Type} [Arith W]

instance : DecidableLT W := decLT

instance : DecidableLE W := decLE

/-- The left-to-right total of a list of weights. -/
def total (ws : List W) : W := ws.foldl (· + ·) emptySum

/-- The log-probability of an alternative of weight `w` among alternatives of the given total. -/
def logShare (w total : W) : W := ln w - ln total

/-- A finite weight above zero: what a rule's generation weight has to be. -/
def isPositive (w : W) : Bool := isFinite w && decide (zero < w)

/-- A finite weight that is not negative: what a rule's resample weight has to be. -/
def isNonnegative (w : W) : Bool := isFinite w && decide (zero ≤ w)

end Arith

end ScopedGrammar

import ScopedGrammar.Arith.Binary64

/-!
# Logarithms of special functions

On doubles: the logarithm of the gamma function by the approximation of Lanczos with nine coefficients, that of the
multivariate beta function, and the logarithm of a sum of exponentials without overflow.
-/

namespace ScopedGrammar.Binary64

/-- The constant of the approximation. -/
def lanczosShift : Float := 7.0

/-- The constant term of the approximation. -/
def lanczosConstant : Float := 0.9999999999998099

/-- The numerators of its fractions, from the first one on. -/
def lanczosNumerators : List Float :=
  [676.5203681218851, -1259.1392167224028, 771.3234287776531, -176.6150291621406, 12.507343278686905,
   -0.13857109526572012, 9.984369578019572e-6, 1.5056327351493116e-7]

/-- The circle constant. -/
def pi : Float := 3.141592653589793

/-- The logarithm of the gamma function from one half upwards. -/
def logGammaUpper (x : Float) : Float :=
  let x := x - 1.0
  let t := x + lanczosShift + 0.5
  let fractions := lanczosNumerators.zipIdx.map fun (c, i) => c / (x + (i + 1).toFloat)
  let sum := fractions.foldl (· + ·) lanczosConstant
  0.5 * Float.log (2.0 * pi) + (x + 0.5) * Float.log t - t + Float.log sum

/-- The logarithm of the absolute value of the gamma function. Below one half it is reflected. -/
def logGamma (x : Float) : Float :=
  if x < 0.5 then Float.log (pi / (Float.sin (pi * x)).abs) - logGammaUpper (1.0 - x) else logGammaUpper x

/-- The logarithm of the multivariate beta function. -/
def logBeta (xs : List Float) : Float := Arith.total (xs.map logGamma) - logGamma (Arith.total xs)

/-- The greater of two doubles; one that is undefined is passed over. -/
def greater (x y : Float) : Float := if x.isNaN then y else if x < y then y else x

/-- The logarithm of a sum of exponentials. -/
def logSumExp (xs : List Float) : Float :=
  let lowest := -(1.0 / 0.0 : Float)
  let top := xs.foldl greater lowest
  if top == lowest then top else top + Float.log (Arith.total (xs.map fun x => Float.exp (x - top)))

end ScopedGrammar.Binary64

import ScopedGrammar.Decimal.Binary64

/-!
# Weights in text

Rules, messages and diagnostics write weights, and the grammar text is read into them. `Numeral` is what a type of
weights needs for that. Doubles are written with the fewest digits that are read back, never with an exponent in rules
and messages, and in the general layout in diagnostics.
-/

namespace ScopedGrammar

/-- A type of weights that can be written and read. -/
class Numeral (W : Type) where
  /-- The form used in rules and messages. -/
  print : W → List Char
  /-- The form used when a diagnostic names a number token. -/
  describe : W → List Char
  /-- The value of a decimal number. -/
  ofDecimal : Decimal → W

instance : Numeral Float where
  print := Binary64.write Decimal.positional
  describe := Binary64.write Decimal.general
  ofDecimal := Binary64.ofDecimal

end ScopedGrammar

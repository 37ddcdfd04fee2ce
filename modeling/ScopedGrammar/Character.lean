import ScopedGrammar.Character.Alphabetic
import ScopedGrammar.Character.Numeric
import ScopedGrammar.Character.Unprintable
import ScopedGrammar.Character.Extending

/-!
# Character classes

The classes that decide where a bare symbol ends, what separates tokens, and which characters a diagnostic writes by
their code point. All are classes of Unicode 17, given as tables of ascending ranges (`inRanges`).
-/

namespace ScopedGrammar.Character

/-- Membership in ascending inclusive ranges; the search ends at the first range that starts beyond the number. -/
def inRanges (n : Nat) : List (Nat × Nat) → Bool
  | [] => false
  | (low, high) :: rest => if n < low then false else if n ≤ high then true else inRanges n rest

/-- The property Alphabetic. -/
def isAlphabetic (c : Char) : Bool := inRanges c.toNat alphabeticRanges

/-- The general category N: digits, letter numbers and other numbers. -/
def isNumeric (c : Char) : Bool := inRanges c.toNat numericRanges

/-- The code points with the property White_Space. -/
def blankRanges : List (Nat × Nat) :=
  [(0x9, 0xD), (0x20, 0x20), (0x85, 0x85), (0xA0, 0xA0), (0x1680, 0x1680), (0x2000, 0x200A), (0x2028, 0x2029),
   (0x202F, 0x202F), (0x205F, 0x205F), (0x3000, 0x3000)]

/-- The property White_Space. -/
def isBlank (c : Char) : Bool := inRanges c.toNat blankRanges

/-- Characters that may open a bare symbol: letters and the underscore. -/
def opensName (c : Char) : Bool := isAlphabetic c || c == '_'

/-- Characters that may follow in a bare symbol: letters, numbers, the underscore and the apostrophe. -/
def continuesName (c : Char) : Bool := isAlphabetic c || isNumeric c || c == '_' || c == '\''

/-- Characters that a diagnostic writes by their code point. -/
def isHidden (c : Char) : Bool := inRanges c.toNat unprintableRanges || inRanges c.toNat extendingRanges

end ScopedGrammar.Character

import ScopedGrammar.Arith.Binary64

/-!
# Draws

All randomness comes from a supply of draws that is given in advance, and every random choice uses one draw of it. A
draw can be used in two ways, to pick one of several weighted alternatives or a point of the unit interval, and for
doubles the two read the same 64-bit word to different precision.
-/

namespace ScopedGrammar

/-- One random value between zero and one, one excluded, as either kind of choice reads it. -/
structure Draw (W : Type) where
  /-- The value for a choice among weighted rules. -/
  categorical : W
  /-- The value for a choice among nodes. -/
  uniform : W

/-- The draw that a random word gives: its upper 52 or 53 bits as a fraction. -/
def Draw.ofWord (word : UInt64) : Draw Float where
  categorical := (word >>> 12).toNat.toFloat * Float.ofBits 0x3CB0000000000000
  uniform := (word >>> 11).toNat.toFloat * Float.ofBits 0x3CA0000000000000

end ScopedGrammar

/-!
# The SplitMix64 sequence

The sequence of 64-bit words that a seed gives: the state advances by a fixed odd number, and each word is the state
with its bits mixed. All arithmetic wraps.
-/

namespace ScopedGrammar.SplitMix

/-- The state after another. -/
def next (state : UInt64) : UInt64 := state + 0x9E3779B97F4A7C15

/-- The word that a state gives. -/
def mix (state : UInt64) : UInt64 :=
  let z := (state ^^^ (state >>> 30)) * 0xBF58476D1CE4E5B9
  let z := (z ^^^ (z >>> 27)) * 0x94D049BB133111EB
  z ^^^ (z >>> 31)

/-- The first words of the sequence of a seed. -/
def words : Nat → UInt64 → List UInt64
  | 0, _ => []
  | n + 1, seed => mix (next seed) :: words n (next seed)

end ScopedGrammar.SplitMix

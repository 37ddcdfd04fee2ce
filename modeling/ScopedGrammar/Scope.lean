import ScopedGrammar.Rule

/-!
# Scopes

The rules for bound variables that are visible at some point of a derivation, outermost first, with the lowest id that
was ever handed out or seen. Ids of variables are handed out downwards (`idBelow`), and dropping rules from a scope gives
no id back, so a fresh id is new to everything that the scope has seen, until the ids run out. Ids have 64 bits, and
behind the least one the count goes on with the greatest.
-/

namespace ScopedGrammar

/-! ## Ids of variables -/

/-- The least id. -/
def leastId : Int := -9223372036854775808

/-- The greatest id. -/
def greatestId : Int := 9223372036854775807

/-- The id that is handed out next, where `lowest` is the lowest one in use. No id is below the least one, and the
greatest comes after it. -/
def idBelow (lowest : Int) : Int := if lowest ≤ leastId then greatestId else lowest - 1

/-! ## Scopes -/

/-- Rules for bound variables, outermost first, and the lowest id in use. -/
structure Scope (W : Type) where
  rules : List (Rule W)
  lowest : Int

namespace Scope

variable {W : Type}

/-- No variable is bound, and no id is in use. -/
def empty : Scope W := ⟨[], 0⟩

/-- No variable is bound, and fresh ids continue below `lowest`. -/
def below (lowest : Int) : Scope W := ⟨[], min lowest 0⟩

/-- The rules in scope for a nonterminal. -/
def visible (s : Scope W) (nonterminal : String) : List (Rule W) :=
  s.rules.filter fun r => r.nonterminal == nonterminal

/-- Whether a variable of the nonterminal is bound. -/
def binds (s : Scope W) (nonterminal : String) : Bool := !(s.visible nonterminal).isEmpty

/-- The position to truncate back to. -/
def mark (s : Scope W) : Nat := s.rules.length

/-- Drops the rules that were pushed after a mark. -/
def truncate (s : Scope W) (mark : Nat) : Scope W := { s with rules := s.rules.take mark }

/-- Hands out the next id, which is then the lowest one in use. -/
def handOut (s : Scope W) : Scope W := { s with lowest := idBelow s.lowest }

/-- Brings a rule into scope. -/
def push (s : Scope W) (r : Rule W) : Scope W := ⟨s.rules ++ [r], min s.lowest r.id⟩

/-- Makes fresh ids continue below `lowest`. -/
def reserveBelow (s : Scope W) (lowest : Int) : Scope W := { s with lowest := min s.lowest lowest }

end Scope

end ScopedGrammar

import ScopedGrammar.Rule

/-!
# Tables of rules

The rules of a grammar, grouped by nonterminal. Groups stand in the order of their nonterminals by code point, none is
empty, and the rules of a group stand in the order in which they were added.
-/

namespace ScopedGrammar

/-- Rules grouped by nonterminal. -/
abbrev RuleTable (W : Type) := List (String × List (Rule W))

namespace RuleTable

variable {W : Type}

/-- The rules of a nonterminal. -/
def rules : RuleTable W → String → List (Rule W)
  | [], _ => []
  | (nt, rs) :: rest, s => if nt == s then rs else rules rest s

/-- All rules, group by group. -/
def toList (t : RuleTable W) : List (Rule W) := t.flatMap (·.2)

/-- Adds a rule at the end of its group. -/
def insert (r : Rule W) : RuleTable W → RuleTable W
  | [] => [(r.nonterminal, [r])]
  | (nt, rs) :: rest =>
    if nt == r.nonterminal then (nt, rs ++ [r]) :: rest
    else if r.nonterminal < nt then (r.nonterminal, [r]) :: (nt, rs) :: rest
    else (nt, rs) :: insert r rest

/-- Removes the rule of a nonterminal with an id; a group that becomes empty goes too. -/
def erase (nonterminal : String) (id : Int) : RuleTable W → RuleTable W
  | [] => []
  | (nt, rs) :: rest =>
    if nt == nonterminal then
      let kept := rs.eraseP (·.id == id)
      if kept.isEmpty then rest else (nt, kept) :: rest
    else (nt, rs) :: erase nonterminal id rest

/-- Replaces the weight of the rule with an id. -/
def setWeight (t : RuleTable W) (id : Int) (weight : W) : RuleTable W :=
  t.map fun (nt, rs) => (nt, rs.map fun r => if r.id == id then { r with weight := weight } else r)

end RuleTable

end ScopedGrammar

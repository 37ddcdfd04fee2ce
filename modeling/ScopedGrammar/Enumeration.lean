import ScopedGrammar.Grammar.Reachable
import ScopedGrammar.Odometer
import ScopedGrammar.Tree

/-!
# Enumeration

All derivation trees of a nonterminal in which nonterminals are nested to a bounded depth, made one by one
(`Grammar.enumerate`). The trees of a nonterminal whose children are all terminal come first, in the order of the rules;
then come the trees of the other rules, with every combination of children one level less deep, which an odometer for
the right-hand side makes. Rules that bind variables are not enumerated: a nonterminal from which one can be reached is
refused.
-/

namespace ScopedGrammar

variable {W : Type} [Arith W]

/-- What can stand in the place of each item, given the trees of the nonterminals. The insides of a sequence come from
an odometer of its own. -/
def Grammar.choices (g : Grammar W) (expansions : String → LazyList (Node W)) :
    Items → List (Unit → LazyList (Child W))
  | .nil => []
  | .symbol s rest =>
    (fun _ => if g.isNonterminal s then (expansions s).map .node else .cons (.leaf s) fun _ => .nil) ::
      g.choices expansions rest
  | .seq inside rest =>
    (fun _ => (Odometer.start (g.choices expansions inside)).rows.map fun row => .seq (Forest.ofList row)) ::
      g.choices expansions rest

/-- A right-hand side as it stands, with every symbol a leaf. -/
def Items.asLeaves : Items → Forest W
  | nil => .nil
  | symbol s rest => .leaf s rest.asLeaves
  | seq inside rest => .seq inside.asLeaves rest.asLeaves

namespace Grammar

/-- The total weight of the permanent rules of a nonterminal. -/
def totalWeight (g : Grammar W) (nonterminal : String) : W := Arith.total ((g.rules nonterminal).map (·.weight))

/-- The node of a permanent rule of a nonterminal. Nothing is bound there. -/
def plainNode (g : Grammar W) (level : Nat) (nonterminal : String) (r : Rule W) (children : Forest W) : Node W :=
  Node.ofRule r children (Arith.logShare r.weight (g.totalWeight nonterminal)) [] level

/-- The trees of the rules of a nonterminal whose children are all terminal. -/
def terminalTrees (g : Grammar W) (level : Nat) (nonterminal : String) : List (Node W) :=
  ((g.rules nonterminal).filter (g.producesTerminals ·.toProduction)).map fun r =>
    g.plainNode level nonterminal r r.children.asLeaves

/-- The trees of a nonterminal at a level, with nonterminals nested below it as deep as the budget. -/
def treesFrom (g : Grammar W) : Nat → Nat → String → LazyList (Node W)
  | 0, level, nonterminal => .ofList (g.terminalTrees level nonterminal)
  | budget + 1, level, nonterminal =>
    let others := (g.rules nonterminal).filter (!g.producesTerminals ·.toProduction)
    LazyList.append (.ofList (g.terminalTrees level nonterminal)) fun _ =>
      (LazyList.ofList others).flatMap fun r =>
        (Odometer.start (g.choices (g.treesFrom budget (level + 1)) r.children)).rows.map fun row =>
          g.plainNode level nonterminal r (Forest.ofList row)

/-- The first reachable nonterminal in code point order that has a rule which binds variables, with that rule. -/
def reachableBinder? (g : Grammar W) (nonterminal : String) : Option (String × Rule W) :=
  (g.reachableFrom nonterminal).findSome? fun nt => ((g.rules nt).find? (·.bindsVariables)).map fun r => (nt, r)

/-- All trees of a nonterminal up to a depth, to be made one by one. -/
def enumerate (g : Grammar W) (nonterminal : String) (depth : Nat) :
    Except (GrammarError W) (Unit → LazyList (Node W)) :=
  if !g.isNonterminal nonterminal then .error (.notANonterminal nonterminal)
  else
    match g.reachableBinder? nonterminal with
    | some (nt, r) => .error (.bindsVariables nt r.name)
    | none => .ok fun _ => g.treesFrom depth 0 nonterminal

end Grammar

end ScopedGrammar

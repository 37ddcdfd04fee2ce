import ScopedGrammar.Grammar
import ScopedGrammar.Tree.Iteration

/-!
# Rule counts

How often the permanent rules of a grammar were used in trees. The uses of a rule are counted under its id alone
(`Tally.ofTrees`), and read off for the rules of every nonterminal (`Grammar.ruleCounts`). Nodes that stand for bound
variables are not counted.
-/

namespace ScopedGrammar

variable {W : Type}

/-- Numbers of uses under ids, no id twice. -/
abbrev Tally := List (Int × Nat)

namespace Tally

/-- Counts one more use of an id. -/
def bump (id : Int) : Tally → Tally
  | [] => [(id, 1)]
  | (key, uses) :: rest => if key == id then (key, uses + 1) :: rest else (key, uses) :: bump id rest

/-- The number of uses of an id, which is zero for an id that was not counted. -/
def count (t : Tally) (id : Int) : Nat := (t.lookup id).getD 0

/-- Counts the nodes of a tree that permanent rules built. -/
def addTree (t : Tally) (tree : Node W) : Tally :=
  (tree.iterate.toList.filter fun n => !n.isVariable).foldl (fun t n => t.bump n.label.ruleId) t

/-- The uses of all ids in several trees. -/
def ofTrees (trees : List (Node W)) : Tally := trees.foldl addTree []

end Tally

/-- For every nonterminal the counts of its rules over several trees, in the order of the rules. -/
def Grammar.ruleCounts (g : Grammar W) (trees : List (Node W)) : List (String × List Nat) :=
  let uses := Tally.ofTrees trees
  g.nonterminals.map fun nt => (nt, (g.rules nt).map fun r => uses.count r.id)

end ScopedGrammar

import ScopedGrammar.LogGamma
import ScopedGrammar.RuleCount

/-!
# Priors

Two log-densities on doubles: that of a tree under rational rules, where the weights of the rules of a nonterminal are
integrated out, and that of a grammar's weights under a gamma distribution.
-/

namespace ScopedGrammar.Grammar

/-- The rational rules prior of a tree: for every nonterminal, the marginal likelihood of its rule counts under a
symmetric Dirichlet distribution with a pseudocount for every rule. -/
def rationalRules (g : Grammar Float) (tree : Node Float) (pseudocount : Float) : Float :=
  Arith.total ((g.ruleCounts [tree]).map fun (_, counts) =>
    Binary64.logBeta (counts.map fun n => n.toFloat + pseudocount)
      - Binary64.logBeta (counts.map fun _ => pseudocount))

/-- The log-density of all rule weights under a gamma distribution of a shape and a scale. -/
def gammaPrior (g : Grammar Float) (shape scale : Float) : Float :=
  let norm := Binary64.logGamma shape + shape * Float.log scale
  Arith.total (g.allRules.map fun r => (shape - 1.0) * Float.log r.weight - r.weight / scale - norm)

end ScopedGrammar.Grammar

import ScopedGrammar.Generation
import ScopedGrammar.Selection
import ScopedGrammar.Tree.Position

/-!
# Proposals

A proposal picks a node of a tree and generates it anew in its scope. Ids of new variables continue below every id in
the tree, so none clashes with a part of the tree that stays. The correction `logForwardBackward` is for accepting or
rejecting the new tree: the log-probability of going forward, less that of coming back, where the node is taken to have
the same resample weight in both directions.

The nodes to pick from are those that pass a test. It is asked about the old tree in two walks and about the new one in a
third, and a test with a state carries it from each walk to the next (`Grammar.proposeWith`).
-/

namespace ScopedGrammar

/-- A proposed tree. -/
structure Proposal (W : Type) where
  tree : Node W
  /-- The log-probability of the way forward less that of the way back. -/
  logForwardBackward : W

variable {W : Type} [Arith W] {S : Type}

/-- Puts a new tree in the place of a selected node, and gives the state that the test is left in. -/
def Selection.replaceWith (s : Selection W) (old : Node W) (test : StatefulTest W S) (state : S)
    (replacement : Node W) : Except (Failure W) (Proposal W) × S :=
  match old.replaceAt? s.index replacement with
  | none => (.error (.error (.invalidIndex s.index)), state)
  | some new =>
    let (newTotal, state) := new.normalizerWith test state
    let forward := s.logProb + new.logProbability
    let backward := Arith.logShare s.resampleWeight newTotal + old.logProbability
    (.ok ⟨new, forward - backward⟩, state)

/-- Puts a new tree in the place of a node that was selected by a condition. -/
def Selection.replace (s : Selection W) (old : Node W) (accepts : NodeTest W) (replacement : Node W) :
    Except (Failure W) (Proposal W) := (s.replaceWith old accepts.stateless () replacement).1

namespace Grammar

/-- Generates a node of a tree anew, among those that pass a test, and gives the state that the test is left in. -/
def proposeWith (g : Grammar W) (tree : Node W) (test : StatefulTest W S) (state : S) (draws : List (Draw W)) :
    Except (Failure W) (Proposal W) × S × List (Draw W) :=
  match tree.selectWith test state draws with
  | (.error e, state, draws) => (.error e, state, draws)
  | (.ok s, state, draws) =>
    let made := g.generateIn s.nonterminal s.nodeDepth (s.scope.reserveBelow tree.lowestRuleId) draws
    match made.result with
    | .error e => (.error e, state, made.draws)
    | .ok replacement =>
      let (result, state) := s.replaceWith tree test state replacement
      (result, state, made.draws)

/-- Generates a node of a tree anew, among those that pass a condition. -/
def propose (g : Grammar W) (tree : Node W) (accepts : NodeTest W) (draws : List (Draw W)) :
    Except (Failure W) (Proposal W) × List (Draw W) :=
  let (result, _, draws) := g.proposeWith tree accepts.stateless () draws
  (result, draws)

end Grammar

end ScopedGrammar

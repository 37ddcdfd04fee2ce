import ScopedGrammar.Draw
import ScopedGrammar.Error
import ScopedGrammar.Traversal

/-!
# Selection of a node

A node is picked with probability proportional to its resample weight, among the nodes that pass a test in their scope.
A uniform draw is scaled to the total weight (`Node.normalizer`); the node is the first one at which the running total
exceeds it (`Walk.search`). Nodes of no weight are passed over, and where rounding leaves the running total short, it is
the last node with a weight, which another walk looks up by its position (`Node.selectAt`).

The test is asked in two walks, one for the total weight and one for the search. If it has a state, the second walk goes
on with the state in which the first one has left it, and may get other answers. A condition is a test without a state.
-/

namespace ScopedGrammar

/-- A node that was picked to be generated anew. -/
structure Selection (W : Type) where
  /-- The position of the node in preorder. -/
  index : Nat
  /-- The number of its ancestors. -/
  depth : Nat
  /-- The depth that the node recorded when it was generated. -/
  nodeDepth : Nat
  nonterminal : String
  resampleWeight : W
  /-- The log-probability of the choice. -/
  logProb : W
  /-- The scope at the node. -/
  scope : Scope W

variable {W : Type} [Arith W] {S : Type}

/-- The resample weight of the node of a visit. -/
def Visit.weight (v : Visit W) : W := v.node.label.resampleWeight

/-- The selection of a visited node, where the weights add up to `total`. -/
def Selection.ofVisit (total : W) (v : Visit W) : Selection W where
  index := v.index
  depth := v.depth
  nodeDepth := v.node.label.depth
  nonterminal := v.node.label.nonterminal
  resampleWeight := v.weight
  logProb := Arith.logShare v.weight total
  scope := v.scope

/-- Runs a walk up to the first visit at which the running total exceeds a point, and gives the state of the test there.
If there is none, it gives the position of the last visit with a weight. -/
def Walk.search (point : W) (running : W) (last : Option Nat) (w : Walk W S) : Except (Option Nat) (Visit W) × S :=
  match h : w.step with
  | none => (.error last, w.state)
  | some (none, w') =>
    have := work_lt_of_step h
    search point running last w'
  | some (some v, w') =>
    have := work_lt_of_step h
    if v.weight ≤ Arith.zero then search point running last w'
    else if point < running + v.weight then (.ok v, w'.state)
    else search point (running + v.weight) (some v.index) w'
termination_by w.work

namespace Node

/-- The visits of the nodes that pass a condition in their scope. -/
def visits (tree : Node W) (accepts : NodeTest W) : List (Visit W) := (Walk.ofTree tree accepts true).toList

/-! ## Tests with a state -/

/-- The total resample weight of the nodes that pass a test, and the state that the test is left in. -/
def normalizerWith (tree : Node W) (test : StatefulTest W S) (state : S) : W × S :=
  let (visits, state) := (Walk.start tree test state true).finish
  (Arith.total (visits.map Visit.weight), state)

/-- The selection of the node at a position, where the weights add up to `total`. -/
def selectAt (tree : Node W) (index : Nat) (total : W) : Except (GrammarError W) (Selection W) :=
  match (tree.visits NodeTest.all).find? (·.index == index) with
  | none => .error (.invalidIndex index)
  | some v => .ok (Selection.ofVisit total v)

/-- Picks a node that passes a test with the next draw, and gives the state that the test is left in. Nothing is drawn if
the weights add up to no positive finite number. -/
def selectWith (tree : Node W) (test : StatefulTest W S) (state : S) (draws : List (Draw W)) :
    Except (Failure W) (Selection W) × S × List (Draw W) :=
  let (total, state) := tree.normalizerWith test state
  if !Arith.isPositive total then (.error (.error (.nothingToResample total)), state, draws)
  else
    match draws with
    | [] => (.error .noDraw, state, [])
    | d :: rest =>
      match (Walk.start tree test state true).search (d.uniform * total) Arith.zero none with
      | (.ok v, state) => (.ok (Selection.ofVisit total v), state, rest)
      | (.error none, state) => (.error (.error (.nothingToResample total)), state, rest)
      | (.error (some index), state) => ((tree.selectAt index total).mapError .error, state, rest)

/-! ## Conditions -/

/-- The total resample weight of the nodes that pass a condition. -/
def normalizer (tree : Node W) (accepts : NodeTest W) : W := (tree.normalizerWith accepts.stateless ()).1

/-- Picks a node that passes a condition with the next draw. -/
def select (tree : Node W) (accepts : NodeTest W) (draws : List (Draw W)) :
    Except (Failure W) (Selection W) × List (Draw W) :=
  let (result, _, draws) := tree.selectWith accepts.stateless () draws
  (result, draws)

end Node

end ScopedGrammar

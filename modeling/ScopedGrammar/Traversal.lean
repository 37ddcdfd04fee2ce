import ScopedGrammar.Scope
import ScopedGrammar.Tree

/-!
# Scoped traversal

A walk goes through a tree in preorder and keeps the scope at hand: the rules that the ancestors of a node introduced.
It is lazy. A `Walk` is what is left to do (`Step`) with the scope and the next position; `Walk.next` runs it up to the
next node that is accepted, and leaves that node's own rules and subtrees for the call after. So the scope between two
calls is the one at the node that was visited last. The test of a walk may have a state, which every answer may change.

- `Walk.next` gives the next visit; `Walk.take` gives as many as asked for; `Walk.finish` gives all, and the state of the
  test at the end; `Walk.toList` gives all and no state;
- `Walk.work` bounds what is left to do, and falls with every step.
-/

namespace ScopedGrammar

/-- One step of a walk. -/
inductive Step (W : Type) where
  /-- Visit a node. -/
  | visit (node : Node W) (depth : Nat)
  /-- Go below a node that was visited. -/
  | enter (node : Node W) (depth : Nat)
  /-- Drop the rules that were bound after a mark. -/
  | release (mark : Nat)

/-- A node that a walk has come to. -/
structure Visit (W : Type) where
  node : Node W
  /-- The number of ancestors. -/
  depth : Nat
  /-- The position in preorder, which counts the nodes that were not accepted too. -/
  index : Nat
  /-- The scope at the node: the rules of its ancestors. -/
  scope : Scope W

/-- A condition on a node and the scope at it. -/
abbrev NodeTest (W : Type) := Node W → Scope W → Bool

/-- The test that every node passes. -/
def NodeTest.all {W : Type} : NodeTest W := fun _ _ => true

/-- A test that may depend on what it was asked before: in a state it gives an answer and its next state. -/
abbrev StatefulTest (W S : Type) := S → Node W → Scope W → Bool × S

/-- A condition as a test without a state. -/
def NodeTest.stateless {W : Type} (accepts : NodeTest W) : StatefulTest W Unit :=
  fun _ node scope => (accepts node scope, ())

/-- A walk at some point of its way. -/
structure Walk (W S : Type) where
  /-- The steps that are left. -/
  agenda : List (Step W)
  scope : Scope W
  /-- The position of the next node. -/
  index : Nat
  /-- Whether rules that nodes introduce are brought into scope. -/
  tracksScope : Bool
  test : StatefulTest W S
  /-- The state of the test. -/
  state : S

variable {W S : Type}

namespace Walk

/-- The walk through all of a tree, with a test in its first state. -/
def start (tree : Node W) (test : StatefulTest W S) (state : S) (tracksScope : Bool) : Walk W S :=
  ⟨[.visit tree 0], Scope.empty, 0, tracksScope, test, state⟩

/-- The walk through all of a tree with a condition. -/
def ofTree (tree : Node W) (accepts : NodeTest W) (tracksScope : Bool) : Walk W Unit :=
  start tree accepts.stateless () tracksScope

/-! ## Steps -/

/-- The scope with the rules of a node. -/
def bind (w : Walk W S) (node : Node W) : Scope W :=
  if w.tracksScope then node.label.introduced.foldl Scope.push w.scope else w.scope

/-- Takes one step, which may be a visit that counts. Nothing is left at the end. -/
def step (w : Walk W S) : Option (Option (Visit W) × Walk W S) :=
  match w.agenda with
  | [] => none
  | .visit node depth :: rest =>
    let visit : Visit W := ⟨node, depth, w.index, w.scope⟩
    let answer := w.test w.state node w.scope
    some (if answer.1 then some visit else none,
      { w with agenda := .enter node depth :: rest, index := w.index + 1, state := answer.2 })
  | .enter node depth :: rest =>
    let below := node.subtrees.map fun n => Step.visit n (depth + 1)
    some (none, { w with agenda := below ++ .release w.scope.mark :: rest, scope := w.bind node })
  | .release mark :: rest => some (none, { w with agenda := rest, scope := w.scope.truncate mark })

/-! ## Work left -/

/-- The number of steps that an agenda leads to: three for every node that will be visited. -/
def agendaWork : List (Step W) → Nat
  | [] => 0
  | .visit node _ :: rest => 3 * node.size + agendaWork rest
  | .enter node _ :: rest => 3 * node.size - 1 + agendaWork rest
  | .release _ :: rest => 1 + agendaWork rest

/-- The number of steps that are left. -/
def work (w : Walk W S) : Nat := agendaWork w.agenda

theorem agendaWork_visits (trees : List (Node W)) (depth : Nat) (rest : List (Step W)) :
    agendaWork (trees.map (Step.visit · depth) ++ rest) = 3 * (trees.flatMap Node.nodes).length + agendaWork rest := by
  induction trees with
  | nil => simp
  | cons n ns ih =>
    simp only [List.map_cons, List.cons_append, agendaWork, ih, Node.size, List.flatMap_cons, List.length_append]
    omega

/-- Every step leaves less to do. -/
theorem work_lt_of_step {w w' : Walk W S} {visit? : Option (Visit W)} (h : w.step = some (visit?, w')) :
    w'.work < w.work := by
  have size_pos (n : Node W) : n.size = n.children.nodes.length + 1 := rfl
  unfold step at h
  split at h
  · cases h
  · rename_i node depth rest e
    cases h
    simp only [work, e, agendaWork, size_pos]
    omega
  · rename_i node depth rest e
    cases h
    simp only [work, e, agendaWork, agendaWork_visits, size_pos, Forest.nodes_eq_flatMap_roots, Node.subtrees]
    omega
  · rename_i mark rest e
    cases h
    simp only [work, e, agendaWork]
    omega

/-! ## Visits -/

/-- The next visit, with the walk as it stands there. Once a walk has ended it gives no more visits. -/
def next (w : Walk W S) : Option (Visit W) × Walk W S :=
  match h : w.step with
  | none => (none, w)
  | some (some visit, w') => (some visit, w')
  | some (none, w') =>
    have := work_lt_of_step h
    next w'
termination_by w.work

/-- The next visits, up to a number, with the walk as it stands after them. -/
def take : Nat → Walk W S → List (Visit W) × Walk W S
  | 0, w => ([], w)
  | n + 1, w =>
    match w.next with
    | (none, w') => ([], w')
    | (some visit, w') =>
      let (visits, w'') := take n w'
      (visit :: visits, w'')

/-- All visits that are left, and the state of the test behind them. -/
def finish (w : Walk W S) : List (Visit W) × S :=
  match h : w.step with
  | none => ([], w.state)
  | some (visit?, w') =>
    have := work_lt_of_step h
    let (visits, state) := finish w'
    (visit?.toList ++ visits, state)
termination_by w.work

/-- All visits that are left. -/
def toList (w : Walk W S) : List (Visit W) := w.finish.1

end Walk

end ScopedGrammar

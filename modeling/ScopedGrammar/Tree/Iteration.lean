import ScopedGrammar.Tree

/-!
# Iteration with a stack

The nodes of a tree can be listed without recursion, from a stack of the nodes that are still to come. The topmost node
comes off the stack, and its subtrees go on it one after another. This leaves the last one on top, so what was put on
the stack is turned round where it lies (`Iteration.next`).

An iteration that is run to its end lists the nodes in preorder (`Node.toList_iterate`).
-/

namespace ScopedGrammar

variable {W : Type}

/-- An iteration at some point of its way: the nodes on the stack, from the top down. -/
structure Iteration (W : Type) where
  stack : List (Node W)

/-- Puts the topmost nodes of a forest on a stack, one after another. -/
def Forest.pushRoots : Forest W → List (Node W) → List (Node W)
  | nil, stack => stack
  | leaf _ rest, stack => pushRoots rest stack
  | seq inside rest, stack => pushRoots rest (pushRoots inside stack)
  | node label children rest, stack => pushRoots rest (⟨label, children⟩ :: stack)

/-- The iteration over all of a tree. -/
def Node.iterate (tree : Node W) : Iteration W := ⟨[tree]⟩

namespace Iteration

/-- Turns round what lies on a stack above its lowest entries, as many as `mark`. -/
def turnAbove (mark : Nat) (stack : List (Node W)) : List (Node W) :=
  (stack.take (stack.length - mark)).reverse ++ stack.drop (stack.length - mark)

/-- The next node, with the iteration as it stands then. -/
def next : Iteration W → Option (Node W × Iteration W)
  | ⟨[]⟩ => none
  | ⟨node :: rest⟩ => some (node, ⟨turnAbove rest.length (node.children.pushRoots rest)⟩)

/-! ## Work left -/

theorem pushRoots_eq (forest : Forest W) : ∀ stack, forest.pushRoots stack = forest.roots.reverse ++ stack := by
  induction forest with
  | nil => intro stack; rfl
  | leaf s rest ih => exact ih
  | seq inside rest ihi ihr => intro stack; simp [Forest.pushRoots, Forest.roots, ihi, ihr]
  | node label children rest _ ihr => intro stack; simp [Forest.pushRoots, Forest.roots, ihr]

/-- The subtrees of a node take its place, in their order. -/
theorem turnAbove_pushRoots (forest : Forest W) (stack : List (Node W)) :
    turnAbove stack.length (forest.pushRoots stack) = forest.roots ++ stack := by
  have hlength : (forest.roots.reverse ++ stack).length - stack.length = forest.roots.reverse.length := by simp
  rw [turnAbove, pushRoots_eq, hlength, List.take_left, List.drop_left, List.reverse_reverse]

/-- The nodes that are still to come. -/
def ahead (it : Iteration W) : List (Node W) := it.stack.flatMap Node.nodes

theorem ahead_of_next {it it' : Iteration W} {node : Node W} (h : it.next = some (node, it')) :
    it.ahead = node :: it'.ahead := by
  obtain ⟨_ | ⟨top, rest⟩⟩ := it
  · cases h
  · cases h
    rw [ahead, ahead, turnAbove_pushRoots, List.flatMap_append, ← Forest.nodes_eq_flatMap_roots]
    rfl

theorem length_ahead_lt_of_next {it it' : Iteration W} {node : Node W} (h : it.next = some (node, it')) :
    it'.ahead.length < it.ahead.length := by
  rw [ahead_of_next h]
  exact Nat.lt_succ_self _

/-- All nodes that are left. -/
def toList (it : Iteration W) : List (Node W) :=
  match h : it.next with
  | none => []
  | some (node, it') =>
    have := length_ahead_lt_of_next h
    node :: toList it'
termination_by it.ahead.length

/-- What is listed is what is still to come. -/
theorem toList_eq_ahead (it : Iteration W) : it.toList = it.ahead := by
  fun_induction toList it with
  | case1 it h =>
    obtain ⟨_ | ⟨top, rest⟩⟩ := it
    · rfl
    · cases h
  | case2 it node it' h _ ih => rw [ih, ahead_of_next h]

end Iteration

/-- An iteration lists the nodes of its tree in preorder. -/
theorem Node.toList_iterate (tree : Node W) : tree.iterate.toList = tree.nodes := by
  rw [Iteration.toList_eq_ahead]
  exact List.append_nil _

end ScopedGrammar

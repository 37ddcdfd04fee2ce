import ScopedGrammar.Tree

/-!
# Positions in trees

A position is the number of nodes before a node in preorder. `Node.get?` looks a node up and `Node.modifyAt?` changes
the node at a position, with everything below it, in place.
-/

namespace ScopedGrammar

variable {W : Type}

/-- Changes the node at a position of a forest. A forest with too few nodes gives what is left of the position behind
it. -/
def Forest.modifyAt (f : Node W → Node W) : Nat → Forest W → Except Nat (Forest W)
  | i, .nil => .error i
  | i, .leaf s rest => (modifyAt f i rest).map (.leaf s)
  | i, .seq inside rest =>
    match modifyAt f i inside with
    | .ok inside' => .ok (.seq inside' rest)
    | .error left => (modifyAt f left rest).map (.seq inside)
  | 0, .node label children rest =>
    let n := f ⟨label, children⟩
    .ok (.node n.label n.children rest)
  | i + 1, .node label children rest =>
    match modifyAt f i children with
    | .ok children' => .ok (.node label children' rest)
    | .error left => (modifyAt f left rest).map (.node label children)

namespace Node

/-- The node at a position. -/
def get? (n : Node W) (index : Nat) : Option (Node W) := n.nodes[index]?

/-- Changes the node at a position, with everything below it. -/
def modifyAt? (n : Node W) (index : Nat) (f : Node W → Node W) : Option (Node W) :=
  match index with
  | 0 => some (f n)
  | i + 1 => (n.children.modifyAt f i).toOption.map fun children => ⟨n.label, children⟩

/-- Puts a tree in the place of the node at a position. -/
def replaceAt? (n : Node W) (index : Nat) (new : Node W) : Option (Node W) := n.modifyAt? index fun _ => new

end Node

end ScopedGrammar

import ScopedGrammar.Tree

/-!
# Text of trees

A node is written as its name, applied to its children if it has any. A node without a name that has one child is
written as that child.
-/

namespace ScopedGrammar

variable {W : Type}

/-- The text of a node, given the texts of its children. -/
def Label.printOver (label : Label W) (children : List (List Char)) : List Char :=
  match label.name.isEmpty, children with
  | true, [child] => child
  | true, [] => []
  | true, _ => Symbol.parenthesized children
  | false, [] => Symbol.print label.name
  | false, _ => Symbol.print label.name ++ Symbol.parenthesized children

/-- The text of every child. -/
def Forest.texts : Forest W → List (List Char)
  | nil => []
  | leaf s rest => Symbol.print s :: texts rest
  | seq inside rest => Symbol.bracketed (texts inside) :: texts rest
  | node label children rest => label.printOver (texts children) :: texts rest

/-- The text of a tree. -/
def Node.print (n : Node W) : List Char := n.label.printOver n.children.texts

/-- The text of a child. -/
def Child.print : Child W → List Char
  | leaf s => Symbol.print s
  | seq inside => Symbol.bracketed inside.texts
  | node n => n.print

end ScopedGrammar

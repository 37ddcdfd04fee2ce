import ScopedGrammar.Rule

/-!
# Derivation trees

A node keeps the choice that was made there (`Label`): which rule, with what log-probability, the rules it brought into
scope for its children, and its depth. Its children (`Forest`) stand for the items of the rule's right-hand side: a node
for a nonterminal, a leaf for a terminal, a sequence for a sequence.

All positions in a tree count its nodes in preorder (`Node.nodes`), looking through sequences.
-/

namespace ScopedGrammar

/-- What a node keeps of the choice that was made there. -/
structure Label (W : Type) where
  nonterminal : String
  /-- The name of the rule. -/
  name : String
  ruleId : Int
  /-- The log-probability of this choice alone. -/
  logProb : W
  resampleWeight : W
  /-- The rules for variables that the node brings into scope for its children. -/
  introduced : List (Rule W)
  /-- The depth that was given for the node. It is a machine word; that it wraps around behind the largest word is left
  out. -/
  depth : Nat

/-- A list of nodes, leaves and sequences: the children of a node, or the inside of a sequence. -/
inductive Forest (W : Type) where
  | nil
  | leaf (symbol : String) (rest : Forest W)
  | seq (inside rest : Forest W)
  | node (label : Label W) (children rest : Forest W)

/-- A derivation tree, or a node with all below it. -/
structure Node (W : Type) where
  label : Label W
  children : Forest W

/-- One entry of a forest. -/
inductive Child (W : Type) where
  | leaf (symbol : String)
  | seq (inside : Forest W)
  | node (tree : Node W)

variable {W : Type}

/-! ## Forests -/

namespace Forest

/-- A child in front of others. -/
def cons : Child W → Forest W → Forest W
  | .leaf s, rest => leaf s rest
  | .seq inside, rest => seq inside rest
  | .node n, rest => node n.label n.children rest

/-- The children of a list. -/
def ofList (children : List (Child W)) : Forest W := children.foldr cons nil

/-- The children one by one. -/
def toList : Forest W → List (Child W)
  | nil => []
  | leaf s rest => .leaf s :: toList rest
  | seq inside rest => .seq inside :: toList rest
  | node label children rest => .node ⟨label, children⟩ :: toList rest

@[simp] theorem toList_cons (child : Child W) (rest : Forest W) : (cons child rest).toList = child :: rest.toList := by
  cases child <;> rfl

@[simp] theorem toList_ofList (children : List (Child W)) : (ofList children).toList = children := by
  induction children with
  | nil => rfl
  | cons child rest ih => rw [ofList, List.foldr_cons, toList_cons, ← ofList, ih]

@[simp] theorem ofList_toList (forest : Forest W) : ofList forest.toList = forest := by
  induction forest with
  | nil => rfl
  | leaf s rest ih => rw [toList, ofList, List.foldr_cons, ← ofList, ih, cons]
  | seq inside rest _ ih => rw [toList, ofList, List.foldr_cons, ← ofList, ih, cons]
  | node label children rest _ ih => rw [toList, ofList, List.foldr_cons, ← ofList, ih, cons]

/-- All nodes in preorder. -/
def nodes : Forest W → List (Node W)
  | nil => []
  | leaf _ rest => nodes rest
  | seq inside rest => nodes inside ++ nodes rest
  | node label children rest => ⟨label, children⟩ :: (nodes children ++ nodes rest)

/-- The topmost nodes. -/
def roots : Forest W → List (Node W)
  | nil => []
  | leaf _ rest => roots rest
  | seq inside rest => roots inside ++ roots rest
  | node label children rest => ⟨label, children⟩ :: roots rest

/-- The terminals, from left to right. -/
def leaves : Forest W → List String
  | nil => []
  | leaf s rest => s :: leaves rest
  | seq inside rest => leaves inside ++ leaves rest
  | node _ children rest => leaves children ++ leaves rest

/-- The number of nodes on the longest path downwards. -/
def height : Forest W → Nat
  | nil => 0
  | leaf _ rest => height rest
  | seq inside rest => max (height inside) (height rest)
  | node _ children rest => max (1 + height children) (height rest)

end Forest

/-! ## Nodes -/

namespace Node

/-- The node that a rule builds, with the variables it introduced. -/
def ofRule (r : Rule W) (children : Forest W) (logProb : W) (introduced : List (Rule W)) (depth : Nat) : Node W where
  label :=
    { nonterminal := r.nonterminal, name := r.name, ruleId := r.id, logProb, resampleWeight := r.resampleWeight,
      introduced, depth }
  children := children

/-- All nodes in preorder. -/
def nodes (n : Node W) : List (Node W) := n :: n.children.nodes

/-- The nodes directly below, looking through sequences. -/
def subtrees (n : Node W) : List (Node W) := n.children.roots

/-- The number of nodes. -/
def size (n : Node W) : Nat := n.nodes.length

/-- The number of nodes on the longest path downwards. -/
def height (n : Node W) : Nat := 1 + n.children.height

/-- The terminals, from left to right. -/
def leaves (n : Node W) : List String := n.children.leaves

/-- Whether the node stands for a bound variable. -/
def isVariable (n : Node W) : Bool := decide (n.label.ruleId < 0)

/-- The log-probability of all choices, added in preorder. -/
def logProbability [Arith W] (n : Node W) : W := Arith.total (n.nodes.map (·.label.logProb))

/-- The ids of the rules that were used or introduced, in preorder. -/
def ruleIds (n : Node W) : List Int := n.nodes.flatMap fun m => m.label.ruleId :: m.label.introduced.map (·.id)

/-- The lowest id of a rule that was used or introduced. -/
def lowestRuleId (n : Node W) : Int := n.ruleIds.foldl min n.label.ruleId

end Node

/-- The nodes of a forest are those of its topmost trees, one after another. -/
theorem Forest.nodes_eq_flatMap_roots (forest : Forest W) : forest.nodes = forest.roots.flatMap Node.nodes := by
  induction forest with
  | nil => rfl
  | leaf s rest ih => exact ih
  | seq inside rest ihi ihr => rw [nodes, roots, List.flatMap_append, ihi, ihr]
  | node label children rest _ ihr => rw [nodes, roots, List.flatMap_cons, ihr]; rfl

/-! ## Equality -/

/-- Labels are compared field by field, introduced rules as alternatives. -/
instance [BEq W] : BEq (Label W) where
  beq a b :=
    a.nonterminal == b.nonterminal && a.name == b.name && a.ruleId == b.ruleId && a.logProb == b.logProb
      && a.resampleWeight == b.resampleWeight && a.introduced == b.introduced && a.depth == b.depth

/-- Whether two forests have the same shape and labels. -/
def Forest.same [BEq W] : Forest W → Forest W → Bool
  | .nil, .nil => true
  | .leaf a as, .leaf b bs => a == b && same as bs
  | .seq as' as, .seq bs' bs => same as' bs' && same as bs
  | .node a as' as, .node b bs' bs => a == b && same as' bs' && same as bs
  | _, _ => false

/-- Trees are compared by shape and labels. -/
instance [BEq W] : BEq (Node W) := ⟨fun a b => a.label == b.label && a.children.same b.children⟩

end ScopedGrammar

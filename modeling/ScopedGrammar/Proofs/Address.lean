import ScopedGrammar.Proofs.Hole

/-!
# Addresses in trees

Positions count nodes, so a change moves all that comes later. An address stays: it leads from the root downwards, and
says each time at which child to go on (`Node.at?`). `Node.addresses` lists those of the nodes in preorder, each leading
to its node (`Node.map_at?_addresses`).

What a hole is plugged with has no influence on the address of the hole, and on no entry whose address does not go
through it (`Hole.entryAt_plug`). So the trees that a hole makes of two nodes differ at its place only
(`Hole.replaces`).
-/

namespace ScopedGrammar

variable {W : Type}

/-! ## Entries at addresses -/

/-- What stands at an address of a tree, apart from what is below it. -/
inductive Entry (W : Type) where
  | leaf (symbol : String)
  | seq
  | node (label : Label W)

namespace Child

/-- A child without what is below it. -/
def entry : Child W → Entry W
  | leaf s => .leaf s
  | seq _ => .seq
  | node n => .node n.label

/-- What is below a child. -/
def below : Child W → Forest W
  | leaf _ => .nil
  | seq inside => inside
  | node n => n.children

/-- What an address leads to, from a child. -/
def at? : Child W → List Nat → Option (Child W)
  | child, [] => some child
  | child, i :: address => child.below.toList[i]?.bind fun next => next.at? address

end Child

namespace Forest

/-- What an address leads to in a forest, where it starts with the position of a child. -/
def at? (forest : Forest W) : List Nat → Option (Child W)
  | [] => none
  | i :: address => forest.toList[i]?.bind fun child => child.at? address

/-- The entry at an address. -/
def entryAt (forest : Forest W) (address : List Nat) : Option (Entry W) := (forest.at? address).map Child.entry

/-- The addresses of all nodes in preorder. -/
def addresses : Forest W → List (List Nat)
  | nil => []
  | leaf _ rest => rest.addresses.map (List.modifyHead (· + 1))
  | seq inside rest => inside.addresses.map (0 :: ·) ++ rest.addresses.map (List.modifyHead (· + 1))
  | node _ children rest =>
    [0] :: (children.addresses.map (0 :: ·) ++ rest.addresses.map (List.modifyHead (· + 1)))

end Forest

namespace Node

/-- What an address leads to in a tree. -/
def at? (t : Node W) (address : List Nat) : Option (Child W) := (Child.node t).at? address

/-- The entry at an address. -/
def entryAt (t : Node W) (address : List Nat) : Option (Entry W) := (t.at? address).map Child.entry

/-- The addresses of all nodes in preorder. -/
def addresses (t : Node W) : List (List Nat) := [] :: t.children.addresses

end Node

/-! ## Addresses of nodes -/

theorem Child.at?_of_ne_nil (child : Child W) {address : List Nat} (h : address ≠ []) :
    child.at? address = child.below.at? address := by
  cases address with
  | nil => exact absurd rfl h
  | cons i rest => rfl

namespace Forest

/-- An address in the rest of a forest is counted one child further in the forest itself. -/
@[simp] theorem at?_leaf_modifyHead (s : String) (rest : Forest W) (address : List Nat) :
    (leaf s rest).at? (address.modifyHead (· + 1)) = rest.at? address := by cases address <;> rfl

@[simp] theorem at?_seq_modifyHead (inside rest : Forest W) (address : List Nat) :
    (seq inside rest).at? (address.modifyHead (· + 1)) = rest.at? address := by cases address <;> rfl

@[simp] theorem at?_node_modifyHead (label : Label W) (children rest : Forest W) (address : List Nat) :
    (node label children rest).at? (address.modifyHead (· + 1)) = rest.at? address := by cases address <;> rfl

theorem nil_notMem_addresses (forest : Forest W) : [] ∉ forest.addresses := by
  induction forest <;> simp_all [addresses, List.modifyHead_eq_nil_iff]

/-- The addresses of a forest below a child lead from the child to the same. -/
theorem map_at?_below (child : Child W) :
    child.below.addresses.map child.at? = child.below.addresses.map child.below.at? :=
  List.map_congr_left fun _ h => child.at?_of_ne_nil fun hnil => nil_notMem_addresses child.below (hnil ▸ h)

/-- Each address leads to its node. -/
theorem map_at?_addresses (forest : Forest W) :
    forest.addresses.map forest.at? = forest.nodes.map fun n => some (.node n) := by
  induction forest with
  | nil => rfl
  | leaf s rest ih =>
    rw [addresses, nodes, List.map_map, ← ih]
    exact List.map_congr_left fun address _ => at?_leaf_modifyHead s rest address
  | seq inside rest ihi ihr =>
    rw [addresses, nodes, List.map_append, List.map_append, List.map_map, List.map_map, ← ihi, ← ihr]
    congr 1
    · exact map_at?_below (.seq inside)
    · exact List.map_congr_left fun address _ => at?_seq_modifyHead inside rest address
  | node label children rest ihc ihr =>
    rw [addresses, nodes, List.map_cons, List.map_cons, List.map_append, List.map_append, List.map_map, List.map_map,
      ← ihc, ← ihr]
    congr 2
    · exact map_at?_below (.node ⟨label, children⟩)
    · exact List.map_congr_left fun address _ => at?_node_modifyHead label children rest address

end Forest

@[simp] theorem Forest.length_addresses (forest : Forest W) : forest.addresses.length = forest.nodes.length := by
  simpa using congrArg List.length forest.map_at?_addresses

/-- Each address leads to its node. -/
theorem Node.map_at?_addresses (t : Node W) : t.addresses.map t.at? = t.nodes.map fun n => some (.node n) := by
  rw [addresses, nodes, List.map_cons, List.map_cons, ← t.children.map_at?_addresses]
  exact congrArg _ (Forest.map_at?_below (.node t))

/-- The node at the address of a position. -/
theorem Node.at?_of_addresses {t n : Node W} {i : Nat} {address : List Nat} (h : t.addresses[i]? = some address)
    (hn : t.get? i = some n) : t.at? address = some (.node n) := by
  have hmap := congrArg (·[i]?) t.map_at?_addresses
  simp only [List.getElem?_map, h, show t.nodes[i]? = some n from hn, Option.map_some, Option.some.injEq] at hmap
  exact hmap

/-! ## Holes at addresses -/

theorem isPrefix_modifyHead {α : Type} {as bs : List α} (h : as <+: bs) (f : α → α) :
    as.modifyHead f <+: bs.modifyHead f := by
  cases as with
  | nil => exact List.nil_prefix
  | cons a as =>
    obtain ⟨rest, rfl⟩ := h
    exact ⟨rest, rfl⟩

namespace Hole

/-- The address of the hole. -/
def address : Hole W → List Nat
  | here _ => [0]
  | afterLeaf _ hole => hole.address.modifyHead (· + 1)
  | inSeq hole _ => 0 :: hole.address
  | afterSeq _ hole => hole.address.modifyHead (· + 1)
  | under _ hole _ => 0 :: hole.address
  | afterNode _ _ hole => hole.address.modifyHead (· + 1)

/-- The address at the position of a hole is that of the hole. -/
theorem getElem?_addresses_plug (n : Node W) (hole : Hole W) :
    (hole.plug n).addresses[hole.index]? = some hole.address := by
  unfold index
  induction hole with
  | here rest => rfl
  | afterLeaf s hole ih => simp [plug, before, Forest.addresses, address, ih]
  | inSeq hole rest ih =>
    have hlt := (List.getElem?_eq_some_iff.mp ih).1
    rw [plug, before, Forest.addresses, List.getElem?_append_left (by simpa using hlt), List.getElem?_map, ih]
    rfl
  | afterSeq inside hole ih =>
    simp [plug, before, Forest.addresses, address, List.getElem?_append_right, ih]
  | under label hole rest ih =>
    have hlt := (List.getElem?_eq_some_iff.mp ih).1
    rw [plug, before, Forest.addresses, List.length_cons, List.getElem?_cons_succ,
      List.getElem?_append_left (by simpa using hlt), List.getElem?_map, ih]
    rfl
  | afterNode label children hole ih =>
    simp [plug, before, Forest.addresses, address, List.getElem?_append_right, ih]

/-- An entry whose address does not go through a hole does not depend on what is in the hole. -/
theorem entryAt_plug (n n' : Node W) : ∀ (hole : Hole W) (address : List Nat), ¬ hole.address <+: address →
    (hole.plug n).entryAt address = (hole.plug n').entryAt address
  | _, [], _ => rfl
  | here _, 0 :: _, h => (h (List.cons_prefix_cons.mpr ⟨rfl, List.nil_prefix⟩)).elim
  | inSeq _ _, [0], _ | under _ _ _, [0], _ => rfl
  | inSeq hole _, 0 :: i :: below, h | under _ hole _, 0 :: i :: below, h =>
    entryAt_plug n n' hole (i :: below) fun hp => h (List.cons_prefix_cons.mpr ⟨rfl, hp⟩)
  | here _, (_ + 1) :: _, _ | inSeq _ _, (_ + 1) :: _, _ | under _ _ _, (_ + 1) :: _, _ => rfl
  | afterLeaf _ _, 0 :: _, _ | afterSeq _ _, 0 :: _, _ | afterNode _ _ _, 0 :: _, _ => rfl
  | afterLeaf _ hole, (i + 1) :: below, h | afterSeq _ hole, (i + 1) :: below, h
  | afterNode _ _ hole, (i + 1) :: below, h =>
    entryAt_plug n n' hole (i :: below) fun hp => h (isPrefix_modifyHead hp _)

end Hole

/-! ## One tree for another -/

/-- A tree becomes another one, as the node at a position gives place to a new one. -/
structure Node.Replaces (t t' : Node W) (i : Nat) (n n' : Node W) : Prop where
  old : t.get? i = some n
  new : t'.get? i = some n'
  /-- In preorder, the new nodes stand where the old ones stood. -/
  labels : t'.labels = t.labels.take i ++ (n'.labels ++ t.labels.drop (i + n.size))
  /-- Both stand at one address, and what is not at or below that address keeps its own. -/
  elsewhere : ∃ address, t.addresses[i]? = some address ∧ t'.addresses[i]? = some address ∧
    t.at? address = some (.node n) ∧ t'.at? address = some (.node n') ∧
      ∀ other, ¬ address <+: other → t'.entryAt other = t.entryAt other

theorem Node.addresses_alone (t : Node W) : t.alone.addresses = t.addresses.map (0 :: ·) := by
  simp [alone, Forest.addresses, addresses]

/-- Two trees that differ in what a hole is plugged with. -/
theorem Hole.replaces {hole : Hole W} {n n' t t' : Node W} (h : hole.plug n = t.alone) (h' : hole.plug n' = t'.alone) :
    t.Replaces t' hole.index n n' := by
  have haddress := hole.getElem?_addresses_plug n
  have haddress' := hole.getElem?_addresses_plug n'
  rw [h, Node.addresses_alone, List.getElem?_map] at haddress
  rw [h', Node.addresses_alone, List.getElem?_map] at haddress'
  obtain ⟨address, ha, hroot⟩ := Option.map_eq_some_iff.mp haddress
  obtain ⟨address', ha', hroot'⟩ := Option.map_eq_some_iff.mp haddress'
  obtain rfl : address' = address := List.tail_eq_of_cons_eq (hroot'.trans hroot.symm)
  have hold : t.get? hole.index = some n := by
    rw [Node.get?, ← t.nodes_alone, ← h]
    exact hole.getElem?_nodes_plug n
  have hnew : t'.get? hole.index = some n' := by
    rw [Node.get?, ← t'.nodes_alone, ← h']
    exact hole.getElem?_nodes_plug n'
  refine ⟨hold, hnew, ?_, address', ha, ha', Node.at?_of_addresses ha hold, Node.at?_of_addresses ha' hnew,
    fun other hother => ?_⟩
  · rw [take_labels h, drop_labels h, labels_of_plug h']
  · have hframe := hole.entryAt_plug n' n (0 :: other) fun hp => hother (List.cons_prefix_cons.mp (hroot ▸ hp)).2
    rwa [h, h'] at hframe

end ScopedGrammar

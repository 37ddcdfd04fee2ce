import ScopedGrammar.Tree.Position

/-!
# Forests with a hole

A `Hole` is a forest in which one node, with everything below it, is left out; `Hole.plug` puts a node there. It says
what surrounds a node: the labels before and after it in preorder (`labels_plug`), the rules that its ancestors
introduced (`Hole.introduced`) and their number (`Hole.depth`). A change at a position is a change of what the hole at
that position is plugged with (`modifyAt_plug`, `replaceAt?_eq_some`).
-/

namespace ScopedGrammar

variable {W : Type}

/-! ## Labels in preorder -/

/-- The labels of all nodes in preorder. -/
def Forest.labels (forest : Forest W) : List (Label W) := forest.nodes.map (·.label)

/-- The labels of all nodes in preorder. -/
def Node.labels (n : Node W) : List (Label W) := n.nodes.map (·.label)

namespace Forest

@[simp] theorem labels_nil : (nil : Forest W).labels = [] := rfl

@[simp] theorem labels_leaf (s : String) (rest : Forest W) : (leaf s rest).labels = rest.labels := rfl

@[simp] theorem labels_seq (inside rest : Forest W) : (seq inside rest).labels = inside.labels ++ rest.labels := by
  simp [labels, nodes]

@[simp] theorem labels_node (label : Label W) (children rest : Forest W) :
    (node label children rest).labels = label :: (children.labels ++ rest.labels) := by
  simp [labels, nodes]

@[simp] theorem length_labels (forest : Forest W) : forest.labels.length = forest.nodes.length := by simp [labels]

end Forest

@[simp] theorem Node.labels_eq (n : Node W) : n.labels = n.label :: n.children.labels := rfl

theorem Node.length_labels (n : Node W) : n.labels.length = n.size := List.length_map ..

/-- A tree as a forest of its own. -/
def Node.alone (n : Node W) : Forest W := .node n.label n.children .nil

@[simp] theorem Node.nodes_alone (n : Node W) : n.alone.nodes = n.nodes := by simp [alone, Forest.nodes, nodes]

@[simp] theorem Node.labels_alone (n : Node W) : n.alone.labels = n.labels := by simp [alone]

theorem Node.alone_injective {a b : Node W} (h : a.alone = b.alone) : a = b := by
  cases a; cases b; cases h; rfl

/-! ## Holes -/

/-- A forest in which one node is left out. -/
inductive Hole (W : Type) where
  | here (rest : Forest W)
  | afterLeaf (symbol : String) (hole : Hole W)
  | inSeq (hole : Hole W) (rest : Forest W)
  | afterSeq (inside : Forest W) (hole : Hole W)
  | under (label : Label W) (hole : Hole W) (rest : Forest W)
  | afterNode (label : Label W) (children : Forest W) (hole : Hole W)

namespace Hole

/-- The forest with a node in the place of the hole. -/
def plug : Hole W → Node W → Forest W
  | here rest, n => .node n.label n.children rest
  | afterLeaf s hole, n => .leaf s (hole.plug n)
  | inSeq hole rest, n => .seq (hole.plug n) rest
  | afterSeq inside hole, n => .seq inside (hole.plug n)
  | under label hole rest, n => .node label (hole.plug n) rest
  | afterNode label children hole, n => .node label children (hole.plug n)

/-- The labels that stand before the hole in preorder. -/
def before : Hole W → List (Label W)
  | here _ => []
  | afterLeaf _ hole => hole.before
  | inSeq hole _ => hole.before
  | afterSeq inside hole => inside.labels ++ hole.before
  | under label hole _ => label :: hole.before
  | afterNode label children hole => label :: (children.labels ++ hole.before)

/-- The labels that stand after the hole in preorder. -/
def after : Hole W → List (Label W)
  | here rest => rest.labels
  | afterLeaf _ hole => hole.after
  | inSeq hole rest => hole.after ++ rest.labels
  | afterSeq _ hole => hole.after
  | under _ hole rest => hole.after ++ rest.labels
  | afterNode _ _ hole => hole.after

/-- The rules that the ancestors of the hole introduced, outermost first. -/
def introduced : Hole W → List (Rule W)
  | here _ => []
  | afterLeaf _ hole => hole.introduced
  | inSeq hole _ => hole.introduced
  | afterSeq _ hole => hole.introduced
  | under label hole _ => label.introduced ++ hole.introduced
  | afterNode _ _ hole => hole.introduced

/-- The number of ancestors of the hole. -/
def depth : Hole W → Nat
  | here _ => 0
  | afterLeaf _ hole => hole.depth
  | inSeq hole _ => hole.depth
  | afterSeq _ hole => hole.depth
  | under _ hole _ => hole.depth + 1
  | afterNode _ _ hole => hole.depth

/-- The position of the hole. -/
def index (hole : Hole W) : Nat := hole.before.length

/-- The labels around a hole do not depend on what it is plugged with. -/
theorem labels_plug (hole : Hole W) (n : Node W) : (hole.plug n).labels = hole.before ++ (n.labels ++ hole.after) := by
  induction hole with
  | here rest => simp [plug, before, after]
  | afterLeaf s hole ih => simpa [plug, before, after] using ih
  | inSeq hole rest ih => simp [plug, before, after, ih]
  | afterSeq inside hole ih => simp [plug, before, after, ih]
  | under label hole rest ih => simp [plug, before, after, ih]
  | afterNode label children hole ih => simp [plug, before, after, ih]

section

variable {hole : Hole W} {n t : Node W} (h : hole.plug n = t.alone)

include h

theorem labels_of_plug : t.labels = hole.before ++ (n.labels ++ hole.after) := by
  rw [← hole.labels_plug, h, Node.labels_alone]

theorem take_labels : t.labels.take hole.index = hole.before := by
  rw [labels_of_plug h, index, List.take_left]

theorem drop_labels : t.labels.drop (hole.index + n.size) = hole.after := by
  rw [labels_of_plug h, index, ← n.length_labels, ← List.drop_drop, List.drop_left, List.drop_left]

/-- A tree has the nodes around a hole and those that are plugged. -/
theorem size_of_plug : t.size = hole.index + n.size + hole.after.length := by
  have hlength := congrArg List.length (labels_of_plug h)
  rw [List.length_append, List.length_append, n.length_labels, t.length_labels] at hlength
  rw [hlength, index, Nat.add_assoc]

end

/-- The rules in scope at a hole come from labels before it. -/
theorem mem_before_of_mem_introduced {v : Rule W} : ∀ hole : Hole W, v ∈ hole.introduced →
    ∃ l ∈ hole.before, v ∈ l.introduced
  | here _, h => by cases h
  | afterLeaf _ hole, h => mem_before_of_mem_introduced hole h
  | inSeq hole _, h => mem_before_of_mem_introduced hole h
  | afterSeq inside hole, h => by
    obtain ⟨l, hl, hv⟩ := mem_before_of_mem_introduced hole h
    exact ⟨l, List.mem_append_right _ hl, hv⟩
  | under label hole _, h => by
    rcases List.mem_append.mp h with h | h
    · exact ⟨label, List.mem_cons_self, h⟩
    · obtain ⟨l, hl, hv⟩ := mem_before_of_mem_introduced hole h
      exact ⟨l, List.mem_cons_of_mem _ hl, hv⟩
  | afterNode label children hole, h => by
    obtain ⟨l, hl, hv⟩ := mem_before_of_mem_introduced hole h
    exact ⟨l, List.mem_cons_of_mem _ (List.mem_append_right _ hl), hv⟩

/-- The nodes below a hole stand together in preorder, from the position of the hole on. -/
theorem exists_nodes_plug (n : Node W) : ∀ hole : Hole W, ∃ before after : List (Node W),
    (hole.plug n).nodes = before ++ (n.nodes ++ after) ∧ before.length = hole.index
  | here rest => ⟨[], rest.nodes, rfl, rfl⟩
  | afterLeaf _ hole => exists_nodes_plug n hole
  | inSeq hole rest => by
    obtain ⟨as, bs, hn, hl⟩ := exists_nodes_plug n hole
    exact ⟨as, bs ++ rest.nodes, by simp [plug, Forest.nodes, hn], hl⟩
  | afterSeq inside hole => by
    obtain ⟨as, bs, hn, hl⟩ := exists_nodes_plug n hole
    exact ⟨inside.nodes ++ as, bs, by simp [plug, Forest.nodes, hn], by simp [hl, index, before]⟩
  | under label hole rest => by
    obtain ⟨as, bs, hn, hl⟩ := exists_nodes_plug n hole
    exact ⟨⟨label, hole.plug n⟩ :: as, bs ++ rest.nodes, by simp [plug, Forest.nodes, hn], by simp [hl, index, before]⟩
  | afterNode label children hole => by
    obtain ⟨as, bs, hn, hl⟩ := exists_nodes_plug n hole
    exact ⟨⟨label, children⟩ :: (children.nodes ++ as), bs, by simp [plug, Forest.nodes, hn],
      by simp [hl, index, before]⟩

/-- A node stands at the position of the hole that it is plugged into. -/
theorem getElem?_nodes_plug (n : Node W) (hole : Hole W) : (hole.plug n).nodes[hole.index]? = some n := by
  obtain ⟨as, bs, hn, hl⟩ := exists_nodes_plug n hole
  rw [hn, ← hl, List.getElem?_append_right (Nat.le_refl _), Nat.sub_self]
  rfl

/-- A hole in a tree stays a hole in a tree, whatever it is plugged with. -/
theorem exists_alone {hole : Hole W} {n t : Node W} (h : hole.plug n = t.alone) (n' : Node W) :
    ∃ t' : Node W, hole.plug n' = t'.alone := by
  cases hole with
  | here rest =>
    obtain ⟨_, _, rfl⟩ := Forest.node.inj h
    exact ⟨n', rfl⟩
  | under label hole rest =>
    obtain ⟨_, _, rfl⟩ := Forest.node.inj h
    exact ⟨⟨label, hole.plug n'⟩, rfl⟩
  | afterNode label children hole =>
    obtain ⟨_, _, h⟩ := Forest.node.inj h
    cases hole <;> cases h
  | afterLeaf | inSeq | afterSeq => cases h

end Hole

/-! ## Changes at a position -/

/-- A position that lies behind a forest is passed on, counted from its end. -/
theorem Forest.modifyAt_of_le (f : Node W → Node W) {forest : Forest W} : ∀ {i : Nat}, forest.nodes.length ≤ i →
    forest.modifyAt f i = .error (i - forest.nodes.length) := by
  induction forest with
  | nil => intro i _; simp [modifyAt, nodes]
  | leaf s rest ih => intro i h; rw [modifyAt, ih h]; rfl
  | seq inside rest ihi ihr =>
    intro i h
    simp only [nodes, List.length_append] at h ⊢
    rw [modifyAt, ihi (by omega)]
    simp only [ihr (show rest.nodes.length ≤ i - inside.nodes.length by omega), Except.map, Nat.sub_add_eq]
  | node label children rest ihc ihr =>
    intro i h
    simp only [nodes, List.length_cons, List.length_append] at h ⊢
    obtain ⟨j, rfl⟩ : ∃ j, i = j + 1 := ⟨i - 1, by omega⟩
    rw [modifyAt, ihc (by omega)]
    simp only [ihr (show rest.nodes.length ≤ j - children.nodes.length by omega), Except.map]
    congr 1
    omega

/-- A change at the position of a hole is a change of what stands in the hole. -/
theorem Hole.modifyAt_plug (f : Node W → Node W) (n : Node W) (hole : Hole W) :
    (hole.plug n).modifyAt f hole.index = .ok (hole.plug (f n)) := by
  unfold index
  induction hole with
  | here rest => rfl
  | afterLeaf s hole ih => rw [plug, before, Forest.modifyAt, ih]; rfl
  | inSeq hole rest ih => rw [plug, before, Forest.modifyAt, ih]; rfl
  | afterSeq inside hole ih =>
    have hle : inside.nodes.length ≤ inside.nodes.length + hole.before.length := Nat.le_add_right ..
    rw [plug, before, List.length_append, Forest.length_labels, Forest.modifyAt, Forest.modifyAt_of_le f hle,
      Nat.add_sub_cancel_left]
    simp only [ih, Except.map]
    rfl
  | under label hole rest ih => rw [plug, before, List.length_cons, Forest.modifyAt, ih]; rfl
  | afterNode label children hole ih =>
    have hle : children.nodes.length ≤ children.nodes.length + hole.before.length := Nat.le_add_right ..
    rw [plug, before, List.length_cons, List.length_append, Forest.length_labels, Forest.modifyAt,
      Forest.modifyAt_of_le f hle, Nat.add_sub_cancel_left]
    simp only [ih, Except.map]
    rfl

/-- A change in a tree is a change in the forest of that tree alone. -/
theorem Node.modifyAt?_eq (t : Node W) (i : Nat) (f : Node W → Node W) :
    (t.modifyAt? i f).map Node.alone = (t.alone.modifyAt f i).toOption := by
  cases i with
  | zero => rfl
  | succ i =>
    simp only [modifyAt?, alone, Forest.modifyAt]
    cases t.children.modifyAt f i <;> rfl

/-- Changing the node at the position of a hole. -/
theorem Hole.modifyAt?_eq_some {hole : Hole W} {n t : Node W} (h : hole.plug n = t.alone) (f : Node W → Node W) :
    ∃ t' : Node W, t.modifyAt? hole.index f = some t' ∧ hole.plug (f n) = t'.alone := by
  obtain ⟨t', ht'⟩ := exists_alone h (f n)
  have hm := t.modifyAt?_eq hole.index f
  rw [← h, modifyAt_plug, ht'] at hm
  obtain ⟨t'', ht'', ha⟩ := Option.map_eq_some_iff.mp hm
  rw [Node.alone_injective ha] at ht''
  exact ⟨t', ht'', ht'⟩

/-- Replacing the node at the position of a hole. -/
theorem Hole.replaceAt?_eq_some {hole : Hole W} {n t : Node W} (h : hole.plug n = t.alone) (n' : Node W) :
    ∃ t' : Node W, t.replaceAt? hole.index n' = some t' ∧ hole.plug n' = t'.alone :=
  modifyAt?_eq_some h fun _ => n'

end ScopedGrammar

import ScopedGrammar.Proofs.Address
import ScopedGrammar.Proofs.Exact
import ScopedGrammar.Proofs.Place

/-!
# Replacing is splicing

When the node at a position is replaced, the preorder listing of the tree changes in one piece: the nodes of the new one
stand where those of the old one stood, and all others stay, before it and behind it, each with the rules that its
ancestors introduced. Hence totals over the nodes change by what they are for the new node less what they were for the
old one, where addition is exact (`Node.replaceAt?_splices`).

- `Place.layers` are the rules that each ancestor of a place introduced;
- `Arith.ChangesAlong` says that a total changes as its part does.
-/

namespace ScopedGrammar

variable {W : Type}

/-! ## Rules of ancestors -/

/-- The rules that each of the ancestors introduced, outermost first. -/
def Place.layers (p : Place W) : List (List (Rule W)) := p.ancestors.map (·.label.introduced)

/-- For each node of a forest in preorder, the rules that each of its ancestors in the forest introduced. -/
def Forest.layers : Forest W → List (List (List (Rule W)))
  | nil => []
  | leaf _ rest => layers rest
  | seq inside rest => layers inside ++ layers rest
  | node label children rest => [] :: ((layers children).map (label.introduced :: ·) ++ layers rest)

/-- For each node of a tree in preorder, the rules that each of its ancestors introduced. -/
def Node.layers (t : Node W) : List (List (List (Rule W))) := t.places.map Place.layers

@[simp] theorem Forest.length_layers (forest : Forest W) : forest.layers.length = forest.nodes.length := by
  induction forest <;> simp_all [layers, nodes]

theorem Forest.map_layers_places (forest : Forest W) : ∀ earlier ancestors : List (Node W),
    (forest.places earlier ancestors).map Place.layers =
      forest.layers.map (ancestors.map (·.label.introduced) ++ ·) := by
  induction forest with
  | nil => intro _ _; rfl
  | leaf s rest ih => intro earlier ancestors; exact ih earlier ancestors
  | seq inside rest ihi ihr => intro earlier ancestors; simp only [places, layers, List.map_append, ihi, ihr]
  | node label children rest ihc ihr =>
    intro earlier ancestors
    simp [places, layers, ihc, ihr, Place.layers, Function.comp_def]

theorem Node.layers_eq (t : Node W) : t.layers = t.alone.layers := by
  rw [layers, places, Forest.map_layers_places]
  exact List.map_id _

namespace Hole

/-- The rules that each of the ancestors of the hole introduced, outermost first. -/
def layers : Hole W → List (List (Rule W))
  | here _ => []
  | afterLeaf _ hole => hole.layers
  | inSeq hole _ => hole.layers
  | afterSeq _ hole => hole.layers
  | under label hole _ => label.introduced :: hole.layers
  | afterNode _ _ hole => hole.layers

/-- Around a hole, the rules of ancestors do not depend on what is plugged. -/
theorem exists_layers_plug (hole : Hole W) : ∃ before after, before.length = hole.index ∧ ∀ n : Node W,
    (hole.plug n).layers = before ++ (n.layers.map (hole.layers ++ ·) ++ after) := by
  unfold index
  simp only [Node.layers_eq]
  induction hole with
  | here rest => exact ⟨[], rest.layers, rfl, fun n => by simp [plug, Node.alone, Forest.layers, layers]⟩
  | afterLeaf s hole ih => exact ih
  | inSeq hole rest ih =>
    obtain ⟨before, after, hlength, ih⟩ := ih
    exact ⟨before, after ++ rest.layers, hlength, fun n => by simp [plug, Forest.layers, layers, ih]⟩
  | afterSeq inside hole ih =>
    obtain ⟨before, after, hlength, ih⟩ := ih
    exact ⟨inside.layers ++ before, after, by simp [Hole.before, hlength],
      fun n => by simp [plug, Forest.layers, layers, ih]⟩
  | under label hole rest ih =>
    obtain ⟨before, after, hlength, ih⟩ := ih
    refine ⟨[] :: before.map (label.introduced :: ·), after.map (label.introduced :: ·) ++ rest.layers,
      by simp [Hole.before, hlength], fun n => ?_⟩
    simp [plug, Forest.layers, layers, ih, Function.comp_def]
  | afterNode label children hole ih =>
    obtain ⟨before, after, hlength, ih⟩ := ih
    refine ⟨[] :: (children.layers.map (label.introduced :: ·) ++ before), after, by simp [Hole.before, hlength],
      fun n => ?_⟩
    simp [plug, Forest.layers, layers, ih]

variable {hole : Hole W} {n n' t t' : Node W}

/-- Where the node in a hole is replaced, all others keep the rules of their ancestors. -/
theorem layers_splice (h : hole.plug n = t.alone) (h' : hole.plug n' = t'.alone) :
    t.layers[hole.index]? = some hole.layers ∧ t'.layers = t.layers.take hole.index ++
      (n'.layers.map (hole.layers ++ ·) ++ t.layers.drop (hole.index + n.size)) := by
  obtain ⟨before, after, hlength, hall⟩ := hole.exists_layers_plug
  have ht : t.layers = before ++ (n.layers.map (hole.layers ++ ·) ++ after) := by
    rw [t.layers_eq, ← h, hall]
  have ht' : t'.layers = before ++ (n'.layers.map (hole.layers ++ ·) ++ after) := by
    rw [t'.layers_eq, ← h', hall]
  have hsize : (n.layers.map (hole.layers ++ ·)).length = n.size := by simp [Node.layers]
  constructor
  · rw [ht, ← hlength, List.getElem?_append_right (Nat.le_refl _), Nat.sub_self]
    show some (hole.layers ++ []) = _
    rw [List.append_nil]
  · rw [ht', ht, ← hlength, List.take_left, ← List.drop_drop, List.drop_left, ← hsize, List.drop_left]

end Hole

/-! ## Totals -/

namespace Arith

variable [Arith W]

/-- A total changes as a part of it does, where addition is exact and the other summands are given. -/
structure ChangesAlong (total total' part part' : W) (others : List W) : Prop where
  balance : total' + part = total + part'
  difference : (∀ w ∈ others, isFinite w = true) → total' - total = part' - part

end Arith

section

variable [Arith W]

/-- The total of a number that each label has. -/
def Node.totalOf (f : Label W → W) (t : Node W) : W := Arith.total (t.labels.map f)

theorem Node.logProbability_eq_totalOf (t : Node W) : t.logProbability = t.totalOf (·.logProb) := by
  rw [logProbability, totalOf, labels, List.map_map]
  rfl

theorem Node.normalizer_all_eq_totalOf (t : Node W) : t.normalizer NodeTest.all = t.totalOf (·.resampleWeight) := by
  rw [normalizer_eq_total, visits_all, totalOf, labels, ← t.map_node_tour true, List.map_map, List.map_map]
  rfl

variable [Arith.Exact W] {hole : Hole W} {n n' t t' : Node W}

/-- The total over a plugged tree is that over what is plugged and that over the labels around the hole. -/
theorem Hole.totalOf_plug (h : hole.plug n = t.alone) (f : Label W → W) :
    t.totalOf f = n.totalOf f + Arith.total ((hole.before ++ hole.after).map f) := by
  rw [Node.totalOf, labels_of_plug h, List.map_append, List.map_append, List.map_append, Arith.total_append,
    Arith.total_append, Arith.total_append, ← Arith.Exact.add_assoc,
    Arith.Exact.add_comm (Arith.total (hole.before.map f)), Arith.Exact.add_assoc]
  rfl

/-- Totals over trees that a hole makes of two nodes differ as those over the nodes do. -/
theorem Hole.changesAlong (h : hole.plug n = t.alone) (h' : hole.plug n' = t'.alone) (f : Label W → W) :
    Arith.ChangesAlong (t.totalOf f) (t'.totalOf f) (n.totalOf f) (n'.totalOf f)
      ((hole.before ++ hole.after).map f) := by
  rw [totalOf_plug h, totalOf_plug h']
  refine ⟨?_, fun hfinite => Arith.Exact.add_sub_add _ _ (Arith.isFinite_total hfinite)⟩
  rw [Arith.Exact.add_assoc, Arith.Exact.add_comm, Arith.Exact.add_comm (Arith.total _)]

end

/-! ## Replacing a node -/

/-- **Replacing the node at a position splices the preorder listing.** The tree is the old one with the labels of the
new node in the place of those of the old node. All other nodes keep the rules of their ancestors, and the nodes of the
new one have those of the site above theirs. The size changes by the difference of the sizes, and so do the
log-probability and the total resample weight, where addition is exact. -/
theorem Node.replaceAt?_splices [Arith W] (t : Node W) {i : Nat} (hi : i < t.size) (w : Node W) :
    ∃ old t', t.get? i = some old ∧ t.replaceAt? i w = some t' ∧ t'.get? i = some w ∧
      t'.labels = t.labels.take i ++ (w.labels ++ t.labels.drop (i + old.size)) ∧
      (old.size ≤ t.size ∧ t'.size = t.size - old.size + w.size) ∧
      (∃ site, t.layers[i]? = some site ∧
        t'.layers = t.layers.take i ++ (w.layers.map (site ++ ·) ++ t.layers.drop (i + old.size))) ∧
      (Arith.Exact W →
        let others := t.labels.take i ++ t.labels.drop (i + old.size)
        Arith.ChangesAlong t.logProbability t'.logProbability old.logProbability w.logProbability
            (others.map (·.logProb)) ∧
          Arith.ChangesAlong (t.normalizer NodeTest.all) (t'.normalizer NodeTest.all) (old.normalizer NodeTest.all)
            (w.normalizer NodeTest.all) (others.map (·.resampleWeight))) := by
  have hold : t.get? i = some t.nodes[i] := List.getElem?_eq_getElem hi
  obtain ⟨hole, hplug, rfl⟩ := exists_hole_of_get? hold
  obtain ⟨t', ht', hplug'⟩ := Hole.replaceAt?_eq_some hplug w
  have hr := Hole.replaces hplug hplug'
  have hsize := Hole.size_of_plug hplug
  have hsize' := Hole.size_of_plug hplug'
  refine ⟨_, t', hold, ht', hr.new, hr.labels, ⟨by omega, by omega⟩, ⟨_, Hole.layers_splice hplug hplug'⟩,
    fun hexact => ?_⟩
  have hothers : t.labels.take hole.index ++ t.labels.drop (hole.index + Node.size t.nodes[hole.index]) =
      hole.before ++ hole.after := by
    rw [Hole.take_labels hplug, Hole.drop_labels hplug]
  simp only [hothers, Node.logProbability_eq_totalOf, Node.normalizer_all_eq_totalOf]
  exact ⟨Hole.changesAlong hplug hplug' _, Hole.changesAlong hplug hplug' _⟩

/-- A label with a name, a log-probability of minus `k`, and variables. -/
noncomputable def Label.plain (name : String) (k : Nat) (introduced : List (Rule EReal)) (depth : Nat) :
    Label EReal := ⟨"EXPR", name, 0, ((-k : ℝ) : EReal), 1, introduced, depth⟩

/-- A node that binds a variable, with a subtree of two nodes in a sequence, and a constant behind it. -/
noncomputable def Node.pairTree : Node EReal :=
  ⟨.plain "pair" 1 [⟨⟨"EXPR", "y1", .nil, 1, 1, []⟩, -1⟩] 0,
    .seq (.leaf "," (.node (.plain "left" 2 [] 1) (.node (.plain "inner" 3 [] 2) .nil .nil) .nil))
      (.node (.plain "right" 4 [] 1) .nil .nil)⟩

/-- The subtree that is replaced. -/
noncomputable def Node.pairLeft : Node EReal := ⟨.plain "left" 2 [] 1, .node (.plain "inner" 3 [] 2) .nil .nil⟩

theorem Node.pairTree_splices : 1 < Node.pairTree.size ∧ ∃ t' others,
    Node.pairTree.replaceAt? 1 ⟨.plain "new" 5 [] 1, .nil⟩ = some t' ∧
      t'.labels.map (·.name) = ["pair", "new", "right"] ∧ t'.size = 3 ∧
        t'.layers = [[], [Node.pairTree.label.introduced], [Node.pairTree.label.introduced]] ∧
          (∀ x ∈ others, Arith.isFinite x = true) ∧
            Arith.ChangesAlong Node.pairTree.logProbability t'.logProbability Node.pairLeft.logProbability
              (Node.logProbability ⟨.plain "new" 5 [] 1, .nil⟩) others := by
  have hi : 1 < Node.pairTree.size := Nat.lt_of_sub_pos (Nat.succ_pos 2)
  obtain ⟨old, t', hold, ht', -, hlabels, ⟨-, hsize⟩, ⟨site, hsite, hlayers⟩, hexact⟩ :=
    Node.replaceAt?_splices Node.pairTree hi ⟨.plain "new" 5 [] 1, .nil⟩
  obtain rfl : Node.pairLeft = old := Option.some.inj hold
  obtain rfl : [Node.pairTree.label.introduced] = site := Option.some.inj hsite
  refine ⟨hi, t', _, ht', ?_, hsize, hlayers, fun x hx => ?_, (hexact inferInstance).1⟩
  · rw [hlabels]
    rfl
  · obtain ⟨l, hl, rfl⟩ := List.mem_map.mp hx
    replace hl : l ∈ [Node.pairTree.label, .plain "right" 4 [] 1] := hl
    rcases List.mem_pair.mp hl with rfl | rfl <;> exact Arith.isFinite_iff.mpr ⟨_, rfl⟩

end ScopedGrammar

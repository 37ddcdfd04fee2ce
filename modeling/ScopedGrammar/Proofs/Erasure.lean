import ScopedGrammar.Proofs.Pick
import ScopedGrammar.Proposal

/-!
# Trees without ids

`withoutIds` takes the ids off the rules, labels, trees and scopes, and leaves everything else. What is done to a tree
and does not ask for ids is done to the tree without them: walks (`Forest.tour_withoutIds`), the selection of a node
(`pickVisit_withoutIds`), and the change of a node at a position (`Node.replaceAt?_withoutIds`). A test on nodes may
still look at ids; `NodeTest.IgnoresIds` says that it does not.
-/

namespace ScopedGrammar

variable {W : Type}

/-! ## Erasure -/

/-- The rule with no id of its own. -/
def Rule.withoutId (r : Rule W) : Rule W := { r with id := 0 }

/-- The label without the ids of its rule and of the rules that it introduces. -/
def Label.withoutIds (l : Label W) : Label W :=
  { l with ruleId := 0, introduced := l.introduced.map Rule.withoutId }

/-- The forest without ids. -/
def Forest.withoutIds : Forest W → Forest W
  | nil => nil
  | leaf s rest => leaf s rest.withoutIds
  | seq inside rest => seq inside.withoutIds rest.withoutIds
  | node label children rest => node label.withoutIds children.withoutIds rest.withoutIds

/-- The tree without ids. -/
def Node.withoutIds (n : Node W) : Node W := ⟨n.label.withoutIds, n.children.withoutIds⟩

/-- The child without ids. -/
def Child.withoutIds : Child W → Child W
  | .leaf s => .leaf s
  | .seq inside => .seq inside.withoutIds
  | .node t => .node t.withoutIds

/-- The scope without the ids of its rules, and without the lowest one. -/
def Scope.withoutIds (s : Scope W) : Scope W := ⟨s.rules.map Rule.withoutId, 0⟩

/-- The visit without ids. -/
def Visit.withoutIds (v : Visit W) : Visit W := ⟨v.node.withoutIds, v.depth, v.index, v.scope.withoutIds⟩

/-- The selection without ids. -/
def Selection.withoutIds (s : Selection W) : Selection W := { s with scope := s.scope.withoutIds }

/-- The proposal without ids. -/
def Proposal.withoutIds (p : Proposal W) : Proposal W := { p with tree := p.tree.withoutIds }

/-- A test that gives the same answer for nodes and scopes that differ in ids alone. -/
def NodeTest.IgnoresIds (accepts : NodeTest W) : Prop := ∀ n n' s s', n.withoutIds = n'.withoutIds →
  s.withoutIds = s'.withoutIds → accepts n s = accepts n' s'

theorem NodeTest.ignoresIds_all : (NodeTest.all : NodeTest W).IgnoresIds := fun _ _ _ _ _ _ => rfl

@[simp] theorem Rule.withoutId_withoutId (r : Rule W) : r.withoutId.withoutId = r.withoutId := rfl

@[simp] theorem Label.withoutIds_withoutIds (l : Label W) : l.withoutIds.withoutIds = l.withoutIds := by
  simp [withoutIds]

@[simp] theorem Forest.withoutIds_withoutIds (forest : Forest W) :
    forest.withoutIds.withoutIds = forest.withoutIds := by
  induction forest with
  | nil => rfl
  | leaf s rest ih => rw [withoutIds, withoutIds, ih]
  | seq inside rest ihi ihr => rw [withoutIds, withoutIds, ihi, ihr]
  | node label children rest ihc ihr => rw [withoutIds, withoutIds, ihc, ihr, Label.withoutIds_withoutIds]

/-- Rules are the same without ids exactly if they are the same productions. -/
theorem Rule.withoutId_eq_iff {r r' : Rule W} : r.withoutId = r'.withoutId ↔ r.toProduction = r'.toProduction := by
  obtain ⟨p, id⟩ := r
  obtain ⟨p', id'⟩ := r'
  simp [withoutId]

/-- Scopes are the same without ids exactly if their rules are. -/
theorem Scope.withoutIds_eq_iff {s s' : Scope W} :
    s.withoutIds = s'.withoutIds ↔ s.rules.map Rule.withoutId = s'.rules.map Rule.withoutId := by
  simp [withoutIds]

/-! ## Forests -/

namespace Forest

@[simp] theorem nodes_withoutIds (forest : Forest W) : forest.withoutIds.nodes = forest.nodes.map Node.withoutIds := by
  induction forest with
  | nil => rfl
  | leaf s rest ih => exact ih
  | seq inside rest ihi ihr => simp [withoutIds, nodes, ihi, ihr]
  | node label children rest ihc ihr => simp [withoutIds, nodes, ihc, ihr, Node.withoutIds]

@[simp] theorem labels_withoutIds (forest : Forest W) :
    forest.withoutIds.labels = forest.labels.map Label.withoutIds := by
  simp [labels, Node.withoutIds]

/-- Below nodes that are the same without ids, scopes are. -/
theorem enter_withoutIds (tracks : Bool) {scope scope' : Scope W} (h : scope.withoutIds = scope'.withoutIds)
    (l : Label W) :
    (scope.enter (l.bound tracks)).withoutIds = (scope'.enter (l.withoutIds.bound tracks)).withoutIds := by
  rw [Scope.withoutIds_eq_iff] at h ⊢
  cases tracks <;> simp [Scope.enter, Label.bound, Label.withoutIds, h]

/-- A walk through a forest without ids comes to the same nodes, without ids, in the same scopes. -/
theorem tour_withoutIds (tracks : Bool) (forest : Forest W) : ∀ {scope scope' : Scope W} (depth index : Nat),
    scope.withoutIds = scope'.withoutIds → (forest.tour tracks depth scope index).map Visit.withoutIds =
      (forest.withoutIds.tour tracks depth scope' index).map Visit.withoutIds := by
  induction forest with
  | nil => intro _ _ _ _ _; rfl
  | leaf s rest ih => intro scope scope' depth index h; exact ih depth index h
  | seq inside rest ihi ihr =>
    intro scope scope' depth index h
    have hpass : (scope.pass tracks inside.labels).withoutIds =
        (scope'.pass tracks inside.withoutIds.labels).withoutIds := h
    rw [withoutIds, tour, tour, List.map_append, List.map_append, ihi _ _ h, ihr _ _ hpass, labels_withoutIds,
      List.length_map]
  | node label children rest ihc ihr =>
    intro scope scope' depth index h
    have hpass : (scope.pass tracks (label :: children.labels)).withoutIds =
        (scope'.pass tracks (label.withoutIds :: children.withoutIds.labels)).withoutIds := h
    rw [withoutIds, tour, tour, List.map_cons, List.map_cons, List.map_append, List.map_append,
      ihc _ _ (enter_withoutIds tracks h label), ihr _ _ hpass, labels_withoutIds, List.length_map]
    simp [Visit.withoutIds, Node.withoutIds, h]

/-- What is put in the place of a node is put there without ids. -/
theorem modifyAt_withoutIds (n : Node W) (forest : Forest W) : ∀ i : Nat,
    (forest.modifyAt (fun _ => n) i).map withoutIds = forest.withoutIds.modifyAt (fun _ => n.withoutIds) i := by
  induction forest with
  | nil => intro i; rfl
  | leaf s rest ih =>
    intro i
    rw [withoutIds, modifyAt, modifyAt, ← ih i]
    cases rest.modifyAt (fun _ => n) i <;> rfl
  | seq inside rest ihi ihr =>
    intro i
    rw [withoutIds, modifyAt, modifyAt, ← ihi i]
    cases inside.modifyAt (fun _ => n) i with
    | ok inside' => rfl
    | error left =>
      show ((modifyAt _ left rest).map _).map withoutIds = (modifyAt _ left rest.withoutIds).map _
      rw [← ihr left]
      cases rest.modifyAt (fun _ => n) left <;> rfl
  | node label children rest ihc ihr =>
    intro i
    cases i with
    | zero => rfl
    | succ i =>
      rw [withoutIds, modifyAt, modifyAt, ← ihc i]
      cases children.modifyAt (fun _ => n) i with
      | ok children' => rfl
      | error left =>
        show ((modifyAt _ left rest).map _).map withoutIds = (modifyAt _ left rest.withoutIds).map _
        rw [← ihr left]
        cases rest.modifyAt (fun _ => n) left <;> rfl

end Forest

/-! ## Trees -/

namespace Node

variable {t t' : Node W}

theorem alone_withoutIds (t : Node W) : t.withoutIds.alone = t.alone.withoutIds := rfl

/-- Trees that are the same without ids are walked through alike. -/
theorem tour_eq (h : t.withoutIds = t'.withoutIds) (tracks : Bool) :
    (t.tour tracks).map Visit.withoutIds = (t'.tour tracks).map Visit.withoutIds := by
  unfold tour
  rw [Forest.tour_withoutIds tracks t.alone 0 0 rfl, Forest.tour_withoutIds tracks t'.alone 0 0 rfl,
    ← alone_withoutIds, ← alone_withoutIds, h]

theorem replaceAt?_withoutIds (t n : Node W) : ∀ i : Nat,
    (t.replaceAt? i n).map withoutIds = t.withoutIds.replaceAt? i n.withoutIds
  | 0 => rfl
  | i + 1 => by
    show ((t.children.modifyAt (fun _ => n) i).toOption.map _).map _ =
      (t.children.withoutIds.modifyAt (fun _ => n.withoutIds) i).toOption.map _
    rw [← Forest.modifyAt_withoutIds n t.children i]
    cases t.children.modifyAt (fun _ => n) i <;> rfl

variable [Arith W]

theorem logProbability_withoutIds (t : Node W) : t.withoutIds.logProbability = t.logProbability := by
  unfold logProbability nodes
  simp [withoutIds, Label.withoutIds, Function.comp_def]

theorem logProbability_eq (h : t.withoutIds = t'.withoutIds) : t.logProbability = t'.logProbability := by
  rw [← logProbability_withoutIds t, h, logProbability_withoutIds]

end Node

/-! ## Agreement under a view -/

section Views

variable {α β κ γ : Type} {view : α → κ}

/-- Where options agree under a view, both are empty or both have values that agree. -/
theorem none_or_some_of_map_eq : ∀ {a a' : Option α}, a.map view = a'.map view →
    (a = none ∧ a' = none) ∨ ∃ x x', a = some x ∧ a' = some x' ∧ view x = view x'
  | none, none, _ => Or.inl ⟨rfl, rfl⟩
  | none, some x', h => by cases h
  | some x, none, h => by cases h
  | some x, some x', h => Or.inr ⟨x, x', rfl, rfl, Option.some.inj h⟩

/-- Where results agree under a view, both are the same error or both have values that agree. -/
theorem error_or_ok_of_map_eq : ∀ {a a' : Except β α}, a.map view = a'.map view →
    (∃ e, a = .error e ∧ a' = .error e) ∨ ∃ x x', a = .ok x ∧ a' = .ok x' ∧ view x = view x'
  | .error e, .error e', h => Or.inl ⟨e, rfl, congrArg Except.error (Except.error.inj h).symm⟩
  | .error e, .ok x', h => by cases h
  | .ok x, .error e', h => by cases h
  | .ok x, .ok x', h => Or.inr ⟨x, x', rfl, rfl, Except.ok.inj h⟩

/-- Lists that agree under a view keep the same elements by a test of the view. -/
theorem map_filter_congr {p p' : α → Bool} (hp : ∀ a a', view a = view a' → p a = p' a') :
    ∀ {as as' : List α}, as.map view = as'.map view → (as.filter p).map view = (as'.filter p').map view
  | [], [], _ => rfl
  | [], a' :: as', h => by cases h
  | a :: as, [], h => by cases h
  | a :: as, a' :: as', h => by
    obtain ⟨ha, has⟩ := List.cons.inj h
    have ih := map_filter_congr hp has
    rw [List.filter_cons, List.filter_cons, hp a a' ha]
    split
    · rw [List.map_cons, List.map_cons, ha, ih]
    · exact ih

/-- Lists that agree under a view have the same images under a function of the view. -/
theorem map_map_congr {f f' : α → β} (hf : ∀ a a', view a = view a' → f a = f' a') :
    ∀ {as as' : List α}, as.map view = as'.map view → as.map f = as'.map f'
  | [], [], _ => rfl
  | [], a' :: as', h => by cases h
  | a :: as, [], h => by cases h
  | a :: as, a' :: as', h => by
    obtain ⟨ha, has⟩ := List.cons.inj h
    rw [List.map_cons, List.map_cons, hf a a' ha, map_map_congr hf has]

/-- Lists that agree under a view give lists that agree, one after another. -/
theorem map_flatMap_congr {out : β → γ} {f f' : α → List β}
    (hf : ∀ a a', view a = view a' → (f a).map out = (f' a').map out) {as as' : List α}
    (h : as.map view = as'.map view) : (as.flatMap f).map out = (as'.flatMap f').map out := by
  rw [List.map_flatMap, List.map_flatMap, List.flatMap_def, List.flatMap_def]
  exact congrArg List.flatten (map_map_congr hf h)

end Views

/-! ## Selection -/

variable [Arith W]

/-- The choice of a visit does not depend on ids. -/
theorem pickVisit_withoutIds (point : W) : ∀ (visits : List (Visit W)) (running : W) (last : Option (Visit W)),
    (pickVisit point running last visits).map Visit.withoutIds =
      pickVisit point running (last.map Visit.withoutIds) (visits.map Visit.withoutIds)
  | [], _, _ => rfl
  | v :: rest, running, last => by
    have hweight : v.withoutIds.weight = v.weight := rfl
    rw [List.map_cons, pickVisit, pickVisit, hweight]
    split
    · exact pickVisit_withoutIds point rest running last
    · split
      · rfl
      · exact pickVisit_withoutIds point rest (running + v.weight) (some v)

theorem pickVisit_eq {visits visits' : List (Visit W)}
    (h : visits.map Visit.withoutIds = visits'.map Visit.withoutIds) (point : W) :
    (pickVisit point Arith.zero none visits).map Visit.withoutIds =
      (pickVisit point Arith.zero none visits').map Visit.withoutIds := by
  rw [pickVisit_withoutIds, pickVisit_withoutIds, h]

namespace Node

variable {t t' : Node W} {accepts : NodeTest W}

/-- The nodes of a tree that pass a test, without ids. -/
theorem visits_eq (haccepts : accepts.IgnoresIds) (h : t.withoutIds = t'.withoutIds) :
    (t.visits accepts).map Visit.withoutIds = (t'.visits accepts).map Visit.withoutIds := by
  rw [visits_eq_tour, visits_eq_tour]
  refine map_filter_congr (fun v v' hv => ?_) (tour_eq h true)
  exact haccepts _ _ _ _ (congrArg Visit.node hv) (congrArg Visit.scope hv)

theorem normalizer_eq (haccepts : accepts.IgnoresIds) (h : t.withoutIds = t'.withoutIds) :
    t.normalizer accepts = t'.normalizer accepts := by
  have hweight : ∀ v v' : Visit W, v.withoutIds = v'.withoutIds → v.weight = v'.weight :=
    fun _ _ hv => (congrArg Visit.weight hv :)
  rw [normalizer_eq_total, normalizer_eq_total, map_map_congr hweight (visits_eq haccepts h)]

/-- The selection of a visit without ids is the same. -/
theorem ofVisit_eq {v v' : Visit W} (h : v.withoutIds = v'.withoutIds) (total : W) :
    (Selection.ofVisit total v).withoutIds = (Selection.ofVisit total v').withoutIds :=
  congrArg (Selection.ofVisit total) h

/-- A selection does not depend on ids. -/
theorem select_eq (haccepts : accepts.IgnoresIds) (h : t.withoutIds = t'.withoutIds) (draws : List (Draw W)) :
    (t.select accepts draws).1.map Selection.withoutIds = (t'.select accepts draws).1.map Selection.withoutIds ∧
      (t.select accepts draws).2 = (t'.select accepts draws).2 := by
  rw [select_eq_pick, select_eq_pick]
  simp only [normalizer_eq haccepts h]
  split
  · exact ⟨rfl, rfl⟩
  · cases draws with
    | nil => exact ⟨rfl, rfl⟩
    | cons d rest =>
      have hpick := pickVisit_eq (visits_eq haccepts h) (d.uniform * t'.normalizer accepts)
      rcases none_or_some_of_map_eq hpick with ⟨hv, hv'⟩ | ⟨v, v', hv, hv', he⟩
      · simp only [hv, hv']
        exact ⟨trivial, trivial⟩
      · simp only [hv, hv']
        exact ⟨congrArg Except.ok (ofVisit_eq he _), trivial⟩

end Node

end ScopedGrammar

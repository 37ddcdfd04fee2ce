import ScopedGrammar.Proofs.Pick
import ScopedGrammar.Proofs.Place
import ScopedGrammar.Proofs.Signs.Binary64

/-!
# When a node is selected, and which

Whatever the resample weights are, a selection fails exactly if the weights of the accepted nodes do not add up to a
positive finite number, and then no draw is used. If they do, one of them has a weight, as a total of weights that are
not positive is not positive. So the search always has a node to fall back to (`pickVisit_eq_none`), and what is
selected is a place of the tree that passes the test and has a weight (`Node.select_sound`).
-/

namespace ScopedGrammar

variable {W : Type} [Arith W]

/-- Nothing is picked only if nothing was at hand and no visit has a weight. -/
theorem pickVisit_eq_none {point : W} : ∀ {visits : List (Visit W)} {running : W} {last : Option (Visit W)},
    pickVisit point running last visits = none → last = none ∧ ∀ v ∈ visits, v.weight ≤ Arith.zero
  | [], _, _, h => ⟨h, fun _ hv => by cases hv⟩
  | u :: rest, running, last, h => by
    unfold pickVisit at h
    split at h
    · rename_i hu
      obtain ⟨hlast, hrest⟩ := pickVisit_eq_none h
      exact ⟨hlast, List.forall_mem_cons.mpr ⟨hu, hrest⟩⟩
    · split at h
      · cases h
      · cases (pickVisit_eq_none h).1

/-- The resample weight of the node at a place. -/
def Place.weight (p : Place W) : W := p.node.label.resampleWeight

namespace Node

/-- The places of a tree whose node passes a test in its scope. -/
def accepted (t : Node W) (accepts : NodeTest W) : List (Place W) :=
  t.places.filter fun p => accepts p.node (p.visit true).scope

/-- What a selection of a place says, where the weights of the accepted nodes add up to `total`. -/
structure Selects (t : Node W) (total : W) (p : Place W) (s : Selection W) : Prop where
  place : t.places[s.index]? = some p
  depth : s.depth = p.ancestors.length
  nodeDepth : s.nodeDepth = p.node.label.depth
  nonterminal : s.nonterminal = p.node.label.nonterminal
  resampleWeight : s.resampleWeight = p.weight
  logProb : s.logProb = Arith.ln p.weight - Arith.ln total
  scope : s.scope.rules = p.introduced

variable {t : Node W} {accepts : NodeTest W}

theorem visits_eq_accepted (t : Node W) (accepts : NodeTest W) :
    t.visits accepts = (t.accepted accepts).map (Place.visit true) := by
  rw [visits_eq_tour, tour_eq_places, List.filter_map]
  rfl

/-- The normalizer is the total resample weight of the accepted places. -/
theorem normalizer_eq_accepted (t : Node W) (accepts : NodeTest W) :
    t.normalizer accepts = Arith.total ((t.accepted accepts).map Place.weight) := by
  rw [normalizer_eq_total, visits_eq_accepted, List.map_map]
  rfl

/-- The visit of a place gives the selection of that place. -/
theorem selects_ofVisit {p : Place W} (h : p ∈ t.places) (total : W) :
    t.Selects total p (Selection.ofVisit total (p.visit true)) where
  place := by
    obtain ⟨i, hi⟩ := List.mem_iff_getElem?.mp h
    have htour : (t.tour true)[i]? = some (p.visit true) := by
      rw [tour_eq_places, List.getElem?_map, hi]
      rfl
    rw [← hi]
    exact congrArg (t.places[·]?) (getElem?_tour htour)
  depth := rfl
  nodeDepth := rfl
  nonterminal := rfl
  resampleWeight := rfl
  logProb := rfl
  scope := rfl

variable [Arith.Signed W]

/-- If the weights add up to a positive number, a place that passes the test and has a weight is picked. -/
theorem exists_picked (hpos : Arith.zero < t.normalizer accepts) (point : W) :
    ∃ p ∈ t.accepted accepts, Arith.zero < p.weight ∧
      pickVisit point Arith.zero none (t.visits accepts) = some (p.visit true) := by
  rw [normalizer_eq_accepted] at hpos
  rw [visits_eq_accepted]
  cases hpick : pickVisit point Arith.zero none ((t.accepted accepts).map (Place.visit true)) with
  | none =>
    obtain ⟨_, hw, hcounts⟩ := Arith.exists_of_total_pos hpos
    obtain ⟨p, hp, rfl⟩ := List.mem_map.mp hw
    exact absurd ((pickVisit_eq_none hpick).2 _ (List.mem_map_of_mem hp)) hcounts
  | some v =>
    rcases mem_of_pickVisit hpick with ⟨hv, hcounts⟩ | h
    · obtain ⟨p, hp, rfl⟩ := List.mem_map.mp hv
      have hnumber := Arith.isNumber_of_total (.inr hpos) _ (List.mem_map_of_mem hp)
      exact ⟨p, hp, hnumber.resolve_left hcounts, rfl⟩
    · cases h

/-- If the weights add up to a positive finite number, then an accepted place with a weight is selected. -/
theorem exists_select (hz : Arith.isPositive (t.normalizer accepts) = true) (d : Draw W) (rest : List (Draw W)) :
    ∃ p ∈ t.accepted accepts, Arith.zero < p.weight ∧
      t.select accepts (d :: rest) = (.ok (Selection.ofVisit (t.normalizer accepts) (p.visit true)), rest) := by
  obtain ⟨p, hp, hw, hpick⟩ := exists_picked (Arith.pos_of_isPositive hz) (d.uniform * t.normalizer accepts)
  refine ⟨p, hp, hw, ?_⟩
  simp only [select_eq_pick, hz, hpick]
  rfl

omit [Arith.Signed W] in
/-- If they do not, nothing is selected or drawn. -/
theorem select_refused (hz : Arith.isPositive (t.normalizer accepts) = false) (draws : List (Draw W)) :
    t.select accepts draws = (.error (.error (.nothingToResample (t.normalizer accepts))), draws) := by
  simp only [select_eq_pick, hz]
  rfl

/-- **Selection is sound.** It fails exactly if the total resample weight of the accepted places is no positive finite
number, and then without a draw. Otherwise it uses one draw, and selects an accepted place with a positive weight, as it
stands in the tree. -/
theorem select_sound (t : Node W) (accepts : NodeTest W) (d : Draw W) (rest : List (Draw W)) :
    t.normalizer accepts = Arith.total ((t.accepted accepts).map Place.weight) ∧
      (∀ e left, t.select accepts (d :: rest) = (.error e, left) ↔
        Arith.isPositive (t.normalizer accepts) = false ∧
          e = .error (.nothingToResample (t.normalizer accepts)) ∧ left = d :: rest) ∧
      (Arith.isPositive (t.normalizer accepts) = true → ∃ s, ∃ p ∈ t.accepted accepts,
        t.select accepts (d :: rest) = (.ok s, rest) ∧ Arith.zero < p.weight ∧
          t.Selects (t.normalizer accepts) p s) := by
  refine ⟨t.normalizer_eq_accepted accepts, fun e left => ⟨fun h => ?_, fun h => ?_⟩, fun hz => ?_⟩
  · cases hz : Arith.isPositive (t.normalizer accepts) with
    | true =>
      obtain ⟨p, _, _, hs⟩ := exists_select hz d rest
      rw [hs] at h
      cases h
    | false =>
      rw [select_refused hz] at h
      cases h
      exact ⟨rfl, rfl, rfl⟩
  · obtain ⟨hz, rfl, rfl⟩ := h
    exact select_refused hz _
  · obtain ⟨p, hp, hw, hs⟩ := exists_select hz d rest
    exact ⟨_, p, hp, hs, hw, selects_ofVisit (List.mem_filter.mp hp).1 _⟩

/-- The least positive weight, below a node of no weight that brings a variable into scope. -/
def speck : Node Float where
  label := ⟨"EXPR", "lambda", 0, 0.0, 0.0, [⟨⟨"EXPR", "y0", .nil, 1.0, 1.0, []⟩, -1⟩], 0⟩
  children := .seq .nil (.node ⟨"EXPR", "y0", -1, 0.0, Float.ofBits 1, [], 1⟩ .nil .nil)

/-- On the way to the least positive weight, rounding leaves the search short. -/
theorem speck_select_sound : Arith.isPositive (speck.normalizer NodeTest.all) = true ∧
    (searchVisit (0.75 * speck.normalizer NodeTest.all) Arith.zero none (speck.visits NodeTest.all)).toOption.isNone ∧
    ∃ s, ∃ p ∈ speck.accepted NodeTest.all, speck.select NodeTest.all [⟨0.75, 0.75⟩] = (.ok s, []) ∧
      Arith.zero < p.weight ∧ speck.Selects (speck.normalizer NodeTest.all) p s := by
  have hz : Arith.isPositive (speck.normalizer NodeTest.all) = true := by decide +kernel
  refine ⟨hz, by decide +kernel, ?_⟩
  exact (select_sound speck NodeTest.all ⟨0.75, 0.75⟩ []).2.2 hz

end Node

end ScopedGrammar

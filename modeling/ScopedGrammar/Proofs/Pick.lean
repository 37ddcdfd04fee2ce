import ScopedGrammar.Proofs.Tour

/-!
# The visit that is picked

Selection searches the visits that pass a test and, where rounding leaves the running total short, looks a node up by its
position in another walk that accepts every node. Both ways lead to the visit that `pickVisit` gives at once: the walks
agree on positions and scopes, so the look-up comes back to the visit that the search passed (`Node.selectAt_eq`).
So a selection is that of the picked visit (`Node.selectWith_eq_pick`).

- `searchVisit` searches a list of visits, as `Walk.search` does a walk (`Walk.search_eq`);
- `pickVisit` gives the visit that a selection ends with, also where the search finds none (`pickVisit_of_search`).
-/

namespace ScopedGrammar

variable {W : Type} [Arith W]

/-- The first visit at which the running total exceeds a point; if there is none, the position of the last one with a
weight. -/
def searchVisit (point : W) : W → Option Nat → List (Visit W) → Except (Option Nat) (Visit W)
  | _, last, [] => .error last
  | running, last, v :: rest =>
    if v.weight ≤ Arith.zero then searchVisit point running last rest
    else if point < running + v.weight then .ok v
    else searchVisit point (running + v.weight) (some v.index) rest

/-- The first visit at which the running total exceeds a point; if there is none, the last one with a weight. -/
def pickVisit (point : W) : W → Option (Visit W) → List (Visit W) → Option (Visit W)
  | _, last, [] => last
  | running, last, v :: rest =>
    if v.weight ≤ Arith.zero then pickVisit point running last rest
    else if point < running + v.weight then some v
    else pickVisit point (running + v.weight) (some v) rest

/-- The visit that is picked is one of the list with a weight, or the one at hand. -/
theorem mem_of_pickVisit {point : W} {v : Visit W} : ∀ {visits : List (Visit W)} {running : W}
    {last : Option (Visit W)}, pickVisit point running last visits = some v →
      (v ∈ visits ∧ ¬ v.weight ≤ Arith.zero) ∨ last = some v
  | [], _, _, h => Or.inr h
  | u :: rest, running, last, h => by
    unfold pickVisit at h
    split at h
    · rcases mem_of_pickVisit h with ⟨hm, hw⟩ | h
      · exact Or.inl ⟨List.mem_cons_of_mem _ hm, hw⟩
      · exact Or.inr h
    · rename_i hu
      split at h
      · cases h; exact Or.inl ⟨List.mem_cons_self, hu⟩
      · rcases mem_of_pickVisit h with ⟨hm, hw⟩ | h
        · exact Or.inl ⟨List.mem_cons_of_mem _ hm, hw⟩
        · cases h; exact Or.inl ⟨List.mem_cons_self, hu⟩

/-- A search that finds a visit picks it, and one that does not has the position of what is picked. -/
theorem pickVisit_of_search (point : W) : ∀ (visits : List (Visit W)) (running : W) (last : Option (Visit W)),
    match searchVisit point running (last.map (·.index)) visits with
    | .ok v => pickVisit point running last visits = some v
    | .error index? => index? = (pickVisit point running last visits).map (·.index)
  | [], _, _ => rfl
  | v :: rest, running, last => by
    simp only [searchVisit, pickVisit]
    by_cases hw : v.weight ≤ Arith.zero
    · simp only [if_pos hw]
      exact pickVisit_of_search point rest running last
    · by_cases hp : point < running + v.weight
      · simp only [if_neg hw, if_pos hp]
      · simp only [if_neg hw, if_neg hp]
        exact pickVisit_of_search point rest (running + v.weight) (some v)

/-! ## Searching a walk -/

namespace Walk

variable {S : Type} (point : W)

/-- A search over a walk finds what one over its visits finds. -/
theorem search_eq (w : Walk W S) : ∀ (running : W) (last : Option Nat),
    (w.search point running last).1 = searchVisit point running last w.toList := by
  induction hn : w.work using Nat.strongRecOn generalizing w with
  | ind n ih =>
    subst hn
    intro running last
    rw [search]
    split
    · rename_i h
      rw [toList_eq_passed, ahead, agenda_eq_nil_of_step h]
      rfl
    · rename_i w' h
      rw [toList_of_step h]
      exact ih _ (work_lt_of_step h) w' rfl running last
    · rename_i v w' h
      have ih := ih _ (work_lt_of_step h) w' rfl
      rw [toList_of_step h, Option.toList_some, List.singleton_append, searchVisit]
      split
      · exact ih _ _
      · split
        · rfl
        · exact ih _ _

end Walk

namespace Node

variable {t : Node W} {accepts : NodeTest W} {S : Type}

/-- A node is looked up at its position. -/
theorem selectAt_eq {v : Visit W} (hv : v ∈ t.tour true) (total : W) :
    t.selectAt v.index total = .ok (Selection.ofVisit total v) := by
  have hfind : (t.tour true).find? (·.index == v.index) = some v := by
    cases hu : (t.tour true).find? (·.index == v.index) with
    | none => exact absurd (List.find?_eq_none.mp hu v hv) (by simp)
    | some u =>
      have hindex : u.index = v.index := by simpa using List.find?_some hu
      have hmem := getElem?_tour_of_mem (List.mem_of_find?_eq_some hu)
      rw [hindex, getElem?_tour_of_mem hv] at hmem
      exact hmem.symm
  rw [selectAt, visits_all, hfind]

/-- A selection is that of the picked visit, wherever the search ends. -/
theorem selectWith_eq_pick (t : Node W) (test : StatefulTest W S) (state : S) (draws : List (Draw W)) :
    ((t.selectWith test state draws).1, (t.selectWith test state draws).2.2) =
      let z := t.normalizerWith test state
      if !Arith.isPositive z.1 then (.error (.error (.nothingToResample z.1)), draws)
      else
        match draws with
        | [] => (.error .noDraw, [])
        | d :: rest =>
          match pickVisit (d.uniform * z.1) Arith.zero none (test.passed z.2 (t.tour true)) with
          | none => (.error (.error (.nothingToResample z.1)), rest)
          | some v => (.ok (Selection.ofVisit z.1 v), rest) := by
  simp only [selectWith]
  rcases t.normalizerWith test state with ⟨total, state'⟩
  simp only
  split
  · rfl
  · cases draws with
    | nil => rfl
    | cons d rest =>
      have hwalk : (Walk.start t test state' true).toList = test.passed state' (t.tour true) := by
        rw [Walk.toList_eq_passed, Walk.ahead_start]
        rfl
      have hrun := (Walk.start t test state' true).search_eq (d.uniform * total) Arith.zero none
      have hpick := pickVisit_of_search (d.uniform * total) (test.passed state' (t.tour true)) Arith.zero none
      rw [Option.map_none, ← hwalk, ← hrun, hwalk] at hpick
      rcases hs : (Walk.start t test state' true).search (d.uniform * total) Arith.zero none with ⟨index? | v, left⟩
      · rw [hs] at hpick
        obtain rfl : index? = _ := hpick
        cases hp : pickVisit (d.uniform * total) Arith.zero none (test.passed state' (t.tour true)) with
        | none => simp only [hs, hp, Option.map_none]
        | some v =>
          rcases mem_of_pickVisit hp with ⟨hv, _⟩ | h
          · simp only [hs, hp, Option.map_some, selectAt_eq (test.mem_of_mem_passed hv)]
            rfl
          · cases h
      · rw [hs] at hpick
        simp only [hs, show pickVisit _ _ _ _ = some v from hpick]

theorem select_eq_pick (t : Node W) (accepts : NodeTest W) (draws : List (Draw W)) :
    t.select accepts draws =
      if !Arith.isPositive (t.normalizer accepts) then
        (.error (.error (.nothingToResample (t.normalizer accepts))), draws)
      else
        match draws with
        | [] => (.error .noDraw, [])
        | d :: rest =>
          match pickVisit (d.uniform * t.normalizer accepts) Arith.zero none (t.visits accepts) with
          | none => (.error (.error (.nothingToResample (t.normalizer accepts))), rest)
          | some v => (.ok (Selection.ofVisit (t.normalizer accepts) v), rest) := by
  rw [visits_eq_tour, ← accepts.passed_stateless]
  exact t.selectWith_eq_pick accepts.stateless () draws

/-- If the weights add up to a positive finite number, then a visit at which the search stops is selected. -/
theorem select_eq_of_search (hz : Arith.isPositive (t.normalizer accepts) = true) {v : Visit W} {d : Draw W}
    (hsearch : searchVisit (d.uniform * t.normalizer accepts) Arith.zero none (t.visits accepts) = .ok v)
    (rest : List (Draw W)) :
    t.select accepts (d :: rest) = (.ok (Selection.ofVisit (t.normalizer accepts) v), rest) := by
  have hpick := pickVisit_of_search (d.uniform * t.normalizer accepts) (t.visits accepts) Arith.zero none
  rw [Option.map_none, hsearch] at hpick
  simp only [select_eq_pick, hz, show pickVisit _ _ _ _ = some v from hpick]
  rfl

end Node

end ScopedGrammar

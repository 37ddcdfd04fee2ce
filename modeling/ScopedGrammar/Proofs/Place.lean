import ScopedGrammar.Proofs.Tour

/-!
# Places in trees

A `Place` is a node of a tree together with what surrounds it: its proper ancestors, and the nodes before it in
preorder. `Node.places` lists the places of a tree by recursion. The tour of a tree gives at every place what the
surroundings determine (`Node.tour_eq_places`): the position is the number of earlier nodes, the depth is the number of
ancestors, the rules in scope are those that the ancestors introduced, outermost first, and the ids in use are those of
all rules that earlier nodes introduced.

A walk asks its test about the places of its tree in their order, about each one once. Every call of `Walk.next` gives
the next one that passes (`Walk.next_after`).
-/

namespace ScopedGrammar

variable {W : Type}

/-- A node in a tree. -/
structure Place (W : Type) where
  /-- The nodes before the node in preorder. -/
  earlier : List (Node W)
  /-- The proper ancestors of the node, outermost first. -/
  ancestors : List (Node W)
  node : Node W

/-! ## Listing places -/

/-- The places of a forest in preorder, with the nodes before the forest and above it. -/
def Forest.places (earlier ancestors : List (Node W)) : Forest W → List (Place W)
  | nil => []
  | leaf _ rest => places earlier ancestors rest
  | seq inside rest => places earlier ancestors inside ++ places (earlier ++ inside.nodes) ancestors rest
  | node label children rest =>
    let n : Node W := ⟨label, children⟩
    ⟨earlier, ancestors, n⟩ ::
      (places (earlier ++ [n]) (ancestors ++ [n]) children ++ places (earlier ++ n.nodes) ancestors rest)

/-- The places of a tree in preorder. -/
def Node.places (t : Node W) : List (Place W) := t.alone.places [] []

@[simp] theorem Forest.map_node_places (forest : Forest W) : ∀ earlier ancestors : List (Node W),
    (forest.places earlier ancestors).map (·.node) = forest.nodes := by
  induction forest with
  | nil => intro _ _; rfl
  | leaf s rest ih => intro earlier ancestors; exact ih earlier ancestors
  | seq inside rest ihi ihr => intro earlier ancestors; simp [places, nodes, ihi, ihr]
  | node label children rest ihc ihr => intro earlier ancestors; simp [places, nodes, ihc, ihr]

@[simp] theorem Node.map_node_places (t : Node W) : t.places.map (·.node) = t.nodes := by simp [places]

@[simp] theorem Node.length_places (t : Node W) : t.places.length = t.size := by
  rw [← List.length_map (f := (·.node)), map_node_places, size]

/-- The nodes before a place of a forest, with its own nodes from there on. -/
theorem Forest.earlier_places (forest : Forest W) : ∀ earlier ancestors : List (Node W),
    (forest.places earlier ancestors).map (·.earlier) =
      (List.range forest.nodes.length).map fun i => earlier ++ forest.nodes.take i := by
  induction forest with
  | nil => intro _ _; rfl
  | leaf s rest ih => intro earlier ancestors; exact ih earlier ancestors
  | seq inside rest ihi ihr =>
    intro earlier ancestors
    rw [places, List.map_append, ihi, ihr, nodes, List.length_append, List.range_add, List.map_append, List.map_map]
    congr 1
    · refine List.map_congr_left fun i hi => ?_
      rw [List.take_append_of_le_length (Nat.le_of_lt (List.mem_range.mp hi))]
    · refine List.map_congr_left fun i _ => ?_
      simp [List.take_length_add_append]
  | node label children rest ihc ihr =>
    intro earlier ancestors
    rw [places, List.map_cons, List.map_append, ihc, ihr, nodes, List.length_cons, List.length_append,
      List.range_succ_eq_map, List.map_cons, List.map_map, List.range_add, List.map_append, List.map_map]
    simp only [List.take_zero, List.append_nil, List.cons.injEq, true_and]
    congr 1
    · refine List.map_congr_left fun i hi => ?_
      simp [List.take_append_of_le_length (Nat.le_of_lt (List.mem_range.mp hi))]
    · refine List.map_congr_left fun i _ => ?_
      simp [Node.nodes, List.take_length_add_append]

/-- The nodes before a place are as many as its position says. -/
theorem Node.map_earlier_places (t : Node W) :
    t.places.map (·.earlier) = (List.range t.size).map fun i => t.nodes.take i := by
  simpa [places, size] using t.alone.earlier_places [] []

/-- The ancestors of a place are some of the nodes of the tree, in preorder. -/
theorem Forest.exists_ancestors {p : Place W} {forest : Forest W} : ∀ {earlier ancestors : List (Node W)},
    p ∈ forest.places earlier ancestors → ∃ above, p.ancestors = ancestors ++ above ∧ above.Sublist forest.nodes := by
  induction forest with
  | nil => intro _ _ h; cases h
  | leaf s rest ih => intro _ _ h; exact ih h
  | seq inside rest ihi ihr =>
    intro earlier ancestors h
    rcases List.mem_append.mp h with h | h
    · obtain ⟨above, ha, hs⟩ := ihi h
      exact ⟨above, ha, hs.trans (List.sublist_append_left _ _)⟩
    · obtain ⟨above, ha, hs⟩ := ihr h
      exact ⟨above, ha, hs.trans (List.sublist_append_right _ _)⟩
  | node label children rest ihc ihr =>
    intro earlier ancestors h
    rcases List.mem_cons.mp h with rfl | h
    · exact ⟨[], (List.append_nil _).symm, List.nil_sublist _⟩
    · rcases List.mem_append.mp h with h | h
      · obtain ⟨above, ha, hs⟩ := ihc h
        refine ⟨⟨label, children⟩ :: above, by rw [ha, List.append_assoc]; rfl, ?_⟩
        exact (hs.trans (List.sublist_append_left _ _)).cons_cons _
      · obtain ⟨above, ha, hs⟩ := ihr h
        exact ⟨above, ha, (hs.trans (List.sublist_append_right _ _)).cons _⟩

theorem Node.ancestors_sublist {p : Place W} {t : Node W} (h : p ∈ t.places) : p.ancestors.Sublist t.nodes := by
  obtain ⟨above, ha, hs⟩ := Forest.exists_ancestors h
  rw [ha, ← t.nodes_alone]
  exact hs

/-! ## Places and tours -/

namespace Place

/-- The rules that the ancestors of a place introduced, outermost first. -/
def introduced (p : Place W) : List (Rule W) := p.ancestors.flatMap (·.label.introduced)

/-- The visit of a place. Where no scope is kept, no rules and no ids are. -/
def visit (tracks : Bool) (p : Place W) : Visit W where
  node := p.node
  depth := p.ancestors.length
  index := p.earlier.length
  scope :=
    if tracks then ⟨p.introduced, Scope.lowestOf 0 (p.earlier.flatMap (·.label.introduced))⟩ else Scope.empty

end Place

/-- The scope at a forest that has some nodes before it and above it. -/
def Scope.amid (tracks : Bool) (earlier ancestors : List (Node W)) : Scope W :=
  ⟨ancestors.flatMap (·.label.bound tracks), Scope.lowestOf 0 (earlier.flatMap (·.label.bound tracks))⟩

namespace Scope

variable (tracks : Bool) (earlier ancestors : List (Node W))

theorem pass_amid (nodes : List (Node W)) :
    (amid tracks earlier ancestors).pass tracks (nodes.map (·.label)) = amid tracks (earlier ++ nodes) ancestors := by
  simp [amid, pass, List.flatMap_map]

theorem enter_amid (n : Node W) :
    (amid tracks earlier ancestors).enter (n.label.bound tracks) = amid tracks (earlier ++ [n]) (ancestors ++ [n]) := by
  simp [amid, enter]

end Scope

theorem Place.visit_eq (tracks : Bool) (p : Place W) :
    p.visit tracks = ⟨p.node, p.ancestors.length, p.earlier.length, Scope.amid tracks p.earlier p.ancestors⟩ := by
  cases tracks with
  | true => rfl
  | false =>
    have hnil : ∀ nodes : List (Node W), nodes.flatMap (·.label.bound false) = [] := fun nodes => by simp [Label.bound]
    rw [visit, Scope.amid, hnil, hnil]
    rfl

/-- The tour of a forest gives at every place what its surroundings determine. -/
theorem Forest.tour_eq_places (tracks : Bool) (forest : Forest W) : ∀ earlier ancestors : List (Node W),
    forest.tour tracks ancestors.length (Scope.amid tracks earlier ancestors) earlier.length =
      (forest.places earlier ancestors).map (Place.visit tracks) := by
  induction forest with
  | nil => intro _ _; rfl
  | leaf s rest ih => intro earlier ancestors; exact ih earlier ancestors
  | seq inside rest ihi ihr =>
    intro earlier ancestors
    have hr := ihr (earlier ++ inside.nodes) ancestors
    rw [List.length_append, ← inside.length_labels] at hr
    rw [tour, places, List.map_append, ihi, labels, Scope.pass_amid, ← labels, hr]
  | node label children rest ihc ihr =>
    intro earlier ancestors
    have hc := ihc (earlier ++ [⟨label, children⟩]) (ancestors ++ [⟨label, children⟩])
    have hr := ihr (earlier ++ Node.nodes ⟨label, children⟩) ancestors
    have henter := Scope.enter_amid tracks earlier ancestors ⟨label, children⟩
    have hpass := Scope.pass_amid tracks earlier ancestors (Node.nodes ⟨label, children⟩)
    have hlength : (earlier ++ Node.nodes ⟨label, children⟩).length = earlier.length + 1 + children.labels.length := by
      simp only [Node.nodes, List.length_append, List.length_cons, length_labels]
      omega
    rw [hlength] at hr
    rw [List.length_append, List.length_append, List.length_singleton] at hc
    rw [tour, places, List.map_cons, List.map_append, Place.visit_eq, ← hc, ← hr, ← henter, ← hpass]
    rfl

theorem Node.tour_eq_places (tracks : Bool) (t : Node W) : t.tour tracks = t.places.map (Place.visit tracks) :=
  t.alone.tour_eq_places tracks [] []

theorem Place.visit_mem_tour {t : Node W} {p : Place W} (h : p ∈ t.places) (tracks : Bool) :
    p.visit tracks ∈ t.tour tracks := by
  rw [Node.tour_eq_places]
  exact List.mem_map_of_mem h

/-! ## Calls of a walk -/

namespace Walk

variable {S : Type}

/-- The walk after a number of calls. -/
def after : Nat → Walk W S → Walk W S
  | 0, w => w
  | n + 1, w => after n w.next.2

/-- What a call does: the test is asked about visits up to the first one that passes, which is given, and the scope is
then the one of that visit; or it is asked about all that are left, and none of them passes. -/
inductive Calls (w : Walk W S) : Option (Visit W) → Walk W S → Prop
  | visit {v : Visit W} {w' : Walk W S} {asked : List (Visit W)} :
      w.ahead = asked ++ w'.ahead → w.test.passed w.state asked = [v] → asked.getLast? = some v →
        w'.state = w.test.stateAfter w.state asked → w'.scope = v.scope → w'.finalScope = w.finalScope →
          w'.test = w.test → Calls w (some v) w'
  | finish {w' : Walk W S} : w.test.passed w.state w.ahead = [] → w'.ahead = [] →
      w'.state = w.test.stateAfter w.state w.ahead → w'.scope = w.finalScope → w'.finalScope = w.finalScope →
        w'.test = w.test → Calls w none w'

/-- A step that gives no visit leaves it to the rest of the walk to do what a call does. -/
theorem Calls.of_step {w w' w'' : Walk W S} {visit? : Option (Visit W)} (h : w.step = some (none, w'))
    (hcall : w'.Calls visit? w'') : w.Calls visit? w'' := by
  obtain ⟨asked, hahead, hpass, hstate, _, hfinal, htest⟩ := agendaTour_step h
  replace hpass : w.test.passed w.state asked.toList = [] := hpass.symm
  have hpassed : ∀ visits : List (Visit W),
      w.test.passed w.state (asked.toList ++ visits) = w'.test.passed w'.state visits := by
    intro visits
    rw [StatefulTest.passed_append, hpass, List.nil_append, hstate, htest]
  have hafter : ∀ visits : List (Visit W),
      w.test.stateAfter w.state (asked.toList ++ visits) = w'.test.stateAfter w'.state visits := by
    intro visits
    rw [StatefulTest.stateAfter_append, hstate, htest]
  cases hcall with
  | @visit v w'' more ha hp hl hs hsc hf ht =>
    have hwhole : w.ahead = (asked.toList ++ more) ++ w''.ahead := by rw [hahead, ha, List.append_assoc]
    refine .visit hwhole ((hpassed more).trans hp) ?_ (hs.trans (hafter more).symm) hsc (hf.trans hfinal)
      (ht.trans htest)
    rw [List.getLast?_append, hl]
    rfl
  | finish hp ha hs hsc hf ht =>
    rw [← hpassed, ← hahead] at hp
    rw [← hafter, ← hahead] at hs
    exact .finish hp ha hs (hsc.trans hfinal) (hf.trans hfinal) (ht.trans htest)

/-- A call does what it has to. The induction is on the work that is left. -/
theorem next_calls (w : Walk W S) : w.Calls w.next.1 w.next.2 := by
  induction hn : w.work using Nat.strongRecOn generalizing w with
  | ind n ih =>
    subst hn
    rw [next]
    split
    · rename_i h
      have hagenda := agenda_eq_nil_of_step h
      have hahead : w.ahead = [] := by rw [ahead, hagenda]; rfl
      have hfinal : w.scope = w.finalScope := by rw [finalScope, hagenda]; rfl
      exact .finish (by rw [hahead]; rfl) hahead (by rw [hahead]; rfl) hfinal rfl rfl
    · rename_i v w' h
      obtain ⟨asked, hahead, hpass, hstate, hscope, hfinal, htest⟩ := agendaTour_step h
      obtain ⟨u, rfl⟩ : ∃ u, asked = some u := by
        cases asked with
        | none => cases hpass
        | some u => exact ⟨u, rfl⟩
      obtain rfl : v = u := by
        simp only [Option.toList_some, StatefulTest.passed] at hpass
        split at hpass
        · exact (List.cons.inj hpass).1
        · cases hpass
      exact .visit hahead hpass.symm rfl hstate (hscope v rfl) hfinal htest
    · rename_i w' h
      exact .of_step h (ih _ (work_lt_of_step h) w' rfl)

/-- What a call does after a number of others: it gives the next one of the visits that pass. -/
theorem next_after_calls : ∀ (n : Nat) (w : Walk W S),
    match (w.test.passed w.state w.ahead)[n]? with
    | some v => (w.after n).next.1 = some v ∧ (w.after n).next.2.scope = v.scope ∧
        ∃ asked rest, w.ahead = asked ++ rest ∧ asked.getLast? = some v ∧
          (w.after n).next.2.state = w.test.stateAfter w.state asked
    | none => (w.after n).next.1 = none ∧ (w.after n).next.2.scope = w.finalScope ∧
        (w.after n).next.2.state = w.test.stateAfter w.state w.ahead
  | 0, w => by
    have h := w.next_calls
    generalize hv : w.next.1 = visit? at h
    cases h with
    | @visit v _ asked ha hp hl hs hsc _ _ =>
      rw [ha, StatefulTest.passed_append, hp]
      exact ⟨hv, hsc, asked, _, rfl, hl, hs⟩
    | finish hp ha hs hsc _ _ =>
      rw [hp]
      exact ⟨hv, hsc, hs⟩
  | n + 1, w => by
    have h := w.next_calls
    have ih := next_after_calls n w.next.2
    generalize hv : w.next.1 = visit? at h
    cases h with
    | @visit v _ asked ha hp hl hs hsc hf ht =>
      have hpassed : w.test.passed w.state w.ahead = v :: w.next.2.test.passed w.next.2.state w.next.2.ahead := by
        rw [ha, StatefulTest.passed_append, hp, hs, ht]
        rfl
      rw [hpassed, List.getElem?_cons_succ]
      cases hu : (w.next.2.test.passed w.next.2.state w.next.2.ahead)[n]? with
      | some u =>
        rw [hu] at ih
        obtain ⟨hsome, hscope, more, rest, hm, hlast, hstate⟩ := ih
        refine ⟨hsome, hscope, asked ++ more, rest, by rw [ha, hm, List.append_assoc], ?_, ?_⟩
        · rw [List.getLast?_append, hlast]
          rfl
        · rw [StatefulTest.stateAfter_append, ← hs, ← ht]
          exact hstate
      | none =>
        rw [hu] at ih
        obtain ⟨hnone, hscope, hstate⟩ := ih
        refine ⟨hnone, hscope.trans hf, hstate.trans ?_⟩
        rw [ha, StatefulTest.stateAfter_append, ← hs, ← ht]
    | finish hp ha hs hsc hf ht =>
      rw [ha] at ih
      rw [hp]
      exact ⟨ih.1, ih.2.1.trans hf, ih.2.2.trans hs⟩

theorem finalScope_start (t : Node W) (test : StatefulTest W S) (state : S) (tracks : Bool) :
    (start t test state tracks).finalScope.rules = [] := rfl

/-- **A walk is the recursive listing of places, call by call.** The places of a tree are its nodes in preorder. The
test is asked about them one after another, each in its scope, and the calls give the visits of those that pass. After
a call that gives a visit the scope is the one of that visit, and the test was asked up to there. After any other call
no rule is in scope, and the test was asked about all. -/
theorem next_after (t : Node W) (test : StatefulTest W S) (state : S) (tracks : Bool) :
    t.places.map (·.node) = t.nodes ∧
      (t.places.map (·.earlier) = (List.range t.size).map fun i => t.nodes.take i) ∧
      ∀ n, let visits := t.places.map (Place.visit tracks)
        let call := ((start t test state tracks).after n).next
        match (test.passed state visits)[n]? with
        | some v => call.1 = some v ∧ call.2.scope = v.scope ∧
            call.2.state = test.stateAfter state (visits.take (v.index + 1))
        | none => call.1 = none ∧ call.2.scope.rules = [] ∧ call.2.state = test.stateAfter state visits := by
  refine ⟨t.map_node_places, t.map_earlier_places, fun n => ?_⟩
  have h := next_after_calls n (start t test state tracks)
  rw [ahead_start, show (start t test state tracks).test = test from rfl,
    show (start t test state tracks).state = state from rfl] at h
  simp only [← t.tour_eq_places]
  cases hv : (test.passed state (t.tour tracks))[n]? with
  | none =>
    rw [hv] at h
    exact ⟨h.1, by rw [h.2.1]; exact finalScope_start .., h.2.2⟩
  | some v =>
    rw [hv] at h
    obtain ⟨hsome, hscope, asked, rest, ha, hlast, hstate⟩ := h
    refine ⟨hsome, hscope, hstate.trans ?_⟩
    -- the visit that is given stands at its own index in the tour
    have hindex : asked.length = v.index + 1 := by
      have hget : (t.tour tracks)[asked.length - 1]? = some v := by
        rw [ha, List.getElem?_append_left (by cases asked <;> simp_all), ← List.getLast?_eq_getElem?, hlast]
      rw [Node.getElem?_tour hget]
      cases asked with
      | nil => cases hlast
      | cons u us => simp
    rw [ha, ← hindex, List.take_left]

end Walk

end ScopedGrammar

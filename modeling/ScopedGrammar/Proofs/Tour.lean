import ScopedGrammar.Proofs.Hole
import ScopedGrammar.Selection

/-!
# Scoped traversal by recursion

`Forest.tour` lists the visits of all nodes of a forest by recursion on it: below a node the scope has the rules of that
node, and behind it only the ids of these rules are left. A step of a walk takes a visit off its tour or none, and gives
it if it passes the test (`Walk.agendaTour_step`). So a walk that is run to its end gives the visits of the tour that
pass its test (`Walk.toList_eq_tour`). Every visit of a tour is at the hole that it leaves (`exists_hole_of_mem_tour`).
-/

namespace ScopedGrammar

variable {W : Type}

/-! ## Scopes along a tour -/

/-- The rules that a walk brings into scope at a node. -/
def Label.bound (tracks : Bool) (l : Label W) : List (Rule W) := if tracks then l.introduced else []

namespace Scope

/-- The lowest of an id and the ids of rules. -/
def lowestOf (lowest : Int) (rules : List (Rule W)) : Int := rules.foldl (fun low r => min low r.id) lowest

/-- The scope below a node that introduces rules. -/
def enter (s : Scope W) (rules : List (Rule W)) : Scope W := ⟨s.rules ++ rules, lowestOf s.lowest rules⟩

/-- The scope behind nodes: of their rules only the ids are left. -/
def pass (tracks : Bool) (s : Scope W) (labels : List (Label W)) : Scope W :=
  ⟨s.rules, lowestOf s.lowest (labels.flatMap (Label.bound tracks))⟩

theorem foldl_push (rules : List (Rule W)) (s : Scope W) : rules.foldl push s = s.enter rules := by
  induction rules generalizing s with
  | nil => simp [enter, lowestOf]
  | cons r rules ih => simp [ih, push, enter, lowestOf]

theorem lowestOf_le : ∀ (rules : List (Rule W)) (lowest : Int), lowestOf lowest rules ≤ lowest
  | [], _ => Int.le_refl _
  | r :: rules, lowest => by
    have h := lowestOf_le rules (min lowest r.id)
    simp only [lowestOf, List.foldl_cons] at h ⊢
    omega

theorem le_lowestOf {low lowest : Int} {rules : List (Rule W)} (h : low ≤ lowest) (hrules : ∀ r ∈ rules, low ≤ r.id) :
    low ≤ lowestOf lowest rules := by
  induction rules generalizing lowest with
  | nil => exact h
  | cons r rules ih =>
    obtain ⟨hr, hrest⟩ := List.forall_mem_cons.mp hrules
    have hmin : low ≤ min lowest r.id := by omega
    exact ih hmin hrest

@[simp] theorem lowestOf_append (lowest : Int) (as bs : List (Rule W)) :
    lowestOf lowest (as ++ bs) = lowestOf (lowestOf lowest as) bs := List.foldl_append ..

@[simp] theorem pass_nil (tracks : Bool) (s : Scope W) : s.pass tracks [] = s := rfl

theorem pass_append (tracks : Bool) (s : Scope W) (as bs : List (Label W)) :
    s.pass tracks (as ++ bs) = (s.pass tracks as).pass tracks bs := by
  simp [pass]

/-- Leaving what is below a node drops its rules. -/
theorem truncate_enter_pass (tracks : Bool) (s : Scope W) (l : Label W) (labels : List (Label W)) :
    ((s.enter (l.bound tracks)).pass tracks labels).truncate s.mark = s.pass tracks (l :: labels) := by
  simp [truncate, mark, enter, pass]

end Scope

/-! ## Tours -/

/-- The visits of all nodes of a forest in a scope, from a position on. -/
def Forest.tour (tracks : Bool) : Forest W → Nat → Scope W → Nat → List (Visit W)
  | nil, _, _, _ => []
  | leaf _ rest, depth, scope, index => tour tracks rest depth scope index
  | seq inside rest, depth, scope, index =>
    tour tracks inside depth scope index ++
      tour tracks rest depth (scope.pass tracks inside.labels) (index + inside.labels.length)
  | node label children rest, depth, scope, index =>
    ⟨⟨label, children⟩, depth, index, scope⟩ ::
      (tour tracks children (depth + 1) (scope.enter (label.bound tracks)) (index + 1) ++
        tour tracks rest depth (scope.pass tracks (label :: children.labels)) (index + 1 + children.labels.length))

/-- The visits of all nodes of a tree, where no variable is bound. -/
def Node.tour (tracks : Bool) (t : Node W) : List (Visit W) := t.alone.tour tracks 0 Scope.empty 0

namespace Forest

variable (tracks : Bool)

@[simp] theorem map_node_tour (forest : Forest W) : ∀ (depth : Nat) (scope : Scope W) (index : Nat),
    (forest.tour tracks depth scope index).map (·.node) = forest.nodes := by
  induction forest with
  | nil => intro _ _ _; rfl
  | leaf s rest ih => intro depth scope index; exact ih depth scope index
  | seq inside rest ihi ihr => intro depth scope index; simp [tour, nodes, ihi, ihr]
  | node label children rest ihc ihr => intro depth scope index; simp [tour, nodes, ihc, ihr]

/-- Visits are numbered in the order of a tour. -/
theorem map_index_tour (forest : Forest W) : ∀ (depth : Nat) (scope : Scope W) (index : Nat),
    (forest.tour tracks depth scope index).map (·.index) = List.range' index forest.nodes.length := by
  induction forest with
  | nil => intro _ _ _; rfl
  | leaf s rest ih => intro depth scope index; exact ih depth scope index
  | seq inside rest ihi ihr =>
    intro depth scope index
    rw [tour, List.map_append, ihi, ihr, nodes, List.length_append, length_labels, List.range'_append_1]
  | node label children rest ihc ihr =>
    intro depth scope index
    rw [tour, List.map_cons, List.map_append, ihc, ihr, nodes, List.length_cons, List.length_append, length_labels,
      List.range'_append_1, List.range'_succ]

end Forest

@[simp] theorem Node.map_node_tour (tracks : Bool) (t : Node W) : (t.tour tracks).map (·.node) = t.nodes := by
  simp [tour]

/-- A visit stands in the tour at its own index. -/
theorem Node.getElem?_tour {tracks : Bool} {t : Node W} {i : Nat} {v : Visit W} (h : (t.tour tracks)[i]? = some v) :
    v.index = i := by
  have hi := congrArg (·[i]?) (t.alone.map_index_tour tracks 0 Scope.empty 0)
  simp only [List.getElem?_map] at hi
  rw [show (t.alone.tour tracks 0 Scope.empty 0)[i]? = some v from h, Option.map_some] at hi
  obtain ⟨_, he⟩ := List.getElem?_eq_some_iff.mp hi.symm
  rw [List.getElem_range'] at he
  omega

/-- The node at a position is visited as the one with that index. -/
theorem Node.exists_visit {t n : Node W} {i : Nat} (hn : t.get? i = some n) (tracks : Bool) :
    ∃ v, (t.tour tracks)[i]? = some v ∧ v.node = n ∧ v.index = i := by
  have hnode : ((t.tour tracks)[i]?).map (·.node) = some n := by
    rw [← List.getElem?_map, t.map_node_tour]
    exact hn
  obtain ⟨v, hv, hvn⟩ := Option.map_eq_some_iff.mp hnode
  exact ⟨v, hv, hvn, getElem?_tour hv⟩

theorem Node.getElem?_tour_of_mem {tracks : Bool} {t : Node W} {v : Visit W} (h : v ∈ t.tour tracks) :
    (t.tour tracks)[v.index]? = some v := by
  obtain ⟨i, hi⟩ := List.mem_iff_getElem?.mp h
  rw [getElem?_tour hi, hi]

/-! ## Tests -/

namespace StatefulTest

variable {S : Type} (test : StatefulTest W S)

/-- The visits that pass a test which is asked about them one after another. -/
def passed : S → List (Visit W) → List (Visit W)
  | _, [] => []
  | state, v :: rest =>
    let answer := test state v.node v.scope
    if answer.1 then v :: passed answer.2 rest else passed answer.2 rest

/-- The state of a test that was asked about visits one after another. -/
def stateAfter (state : S) (visits : List (Visit W)) : S :=
  visits.foldl (fun state v => (test state v.node v.scope).2) state

end StatefulTest

theorem NodeTest.passed_stateless (accepts : NodeTest W) : ∀ visits : List (Visit W),
    accepts.stateless.passed () visits = visits.filter fun v => accepts v.node v.scope
  | [] => rfl
  | v :: rest => by
    rw [StatefulTest.passed, passed_stateless accepts rest, List.filter_cons]
    rfl

/-! ## Walks -/

namespace Walk

variable {S : Type}

/-- The visits that an agenda leads to, whether they count or not. -/
def agendaTour (tracks : Bool) : List (Step W) → Scope W → Nat → List (Visit W)
  | [], _, _ => []
  | .visit n depth :: rest, scope, index =>
    n.alone.tour tracks depth scope index ++
      agendaTour tracks rest (scope.pass tracks n.labels) (index + n.labels.length)
  | .enter n depth :: rest, scope, index =>
    n.children.tour tracks (depth + 1) (scope.enter (n.label.bound tracks)) index ++
      agendaTour tracks rest (scope.pass tracks n.labels) (index + n.children.labels.length)
  | .release mark :: rest, scope, index => agendaTour tracks rest (scope.truncate mark) index

/-- The scope that an agenda leads to. -/
def agendaScope (tracks : Bool) : List (Step W) → Scope W → Scope W
  | [], scope => scope
  | .visit n _ :: rest, scope => agendaScope tracks rest (scope.pass tracks n.labels)
  | .enter n _ :: rest, scope => agendaScope tracks rest (scope.pass tracks n.labels)
  | .release mark :: rest, scope => agendaScope tracks rest (scope.truncate mark)

/-- Visiting the topmost trees of a forest one after another is the tour of the forest. -/
theorem agendaTour_roots (tracks : Bool) (depth : Nat) (forest : Forest W) : ∀ (rest : List (Step W))
    (scope : Scope W) (index : Nat), agendaTour tracks (forest.roots.map (Step.visit · depth) ++ rest) scope index =
      forest.tour tracks depth scope index ++
        agendaTour tracks rest (scope.pass tracks forest.labels) (index + forest.labels.length) := by
  induction forest with
  | nil => intro rest scope index; simp [Forest.roots, Forest.tour]
  | leaf s more ih => intro rest scope index; exact ih rest scope index
  | seq inside more ihi ihm =>
    intro rest scope index
    rw [Forest.roots, List.map_append, List.append_assoc, ihi, ihm]
    simp [Forest.tour, Scope.pass_append, Nat.add_assoc]
  | node label children more _ ihm =>
    intro rest scope index
    have hcons : (label :: children.labels) ++ more.labels = label :: (children.labels ++ more.labels) := rfl
    rw [Forest.roots, List.map_cons, List.cons_append, agendaTour, ihm]
    simp only [Forest.tour, Node.alone, Node.labels_eq, Forest.labels_node, List.length_cons,
      List.append_nil, List.append_assoc, List.cons_append, ← Scope.pass_append, hcons, List.length_append]
    congr 3
    · congr 1; omega
    · congr 1; omega

/-- Visiting the topmost trees of a forest one after another leaves only the ids of the rules in the forest. -/
theorem agendaScope_roots (tracks : Bool) (depth : Nat) (forest : Forest W) : ∀ (rest : List (Step W))
    (scope : Scope W), agendaScope tracks (forest.roots.map (Step.visit · depth) ++ rest) scope =
      agendaScope tracks rest (scope.pass tracks forest.labels) := by
  induction forest with
  | nil => intro rest scope; rfl
  | leaf s more ih => intro rest scope; exact ih rest scope
  | seq inside more ihi ihm =>
    intro rest scope
    rw [Forest.roots, List.map_append, List.append_assoc, ihi, ihm, ← Scope.pass_append, Forest.labels_seq]
  | node label children more _ ihm =>
    intro rest scope
    rw [Forest.roots, List.map_cons, List.cons_append, agendaScope, ihm, ← Scope.pass_append, Forest.labels_node,
      Node.labels_eq, List.cons_append]

/-- The visits that are left to a walk, whether they count or not. -/
def ahead (w : Walk W S) : List (Visit W) := agendaTour w.tracksScope w.agenda w.scope w.index

/-- The scope that a walk ends with. -/
def finalScope (w : Walk W S) : Scope W := agendaScope w.tracksScope w.agenda w.scope

theorem bind_eq (w : Walk W S) (n : Node W) : w.bind n = w.scope.enter (n.label.bound w.tracksScope) := by
  unfold Walk.bind Label.bound
  cases w.tracksScope with
  | true => exact Scope.foldl_push _ _
  | false => simp [Scope.enter, Scope.lowestOf]

/-- What a step of a walk does: it asks the test about the first visit that is left, or about none, and gives the visit
if it passes. The scope is then the one of that visit. The walk still leads to the same scope. -/
theorem agendaTour_step {w w' : Walk W S} {visit? : Option (Visit W)} (h : w.step = some (visit?, w')) :
    ∃ asked : Option (Visit W), w.ahead = asked.toList ++ w'.ahead ∧
      visit?.toList = w.test.passed w.state asked.toList ∧ w'.state = w.test.stateAfter w.state asked.toList ∧
      (∀ v ∈ asked, w'.scope = v.scope) ∧ w'.finalScope = w.finalScope ∧ w'.test = w.test := by
  unfold step at h
  split at h
  · cases h
  · rename_i n depth rest e
    cases h
    have hlen : w.index + (n.children.labels.length + 1) = w.index + 1 + n.children.labels.length := by omega
    refine ⟨some ⟨n, depth, w.index, w.scope⟩, ?_, ?_, rfl, ?_, ?_, rfl⟩
    · simp only [ahead, e, agendaTour, Node.alone, Forest.tour, Node.labels_eq, List.length_cons, List.append_nil,
        Option.toList_some, List.cons_append, List.nil_append, hlen]
    · simp only [Option.toList_some, StatefulTest.passed]
      split <;> rfl
    · intro v hv
      cases hv
      rfl
    · simp only [finalScope, e, agendaScope]
  · rename_i n depth rest e
    cases h
    refine ⟨none, ?_, rfl, rfl, by simp, ?_, rfl⟩
    · simp only [ahead, e, Node.subtrees, agendaTour_roots, agendaTour, bind_eq, Scope.truncate_enter_pass,
        Node.labels_eq, Option.toList_none, List.nil_append]
    · simp only [finalScope, e, Node.subtrees, agendaScope_roots, agendaScope, bind_eq, Scope.truncate_enter_pass,
        Node.labels_eq]
  · rename_i mark rest e
    cases h
    refine ⟨none, ?_, rfl, rfl, by simp, ?_, rfl⟩
    · simp only [ahead, e, agendaTour, Option.toList_none, List.nil_append]
    · simp only [finalScope, e, agendaScope]

/-- A walk that takes no step has nothing left to do. -/
theorem agenda_eq_nil_of_step {w : Walk W S} (h : w.step = none) : w.agenda = [] := by
  unfold step at h
  split at h
  · assumption
  all_goals cases h

end Walk

namespace StatefulTest

variable {S : Type} (test : StatefulTest W S)

theorem mem_of_mem_passed {v : Visit W} : ∀ {state : S} {visits : List (Visit W)}, v ∈ test.passed state visits →
    v ∈ visits
  | _, [], h => h
  | state, u :: rest, h => by
    rw [passed] at h
    split at h
    · rcases List.mem_cons.mp h with rfl | h
      · exact List.mem_cons_self
      · exact List.mem_cons_of_mem _ (mem_of_mem_passed h)
    · exact List.mem_cons_of_mem _ (mem_of_mem_passed h)

theorem passed_append : ∀ (state : S) (as bs : List (Visit W)),
    test.passed state (as ++ bs) = test.passed state as ++ test.passed (test.stateAfter state as) bs
  | _, [], _ => rfl
  | state, v :: as, bs => by
    have ih := passed_append (test state v.node v.scope).2 as bs
    simp only [List.cons_append, passed, stateAfter, List.foldl_cons] at ih ⊢
    rw [ih]
    split <;> rfl

theorem stateAfter_append (state : S) (as bs : List (Visit W)) :
    test.stateAfter state (as ++ bs) = test.stateAfter (test.stateAfter state as) bs := List.foldl_append ..

end StatefulTest

namespace Walk

variable {S : Type}

/-- The visits of a walk are those left to it that pass the test, which is then in the state behind them all. -/
theorem finish_eq (w : Walk W S) :
    w.finish = (w.test.passed w.state w.ahead, w.test.stateAfter w.state w.ahead) := by
  induction hn : w.work using Nat.strongRecOn generalizing w with
  | ind n ih =>
    subst hn
    rw [finish]
    split
    · rename_i h
      rw [ahead, agenda_eq_nil_of_step h]
      rfl
    · rename_i visit? w' h
      obtain ⟨asked, hahead, hpass, hstate, _, _, htest⟩ := agendaTour_step h
      rw [hahead, StatefulTest.passed_append, StatefulTest.stateAfter_append, ih _ (work_lt_of_step h) w' rfl, hpass,
        hstate, htest]

/-- A step gives the first of the visits that are left, or none of them. -/
theorem toList_of_step {w w' : Walk W S} {visit? : Option (Visit W)} (h : w.step = some (visit?, w')) :
    w.toList = visit?.toList ++ w'.toList := by
  rw [toList, finish]
  split
  · rename_i hnone
    rw [h] at hnone
    cases hnone
  · rename_i hsome
    rw [h] at hsome
    cases hsome
    rfl

theorem toList_eq_passed (w : Walk W S) : w.toList = w.test.passed w.state w.ahead := congrArg Prod.fst w.finish_eq

theorem ahead_start (t : Node W) (test : StatefulTest W S) (state : S) (tracks : Bool) :
    (start t test state tracks).ahead = t.tour tracks := by
  simp [start, ahead, agendaTour, Node.tour]

theorem toList_eq_tour (t : Node W) (accepts : NodeTest W) (tracks : Bool) :
    (ofTree t accepts tracks).toList = (t.tour tracks).filter fun v => accepts v.node v.scope := by
  rw [toList_eq_passed, ofTree, ahead_start]
  exact accepts.passed_stateless _

theorem toList_all (t : Node W) (tracks : Bool) : (ofTree t NodeTest.all tracks).toList = t.tour tracks := by
  rw [toList_eq_tour]
  exact List.filter_eq_self.mpr fun _ _ => rfl

end Walk

theorem Node.visits_eq_tour [Arith W] (t : Node W) (accepts : NodeTest W) :
    t.visits accepts = (t.tour true).filter fun v => accepts v.node v.scope := Walk.toList_eq_tour t accepts true

theorem Node.visits_all [Arith W] (t : Node W) : t.visits NodeTest.all = t.tour true := Walk.toList_all t true

theorem Node.normalizer_eq_total [Arith W] (t : Node W) (accepts : NodeTest W) :
    t.normalizer accepts = Arith.total ((t.visits accepts).map Visit.weight) := rfl

/-- The ids in use only go down along a tour. -/
theorem Forest.lowest_le_of_mem_tour {tracks : Bool} {v : Visit W} {forest : Forest W} :
    ∀ {depth : Nat} {scope : Scope W} {index : Nat}, v ∈ forest.tour tracks depth scope index →
      v.scope.lowest ≤ scope.lowest := by
  have hpass : ∀ (s : Scope W) (labels : List (Label W)), (s.pass tracks labels).lowest ≤ s.lowest :=
    fun _ _ => Scope.lowestOf_le _ _
  induction forest with
  | nil => intro _ _ _ h; cases h
  | leaf s rest ih => intro depth scope index h; exact ih h
  | seq inside rest ihi ihr =>
    intro depth scope index h
    rcases List.mem_append.mp h with h | h
    · exact ihi h
    · exact Int.le_trans (ihr h) (hpass _ _)
  | node label children rest ihc ihr =>
    intro depth scope index h
    rcases List.mem_cons.mp h with rfl | h
    · exact Int.le_refl _
    · rcases List.mem_append.mp h with h | h
      · exact Int.le_trans (ihc h) (Scope.lowestOf_le _ _)
      · exact Int.le_trans (ihr h) (hpass _ _)

/-- The ids in use do not go below those of the rules that are introduced. -/
theorem Forest.le_lowest_of_mem_tour {tracks : Bool} {low : Int} {v : Visit W} {forest : Forest W} :
    ∀ {depth : Nat} {scope : Scope W} {index : Nat}, low ≤ scope.lowest →
      (∀ r ∈ forest.labels.flatMap (Label.bound tracks), low ≤ r.id) → v ∈ forest.tour tracks depth scope index →
        low ≤ v.scope.lowest := by
  induction forest with
  | nil => intro _ _ _ _ _ h; cases h
  | leaf s rest ih => intro depth scope index hlow hids h; exact ih hlow hids h
  | seq inside rest ihi ihr =>
    intro depth scope index hlow hids h
    rw [Forest.labels_seq, List.flatMap_append, List.forall_mem_append] at hids
    rcases List.mem_append.mp h with h | h
    · exact ihi hlow hids.1 h
    · exact ihr (Scope.le_lowestOf hlow hids.1) hids.2 h
  | node label children rest ihc ihr =>
    intro depth scope index hlow hids h
    rw [Forest.labels_node, ← List.cons_append, List.flatMap_append, List.forall_mem_append] at hids
    obtain ⟨hown, hrest⟩ := hids
    rcases List.mem_cons.mp h with rfl | h
    · exact hlow
    · rcases List.mem_append.mp h with h | h
      · rw [List.flatMap_cons, List.forall_mem_append] at hown
        exact ihc (Scope.le_lowestOf hlow hown.1) hown.2 h
      · exact ihr (Scope.le_lowestOf hlow hown) hrest h

theorem Node.lowest_nonpos_of_mem_tour {tracks : Bool} {v : Visit W} {t : Node W} (h : v ∈ t.tour tracks) :
    v.scope.lowest ≤ 0 := Forest.lowest_le_of_mem_tour h

/-! ## Visits and holes -/

/-- The rules that a walk has in scope at a hole. -/
def Hole.bound (tracks : Bool) (hole : Hole W) : List (Rule W) := if tracks then hole.introduced else []

/-- A visit of a tour is at a hole of the forest, in the scope of that hole. -/
theorem Forest.exists_hole_of_mem_tour {tracks : Bool} {v : Visit W} {forest : Forest W} :
    ∀ {depth : Nat} {scope : Scope W} {index : Nat}, v ∈ forest.tour tracks depth scope index →
      ∃ hole : Hole W, hole.plug v.node = forest ∧ v.index = index + hole.index ∧ v.depth = depth + hole.depth ∧
        v.scope.rules = scope.rules ++ hole.bound tracks := by
  induction forest with
  | nil => intro _ _ _ h; cases h
  | leaf s rest ih =>
    intro depth scope index h
    obtain ⟨hole, rfl, hi, hd, hs⟩ := ih h
    exact ⟨.afterLeaf s hole, rfl, hi, hd, hs⟩
  | seq inside rest ihi ihr =>
    intro depth scope index h
    rcases List.mem_append.mp h with h | h
    · obtain ⟨hole, rfl, hi, hd, hs⟩ := ihi h
      exact ⟨.inSeq hole rest, rfl, hi, hd, hs⟩
    · obtain ⟨hole, rfl, hi, hd, hs⟩ := ihr h
      exact ⟨.afterSeq inside hole, rfl, by simp [hi, Hole.index, Hole.before, Nat.add_assoc], hd, hs⟩
  | node label children rest ihc ihr =>
    intro depth scope index h
    rcases List.mem_cons.mp h with rfl | h
    · exact ⟨.here rest, rfl, rfl, rfl, by cases tracks <;> simp [Hole.bound, Hole.introduced]⟩
    · rcases List.mem_append.mp h with h | h
      · obtain ⟨hole, rfl, hi, hd, hs⟩ := ihc h
        refine ⟨.under label hole rest, rfl, ?_, ?_, ?_⟩
        · simp only [hi, Hole.index, Hole.before, List.length_cons]; omega
        · simp only [hd, Hole.depth]; omega
        · cases tracks <;> simp_all [Hole.bound, Hole.introduced, Scope.enter, Label.bound]
      · obtain ⟨hole, rfl, hi, hd, hs⟩ := ihr h
        refine ⟨.afterNode label children hole, rfl, ?_, hd, hs⟩
        simp only [hi, Hole.index, Hole.before, List.length_cons, List.length_append]; omega

theorem Node.exists_hole_of_mem_tour {tracks : Bool} {v : Visit W} {t : Node W} (h : v ∈ t.tour tracks) :
    ∃ hole : Hole W, hole.plug v.node = t.alone ∧ v.index = hole.index ∧ v.depth = hole.depth ∧
      v.scope.rules = hole.bound tracks := by
  obtain ⟨hole, hp, hi, hd, hs⟩ := Forest.exists_hole_of_mem_tour h
  exact ⟨hole, hp, by simpa using hi, by simpa using hd, by simpa [Scope.empty] using hs⟩

/-- A position at which there is a node is that of a hole. -/
theorem Node.exists_hole_of_get? {t n : Node W} {i : Nat} (hn : t.get? i = some n) :
    ∃ hole : Hole W, hole.plug n = t.alone ∧ hole.index = i := by
  obtain ⟨v, hv, rfl, hvi⟩ := exists_visit hn true
  obtain ⟨hole, hplug, hi, _, _⟩ := exists_hole_of_mem_tour (List.mem_of_getElem? hv)
  exact ⟨hole, hplug, hi.symm.trans hvi⟩

/-- The nodes below a visited one follow it in preorder. -/
theorem Node.nodes_of_mem_tour {tracks : Bool} {v : Visit W} {t : Node W} (h : v ∈ t.tour tracks) :
    (t.nodes.drop v.index).take v.node.size = v.node.nodes := by
  obtain ⟨hole, hp, hi, _, _⟩ := exists_hole_of_mem_tour h
  obtain ⟨as, bs, hn, hl⟩ := Hole.exists_nodes_plug v.node hole
  rw [hp, nodes_alone] at hn
  rw [hn, hi, ← hl, List.drop_left, size, List.take_left]

end ScopedGrammar

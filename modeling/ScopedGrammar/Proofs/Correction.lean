import Mathlib
import ScopedGrammar.Proofs.Chain
import ScopedGrammar.Proofs.Exact
import ScopedGrammar.Proofs.Numbering
import ScopedGrammar.Proofs.Splice

/-!
# The correction of proposals

With exact weights, the probability of a move is the probability of picking the node times that of the choices made
below it (`moveProbability`). A proposal takes the resample weight of the selected node for the way back too. So its
correction is the logarithm of the way forward less that of the way back exactly if the new node passes the test as well
and has the weight of the old one (`correction_eq_iff`).

- `Chain.exists_choice`: what a node records is the logarithm of the probability of its choice;
- `Chain.logProbability_eq`: the log-probability of a tree is that of the choices below a node, and a rest which does
  not depend on them;
- `backward_eq_iff` is the comparison in real numbers.
-/

namespace ScopedGrammar

/-- The visits of a visited node and of all nodes below it. -/
def Visit.span {W : Type} [Arith W] (t : Node W) (v : Visit W) : List (Visit W) :=
  ((t.visits NodeTest.all).drop v.index).take v.node.size

namespace Grammar

open Generator

/-- The probability of the choice that a visited node records. -/
noncomputable def choiceProbability (g : Grammar EReal) (v : Visit EReal) : EReal :=
  let s := v.node.label.nonterminal
  match (g.visible v.scope.rules s).find? (·.id == v.node.label.ruleId) with
  | some r => r.weight / g.visibleTotal v.scope.rules s
  | none => 0

/-- The probability of all choices that the node of a visit and the nodes below it record. -/
noncomputable def subtreeProbability (g : Grammar EReal) (t : Node EReal) (v : Visit EReal) : EReal :=
  ((v.span t).map g.choiceProbability).prod

/-- The probability of picking a visited node of a tree, among those that pass a test, and of then making choices of a
given probability. -/
noncomputable def moveProbability (t : Node EReal) (accepts : NodeTest EReal) (v : Visit EReal) (choices : EReal) :
    EReal :=
  (if accepts v.node v.scope then v.weight else 0) / t.normalizer accepts * choices

/-! ## Probabilities along a chain -/

variable {g : Grammar EReal} {start : String} {k : ℕ} {t : Node EReal}

/-- What a node records is the logarithm of the probability of its choice, which is positive. As long as ids last, the
id of the rule tells its weight. -/
theorem Chain.exists_choice (hg : g.Built) (hw : Arith.isPositive g.config.weight = true) (ht : g.Chain start k t)
    (hk : k ≤ 2 ^ 63) {v : Visit EReal} (hv : v ∈ t.tour true) :
    ∃ c : ℝ, 0 < c ∧ g.choiceProbability v = c ∧ v.node.label.logProb = (Real.log c : ℝ) := by
  have hs := hg.wellStored
  obtain ⟨s, ⟨r, hr, _⟩, hbound⟩ := (ht.derives hs).exists_records hs hv
  have hnt : v.node.label.nonterminal = s := hr.nonterminal.trans (hs.nonterminal_eq_of_visible hr.visible)
  have hpos : ∀ w ∈ (g.visible v.scope.rules s).map (·.weight), ∃ x : ℝ, 0 < x ∧ w = (x : EReal) :=
    Arith.exists_of_mem_map fun _ hr' => isPositive_of_visible hs hw hbound hr'
  obtain ⟨total, htotal, htpos⟩ := Arith.exists_total_of_pos hpos
    (List.ne_nil_of_mem (List.mem_map_of_mem hr.visible))
  replace htotal : g.visibleTotal v.scope.rules s = total := htotal
  have hneg : ∀ b ∈ v.scope.rules, b.id < 0 := fun b hb =>
    ((ht.numbered hs hk).2 _ (Node.mem_variableIds_of_scope hv hb)).2
  obtain ⟨w, hwpos, hwr⟩ := hpos r.weight (List.mem_map_of_mem hr.visible)
  refine ⟨w / total, by positivity, ?_, ?_⟩
  · unfold choiceProbability
    simp only [hnt, hr.ruleId]
    cases hfind : (g.visible v.scope.rules s).find? (·.id == r.id) with
    | none => exact absurd (List.find?_eq_none.mp hfind r hr.visible) (by simp)
    | some r' =>
      have hid : r'.id = r.id := by simpa using List.find?_some hfind
      have hweight := weight_eq_of_id_eq hs hbound hneg (List.mem_of_find?_eq_some hfind) hr.visible hid
      simp only [hweight, hwr, htotal, EReal.coe_div]
  · rw [hr.logProb, htotal, hwr, Arith.logShare_coe hwpos htpos]

/-- The logarithms that visited nodes record add up to that of the product of the probabilities. -/
theorem Chain.exists_choices (hg : g.Built) (hw : Arith.isPositive g.config.weight = true) (ht : g.Chain start k t)
    (hk : k ≤ 2 ^ 63) : ∀ {vs : List (Visit EReal)}, (∀ v ∈ vs, v ∈ t.tour true) → ∃ c : ℝ, 0 < c ∧
      (vs.map g.choiceProbability).prod = c ∧ (vs.map (·.node.label.logProb)).sum = (Real.log c : ℝ)
  | [], _ => ⟨1, one_pos, by simp, by simp⟩
  | v :: vs, h => by
    obtain ⟨a, ha, hpa, hla⟩ := ht.exists_choice hg hw hk (h v List.mem_cons_self)
    obtain ⟨b, hb, hpb, hlb⟩ := Chain.exists_choices hg hw ht hk fun u hu => h u (List.mem_cons_of_mem _ hu)
    refine ⟨a * b, by positivity, ?_, ?_⟩
    · rw [List.map_cons, List.prod_cons, hpa, hpb, EReal.coe_mul]
    · rw [List.map_cons, List.sum_cons, hla, hlb, Real.log_mul ha.ne' hb.ne', EReal.coe_add]

/-- No node of a chain has a negative resample weight. -/
theorem Chain.exists_weight (hg : g.Built) (hr : Arith.isNonnegative g.config.resampleWeight = true)
    (ht : g.Chain start k t) {v : Visit EReal} (hv : v ∈ t.tour true) : ∃ x : ℝ, 0 ≤ x ∧ v.weight = (x : EReal) := by
  obtain ⟨s, ⟨r, hrec, _⟩, hbound⟩ := (ht.derives hg.wellStored).exists_records hg.wellStored hv
  obtain ⟨x, hx, he⟩ := Arith.isNonnegative_iff.mp (isNonnegative_of_visible hg.wellStored hr hbound hrec.visible)
  exact ⟨x, hx, hrec.resampleWeight.trans he⟩

/-- The weights of the nodes that pass a test add up to a real number, which none of them exceeds. -/
theorem Chain.exists_normalizer (hg : g.Built) (hr : Arith.isNonnegative g.config.resampleWeight = true)
    (ht : g.Chain start k t) (accepts : NodeTest EReal) :
    ∃ z : ℝ, t.normalizer accepts = z ∧ 0 ≤ z ∧ ∀ v ∈ t.tour true, accepts v.node v.scope = true → v.weight ≤ z := by
  have hnonneg : ∀ w ∈ (t.visits accepts).map Visit.weight, ∃ x : ℝ, 0 ≤ x ∧ w = (x : EReal) := by
    intro w hw
    obtain ⟨v, hv, rfl⟩ := List.mem_map.mp hw
    rw [Node.visits_eq_tour] at hv
    exact ht.exists_weight hg hr (List.mem_filter.mp hv).1
  obtain ⟨z, hz, hz₀, hle⟩ := Arith.exists_total_of_nonneg hnonneg
  refine ⟨z, hz, hz₀, fun v hv hacc => hle _ (List.mem_map_of_mem ?_)⟩
  rw [Node.visits_eq_tour]
  exact List.mem_filter.mpr ⟨hv, hacc⟩

/-! ## Below a node, and the rest -/

theorem map_node_span {v : Visit EReal} (hv : v ∈ t.tour true) : (v.span t).map (·.node) = v.node.nodes := by
  rw [Visit.span, Node.visits_all, List.map_take, List.map_drop, Node.map_node_tour, Node.nodes_of_mem_tour hv]

theorem mem_tour_of_mem_span {u v : Visit EReal} (hu : u ∈ v.span t) : u ∈ t.tour true := by
  rw [← Node.visits_all]
  exact List.mem_of_mem_drop (List.mem_of_mem_take hu)

/-- The log-probability of a tree is that of the choices below a hole, and a rest that does not depend on them. -/
theorem logProbability_eq {hole : Hole EReal} {n : Node EReal} (h : hole.plug n = t.alone) : t.logProbability =
    (n.nodes.map (·.label.logProb)).sum + ((hole.before ++ hole.after).map (·.logProb)).sum := by
  rw [Node.logProbability_eq_totalOf, Hole.totalOf_plug h, Node.totalOf, Arith.total_eq_sum, Arith.total_eq_sum,
    Node.labels, List.map_map]
  rfl

/-- The rest is a real number. -/
theorem Chain.exists_rest (hg : g.Built) (hw : Arith.isPositive g.config.weight = true) (ht : g.Chain start k t)
    (hk : k ≤ 2 ^ 63) {ls : List (Label EReal)} (hls : ∀ l ∈ ls, l ∈ t.labels) :
    ∃ x : ℝ, (ls.map (·.logProb)).sum = (x : EReal) := by
  induction ls with
  | nil => exact ⟨0, rfl⟩
  | cons l ls ih =>
    obtain ⟨x, hx⟩ := ih fun l hl => hls l (List.mem_cons_of_mem _ hl)
    have hl := hls l List.mem_cons_self
    rw [Node.labels, ← Node.map_node_tour true t, List.map_map] at hl
    obtain ⟨v, hv, rfl⟩ := List.mem_map.mp hl
    obtain ⟨c, _, _, hlog⟩ := ht.exists_choice hg hw hk hv
    exact ⟨Real.log c + x, by rw [List.map_cons, List.sum_cons, hx, Function.comp_apply, hlog, EReal.coe_add]⟩

/-- The log-probability of a tree, at a node of it: the logarithm of the probability of the subtree, and the rest. -/
theorem Chain.exists_split (hg : g.Built) (hw : Arith.isPositive g.config.weight = true) (ht : g.Chain start k t)
    (hk : k ≤ 2 ^ 63) {v : Visit EReal} (hv : v ∈ t.tour true) {hole : Hole EReal}
    (h : hole.plug v.node = t.alone) {o : ℝ} (ho : ((hole.before ++ hole.after).map (·.logProb)).sum = (o : EReal)) :
    ∃ c : ℝ, 0 < c ∧ g.subtreeProbability t v = (c : EReal) ∧
      t.logProbability = (Real.log c : ℝ) + (o : EReal) := by
  obtain ⟨c, hc, hprob, hlog⟩ := ht.exists_choices hg hw hk fun _ hu => mem_tour_of_mem_span (v := v) hu
  refine ⟨c, hc, hprob, ?_⟩
  rw [logProbability_eq h, ho, ← hlog, ← map_node_span hv, List.map_map]
  rfl

/-! ## The two trees of a proposal -/

section

variable {S : Type} {test : StatefulTest EReal S} {state : S} {draws left : List (Draw EReal)} {p : Proposal EReal}
  {v : Visit EReal} {hole : Hole EReal} {n : Node EReal}

/-- The new node stands where the old one stood. -/
theorem Regenerates.exists_visit (hp : g.Regenerates t test state draws p v hole left n) :
    ∃ v', (p.tree.tour true)[v.index]? = some v' ∧ v'.node = n := by
  have hn := hole.getElem?_nodes_plug n
  rw [hp.new, Node.nodes_alone, ← hp.index] at hn
  obtain ⟨v', hv', hnode, _⟩ := Node.exists_visit hn true
  exact ⟨v', hv', hnode⟩

theorem Regenerates.mem_labels (hp : g.Regenerates t test state draws p v hole left n) :
    ∀ l ∈ hole.before ++ hole.after, l ∈ t.labels := by
  intro l hl
  rw [Hole.labels_of_plug hp.old]
  rcases List.mem_append.mp hl with hl | hl
  · exact List.mem_append_left _ hl
  · exact List.mem_append_right _ (List.mem_append_right _ hl)

/-- The weight of a node counts only if the node passes the test. -/
theorem exists_share {a w z : ℝ} {b : Bool} (ha : 0 < a) (hw : 0 ≤ w) (hz : 0 ≤ z) (hle : b = true → w ≤ z) :
    ∃ q : ℝ, 0 ≤ q ∧ q ≤ z ∧ (if b then (w : EReal) else 0) = (q : EReal) ∧
      (q = a ↔ b = true ∧ (w : EReal) = (a : EReal)) := by
  cases b with
  | true => exact ⟨w, hw, hle rfl, rfl, by simp [EReal.coe_eq_coe_iff]⟩
  | false => exact ⟨0, le_refl _, hz, rfl, by simp [ha.ne]⟩

end

/-! ## The way back -/

/-- Taking the weight `a` of the way forward for the weight `q` of the way back is right exactly if they are the same.
Where the total `z'` on the way back is zero, the two logarithms have opposite infinite signs. -/
theorem backward_eq_iff {a q z z' b c o : ℝ} (ha : 0 < a) (hz : 0 < z) (hq : 0 ≤ q) (hqz : q ≤ z') (hb : 0 < b)
    (hc : 0 < c) :
    (Arith.logShare (a : EReal) (z : EReal) + ((Real.log b : ℝ) + (o : EReal))) -
        (Arith.logShare (a : EReal) (z' : EReal) + ((Real.log c : ℝ) + (o : EReal))) =
      Arith.ln ((a / z * b : ℝ) : EReal) - Arith.ln ((q / z' * c : ℝ) : EReal) ↔ q = a := by
  rw [Arith.logShare_coe ha hz, Arith.ln_coe (by positivity : 0 < a / z * b)]
  rcases (hq.trans hqz).eq_or_lt with rfl | hz'
  · obtain rfl : q = 0 := le_antisymm hqz hq
    rw [zero_div, zero_mul, EReal.coe_zero, Arith.ln_zero, Arith.logShare_zero ha]
    constructor
    · intro h
      rw [← EReal.coe_add, ← EReal.coe_add, ← EReal.coe_add, EReal.top_add_coe] at h
      have h' : (⊥ : EReal) = ⊤ := by rwa [EReal.coe_sub_bot, EReal.sub_top] at h
      exact absurd h' bot_ne_top
    · intro h
      exact absurd h ha.ne
  · rw [Arith.logShare_coe ha hz']
    rcases hq.eq_or_lt with rfl | hq
    · rw [zero_div, zero_mul, EReal.coe_zero, Arith.ln_zero]
      constructor
      · intro h
        rw [← EReal.coe_add, ← EReal.coe_add, ← EReal.coe_add, ← EReal.coe_add, ← EReal.coe_sub, EReal.coe_sub_bot] at h
        exact absurd h (EReal.coe_ne_top _)
      · intro h
        exact absurd h ha.ne
    · have hab : Real.log (a / z * b) = Real.log (a / z) + Real.log b := Real.log_mul (by positivity) hb.ne'
      have hqc : Real.log (q / z' * c) = Real.log (q / z') + Real.log c := Real.log_mul (by positivity) hc.ne'
      rw [Arith.ln_coe (by positivity : 0 < q / z' * c), hab, hqc, ← EReal.coe_add, ← EReal.coe_add, ← EReal.coe_add,
        ← EReal.coe_add, ← EReal.coe_sub, ← EReal.coe_sub, EReal.coe_eq_coe_iff]
      constructor
      · intro h
        have hlog : Real.log (q / z') = Real.log (a / z') := by linarith
        have hdiv : q / z' = a / z' :=
          Real.log_injOn_pos (Set.mem_Ioi.mpr (by positivity)) (Set.mem_Ioi.mpr (by positivity)) hlog
        exact (div_left_inj' hz'.ne').mp hdiv
      · rintro rfl
        linarith

/-- **The correction of a proposal is the logarithm of the way forward less that of the way back exactly if the new node
passes the test with the weight of the old one**, as long as ids last. -/
theorem Chain.correction_eq_iff (hg : g.Built) (hw : Arith.isPositive g.config.weight = true)
    (hr : Arith.isNonnegative g.config.resampleWeight = true) (ht : g.Chain start k t) {accepts : NodeTest EReal}
    {draws : List (Draw EReal)} {p : Proposal EReal} (h : (g.propose t accepts draws).1 = .ok p)
    (hk : k + (p.tree.newVariableIds t).length ≤ 2 ^ 63) :
    ∃ s v v', (t.select accepts draws).1 = .ok s ∧ (t.visits NodeTest.all)[s.index]? = some v ∧
      (p.tree.visits NodeTest.all)[s.index]? = some v' ∧
        (p.logForwardBackward =
            Arith.ln (moveProbability t accepts v (g.subtreeProbability p.tree v')) -
              Arith.ln (moveProbability p.tree accepts v' (g.subtreeProbability t v)) ↔
          accepts v'.node v'.scope = true ∧ v'.weight = v.weight) := by
  rw [propose_fst] at h
  obtain ⟨v, hole, left, n, hp⟩ := exists_regenerates h
  have hold : k ≤ 2 ^ 63 := by omega
  have hnew : g.Chain start (k + (p.tree.newVariableIds t).length) p.tree := .propose ht h
  obtain ⟨v', hv', rfl⟩ := hp.exists_visit
  have hmem' : v' ∈ p.tree.tour true := List.mem_of_getElem? hv'
  refine ⟨_, v, v', hp.selected, ?_, ?_, ?_⟩
  · rw [Node.visits_all]
    exact Node.getElem?_tour_of_mem hp.visited
  · rw [Node.visits_all]
    exact hv'
  -- The weights and totals are real numbers.
  obtain ⟨a, _, hva⟩ := ht.exists_weight hg hr hp.visited
  have ha : 0 < a := by
    have hpos := hp.weighted
    rw [hva] at hpos
    exact EReal.coe_pos.mp (not_le.mp hpos)
  obtain ⟨w, hw₀, hvw⟩ := hnew.exists_weight hg hr hmem'
  obtain ⟨z, hz, hzn⟩ : ∃ z : ℝ, 0 < z ∧ t.normalizer accepts = z := Arith.isPositive_iff.mp hp.selectable
  obtain ⟨z', hzn', hz', hle⟩ := hnew.exists_normalizer hg hr accepts
  -- So are the probabilities of choices, and the rest of the two log-probabilities is the same.
  obtain ⟨o, ho⟩ := ht.exists_rest hg hw hold hp.mem_labels
  obtain ⟨b, hb, hbp, hnewlog⟩ := hnew.exists_split hg hw hk hmem' hp.new ho
  obtain ⟨c, hc, hcp, hlog⟩ := ht.exists_split hg hw hold hp.visited hp.old ho
  obtain ⟨q, hq₀, hqz, hq, hiff⟩ := exists_share (b := accepts v'.node v'.scope) ha hw₀ hz' fun hacc => by
    have hwz := hle v' hmem' hacc
    rwa [hvw, EReal.coe_le_coe_iff] at hwz
  have hforward : moveProbability t accepts v (g.subtreeProbability p.tree v') = ((a / z * b : ℝ) : EReal) := by
    rw [moveProbability, if_pos hp.accepted, hva, hzn, hbp, EReal.coe_mul, EReal.coe_div]
  have hback : moveProbability p.tree accepts v' (g.subtreeProbability t v) = ((q / z' * c : ℝ) : EReal) := by
    rw [moveProbability, hvw, hq, hzn', hcp, EReal.coe_mul, EReal.coe_div]
  rw [hvw, hva, ← hiff, hp.correction_eq, hforward, hback, hnewlog, hlog, hva, hzn, hzn']
  exact backward_eq_iff ha hz hq₀ hqz hb hc

/-! ## A move without a way back -/

/-- A constant that can be generated anew. -/
noncomputable def loose : Rule EReal := ⟨⟨"EXPR", "a", .nil, 1, 1, []⟩, 0⟩

/-- A constant that is never generated anew. -/
noncomputable def fixed : Rule EReal := ⟨⟨"EXPR", "b", .nil, 1, 0, []⟩, 1⟩

/-- The grammar of the two constants. -/
noncomputable def constants : Grammar EReal := ⟨[("EXPR", [loose, fixed])], 2, ⟨1, 1, "y"⟩⟩

theorem built_constants : constants.Built := by
  have hl : loose.toProduction.validate = .ok () :=
    Production.validate_eq_ok_iff.mpr ⟨by decide, Arith.isPositive_one, Arith.isNonnegative_one⟩
  have hf : fixed.toProduction.validate = .ok () :=
    Production.validate_eq_ok_iff.mpr ⟨by decide, Arith.isPositive_one, Arith.isNonnegative_zero⟩
  exact ((Built.empty ⟨1, 1, "y"⟩).add (add_of_validate hl)).add (add_of_validate hf)

theorem constants_visibleTotal : constants.visibleTotal [] "EXPR" = ((2 : ℝ) : EReal) := by
  show Arith.total [1, 1] = _
  rw [Arith.total_eq_sum, List.sum_cons, List.sum_singleton, ← EReal.coe_one, ← EReal.coe_add]
  norm_num

/-- The tree of a constant. -/
noncomputable def constantNode (r : Rule EReal) : Node EReal :=
  Node.ofRule r .nil (Arith.logShare r.weight (constants.visibleTotal [] "EXPR")) [] 0

/-- The only visit of that tree. -/
noncomputable def constantVisit (r : Rule EReal) : Visit EReal := ⟨constantNode r, 0, 0, Scope.empty⟩

theorem visits_constantNode (r : Rule EReal) : (constantNode r).visits NodeTest.all = [constantVisit r] := by
  rw [Node.visits_all]
  rfl

theorem normalizer_constantNode (r : Rule EReal) : (constantNode r).normalizer NodeTest.all = r.resampleWeight := by
  rw [Node.normalizer_eq_total, visits_constantNode, Arith.total_eq_sum]
  exact List.sum_singleton

variable {r : Rule EReal} {d : Draw EReal}

theorem logProbability_constantNode (hr : r.weight = 1) :
    (constantNode r).logProbability = (Real.log (1 / 2) : ℝ) := by
  rw [Node.logProbability, Arith.total_eq_sum]
  show [Arith.logShare r.weight (constants.visibleTotal [] "EXPR")].sum = _
  rw [List.sum_singleton, hr, constants_visibleTotal, ← EReal.coe_one, Arith.logShare_coe one_pos two_pos]

/-- A draw below one half gives the first constant, any other the second. -/
theorem gives_drawRule_constants (lowest : Int)
    (hr : [loose, fixed][if (1 : EReal) ≤ d.categorical * 2 then 1 else 0]? = some r) :
    (constants.drawRule [] "EXPR").Gives ⟨lowest, [d]⟩
      (r, Arith.logShare r.weight (constants.visibleTotal [] "EXPR")) ⟨lowest, []⟩ := by
  have hpos : ∀ r ∈ constants.visible [] "EXPR", ∃ x : ℝ, 0 < x ∧ r.weight = (x : EReal) := by
    intro r hr
    refine ⟨1, one_pos, ?_⟩
    replace hr : r ∈ [loose, fixed] := hr
    rcases List.mem_pair.mp hr with rfl | rfl <;> rfl
  obtain ⟨c, hc⟩ := Categorical.exists_ofList_eq_ok (by decide) hpos
  obtain ⟨ha, hw, ht⟩ := Categorical.ofList_eq_ok hc
  have htotal : c.total = 2 := by
    rw [ht]
    exact constants_visibleTotal
  have hbounds : c.bounds = [0 + 1] := by
    unfold Categorical.bounds
    rw [ha, hw]
    rfl
  have hindex : (c.index d).val = if (1 : EReal) ≤ d.categorical * 2 then 1 else 0 := by
    show c.bounds.countP _ = _
    rw [hbounds, htotal, List.countP_singleton, zero_add]
    show (if decide ((1 : EReal) ≤ d.categorical * 2) = true then 1 else 0) = _
    simp only [decide_eq_true_eq]
  have hget : c.alternatives.get (c.index d) = r := by
    have h : c.alternatives[(c.index d).val]? = some r := by rw [hindex, ha]; exact hr
    exact (List.getElem?_eq_some_iff.mp h).2
  have hlog : c.logProb (c.index d) = Arith.logShare (c.weight (c.alternatives.get (c.index d))) c.total := rfl
  have hgives := gives_drawRule_of_eq_ok hc lowest d []
  rw [hlog, hget, hw, ht] at hgives
  exact hgives

theorem generateIn_constants {scope : Scope EReal} (hscope : scope.rules = [])
    (hr : [loose, fixed][if (1 : EReal) ≤ d.categorical * 2 then 1 else 0]? = some r) :
    (constants.generateIn "EXPR" 0 scope [d]).result = .ok (constantNode r) := by
  have hplain : r.children = .nil ∧ r.binds = [] := by
    rcases List.mem_pair.mp (List.mem_of_getElem? hr) with rfl | rfl <;> exact ⟨rfl, rfl⟩
  have hgives : (constants.expand 1 [] "EXPR" 0).Gives ⟨scope.lowest, [d]⟩ (constantNode r) ⟨scope.lowest, []⟩ := by
    unfold expand
    rw [show constants.isNonterminalIn [] "EXPR" = true from by decide]
    refine gives_bind.mpr ⟨_, _, gives_drawRule_constants scope.lowest hr, ?_⟩
    simp only [hplain.1, hplain.2]
    refine gives_bind.mpr ⟨[], _, gives_introduce [] _, ?_⟩
    refine gives_bind.mpr ⟨.nil, _, gives_pure.mpr ⟨rfl, rfl⟩, ?_⟩
    exact gives_pure.mpr ⟨rfl, rfl⟩
  have hrun := congrArg Prod.fst hgives
  rw [generateIn_eq]
  rw [hscope]
  exact hrun

theorem select_loose (rest : List (Draw EReal)) : (constantNode loose).select NodeTest.all (⟨0, 0⟩ :: rest) =
    (.ok (Selection.ofVisit 1 (constantVisit loose)), rest) := by
  have hpick : pickVisit (0 * 1) Arith.zero none [constantVisit loose] = some (constantVisit loose) := by
    have hle : ¬ (constantVisit loose).weight ≤ Arith.zero := not_le.mpr zero_lt_one
    have hlt : (0 : EReal) * 1 < Arith.zero + (constantVisit loose).weight := by
      show (0 : EReal) * 1 < 0 + 1
      rw [zero_mul, zero_add]
      exact zero_lt_one
    rw [pickVisit, if_neg hle, if_pos hlt]
  have htotal : (constantNode loose).normalizer NodeTest.all = 1 := normalizer_constantNode loose
  simp only [Node.select_eq_pick, htotal, visits_constantNode, Arith.isPositive_one, hpick]
  rfl

theorem propose_constants (hr : [loose, fixed][if (1 : EReal) ≤ d.categorical * 2 then 1 else 0]? = some r) :
    ∃ p, (constants.propose (constantNode loose) NodeTest.all [⟨0, 0⟩, d]).1 = .ok p ∧ p.tree = constantNode r ∧
      p.logForwardBackward = (Arith.logShare 1 1 + (constantNode r).logProbability) -
        (Arith.logShare 1 r.resampleWeight + (constantNode loose).logProbability) := by
  refine ⟨_, propose_eq (select_loose [d]) (generateIn_constants rfl hr) rfl, rfl, ?_⟩
  rw [normalizer_constantNode]
  rfl

theorem generate_loose : (constants.generate "EXPR" [⟨0, 0⟩]).result = .ok (constantNode loose) :=
  generateIn_constants rfl (by rw [if_neg (by simp)]; rfl)

/-- At a move from the first constant to itself, the correction is that of the two ways. -/
theorem loose_correction : ∃ k p, constants.Chain "EXPR" k (constantNode loose) ∧
    (constants.propose (constantNode loose) NodeTest.all [⟨0, 0⟩, ⟨0, 0⟩]).1 = .ok p ∧
    k + (p.tree.newVariableIds (constantNode loose)).length ≤ 2 ^ 63 ∧
    ∃ s v v', ((constantNode loose).select NodeTest.all [⟨0, 0⟩, ⟨0, 0⟩]).1 = .ok s ∧
      ((constantNode loose).visits NodeTest.all)[s.index]? = some v ∧
      (p.tree.visits NodeTest.all)[s.index]? = some v' ∧
        (p.logForwardBackward =
            Arith.ln (moveProbability (constantNode loose) NodeTest.all v (constants.subtreeProbability p.tree v')) -
              Arith.ln (moveProbability p.tree NodeTest.all v' (constants.subtreeProbability (constantNode loose) v)) ↔
          NodeTest.all v'.node v'.scope = true ∧ v'.weight = v.weight) := by
  have hdraw : [loose, fixed][if (1 : EReal) ≤ 0 * 2 then 1 else 0]? = some loose := by
    rw [if_neg (by simp)]
    rfl
  obtain ⟨p, hp, htree, _⟩ := propose_constants (d := ⟨0, 0⟩) hdraw
  have hchain : constants.Chain "EXPR" 0 (constantNode loose) := .generate generate_loose
  have hk : 0 + (p.tree.newVariableIds (constantNode loose)).length ≤ 2 ^ 63 := by
    rw [htree]
    exact Nat.zero_le _
  exact ⟨0, p, hchain, hp, hk, Chain.correction_eq_iff built_constants Arith.isPositive_one Arith.isNonnegative_one
    hchain hp hk⟩

theorem moveProbability_constants (a : Rule EReal) {b : Rule EReal} (hb : b = loose ∨ b = fixed) :
    moveProbability (constantNode a) NodeTest.all (constantVisit a)
        (constants.subtreeProbability (constantNode b) (constantVisit b)) =
      a.resampleWeight / a.resampleWeight * ((1 / 2 : ℝ) : EReal) := by
  have hspan : (constantVisit b).span (constantNode b) = [constantVisit b] := by
    rw [Visit.span, visits_constantNode]
    rfl
  have hhalf : (1 : EReal) / constants.visibleTotal [] "EXPR" = ((1 / 2 : ℝ) : EReal) := by
    rw [constants_visibleTotal]
    rfl
  have hchoice : constants.choiceProbability (constantVisit b) = ((1 / 2 : ℝ) : EReal) := by
    rcases hb with rfl | rfl <;> exact hhalf
  rw [moveProbability, normalizer_constantNode, subtreeProbability, hspan, List.map_singleton, List.prod_singleton,
    hchoice]
  rfl

/-- **A move that has no way back gets the correction `-∞` in the place of `+∞`.** -/
theorem fixed_correction : ∃ p, constants.Built ∧ Arith.isPositive constants.config.weight = true ∧
    Arith.isNonnegative constants.config.resampleWeight = true ∧ constants.Chain "EXPR" 0 (constantNode loose) ∧
    (constants.propose (constantNode loose) NodeTest.all [⟨0, 0⟩, ⟨((1 / 2 : ℝ) : EReal), 0⟩]).1 = .ok p ∧
    ((constantNode loose).visits NodeTest.all)[0]? = some (constantVisit loose) ∧
    (p.tree.visits NodeTest.all)[0]? = some (constantVisit fixed) ∧
    p.logForwardBackward = ⊥ ∧
    Arith.ln (moveProbability (constantNode loose) NodeTest.all (constantVisit loose)
        (constants.subtreeProbability p.tree (constantVisit fixed))) -
      Arith.ln (moveProbability p.tree NodeTest.all (constantVisit fixed)
        (constants.subtreeProbability (constantNode loose) (constantVisit loose))) = ⊤ := by
  have hhalf : (1 : EReal) ≤ ((1 / 2 : ℝ) : EReal) * 2 := by
    have h : ((1 / 2 : ℝ) : EReal) * 2 = ((1 / 2 * 2 : ℝ) : EReal) := by rw [EReal.coe_mul]; rfl
    rw [h]
    norm_num
  have hdraw : [loose, fixed][if (1 : EReal) ≤ ((1 / 2 : ℝ) : EReal) * 2 then 1 else 0]? = some fixed := by
    rw [if_pos hhalf]
    rfl
  obtain ⟨p, hp, htree, hcorr⟩ := propose_constants (d := ⟨_, 0⟩) hdraw
  refine ⟨p, built_constants, Arith.isPositive_one, Arith.isNonnegative_one, .generate generate_loose, hp, ?_, ?_,
    ?_, ?_⟩
  · rw [visits_constantNode]
    rfl
  · rw [htree, visits_constantNode]
    rfl
  · have hfore : Arith.logShare (1 : EReal) 1 = (Real.log (1 / 1) : ℝ) := Arith.logShare_coe one_pos one_pos
    have hback : Arith.logShare (1 : EReal) fixed.resampleWeight = ⊤ := Arith.logShare_zero one_pos
    rw [hcorr, logProbability_constantNode rfl, logProbability_constantNode rfl, hfore, hback, EReal.top_add_coe]
    exact EReal.sub_top _
  · have hfore : loose.resampleWeight / loose.resampleWeight * ((1 / 2 : ℝ) : EReal) =
        ((1 / 1 * (1 / 2) : ℝ) : EReal) := by
      rw [EReal.coe_mul]
      rfl
    have hback : fixed.resampleWeight / fixed.resampleWeight * ((1 / 2 : ℝ) : EReal) = 0 := by
      show (0 : EReal) / 0 * _ = 0
      rw [EReal.zero_div, zero_mul]
    rw [htree, moveProbability_constants loose (Or.inr rfl), moveProbability_constants fixed (Or.inl rfl), hfore, hback,
      Arith.ln_zero, Arith.ln_coe (by norm_num)]
    exact EReal.coe_sub_bot _

end Grammar

end ScopedGrammar

import ScopedGrammar.Proofs.Derivation
import ScopedGrammar.Proofs.Pick
import ScopedGrammar.Proposal

/-!
# Chains of proposals

A `Chain` is a tree that was generated, or that a proposal made of a tree of the chain. A proposal plugs a new tree into
the hole of the node that it selects (`exists_regenerates`), so every tree of a chain is a derivation
(`Chain.derives`). Hence the scope that a walk rebuilds at a node has the rules from which the node was drawn, and what
the node records is justified by them (`Chain.justified`).
-/

namespace ScopedGrammar

variable {W : Type} [Arith W]

/-! ## Selected nodes -/

section

variable {S : Type} {t : Node W} {test : StatefulTest W S} {state : S} {draws : List (Draw W)}

/-- A selection is that of a visit that passes the test, and uses one draw. -/
theorem Node.selectWith_eq_ok {s : Selection W} (h : (t.selectWith test state draws).1 = .ok s) :
    ∃ v d, Arith.isPositive (t.normalizerWith test state).1 = true ∧ draws = d :: (t.selectWith test state draws).2.2 ∧
      pickVisit (d.uniform * (t.normalizerWith test state).1) Arith.zero none
        (test.passed (t.normalizerWith test state).2 (t.tour true)) = some v ∧
      s = Selection.ofVisit (t.normalizerWith test state).1 v := by
  have hselect := t.selectWith_eq_pick test state draws
  rw [h] at hselect
  generalize (t.selectWith test state draws).2.2 = left at hselect ⊢
  simp only at hselect
  split at hselect
  · cases hselect
  · rename_i hz
    split at hselect
    · cases hselect
    · rename_i d rest
      split at hselect
      · cases hselect
      · rename_i v hv
        cases hselect
        exact ⟨v, d, by simpa using hz, rfl, hv, rfl⟩

end

/-- A proposal takes one walk after the other: the tree with a new node in the place of the selected one, and the
correction. -/
theorem Selection.replace_eq (s : Selection W) (old : Node W) (accepts : NodeTest W) (replacement : Node W) :
    s.replace old accepts replacement =
      match old.replaceAt? s.index replacement with
      | none => .error (.error (.invalidIndex s.index))
      | some new => .ok ⟨new, (s.logProb + new.logProbability) -
          (Arith.logShare s.resampleWeight (new.normalizer accepts) + old.logProbability)⟩ := by
  unfold replace replaceWith
  cases old.replaceAt? s.index replacement <;> rfl

namespace Grammar

/-! ## Proposals -/

/-- A proposal under a condition is one under a test without a state. -/
theorem propose_fst (g : Grammar W) (t : Node W) (accepts : NodeTest W) (draws : List (Draw W)) :
    (g.propose t accepts draws).1 = (g.proposeWith t accepts.stateless () draws).1 := rfl

theorem propose_eq_bind (g : Grammar W) (t : Node W) (accepts : NodeTest W) (draws : List (Draw W)) :
    g.propose t accepts draws =
      match t.select accepts draws with
      | (.error e, draws) => (.error e, draws)
      | (.ok s, draws) =>
        let made := g.generateIn s.nonterminal s.nodeDepth (s.scope.reserveBelow t.lowestRuleId) draws
        (made.result.bind (s.replace t accepts), made.draws) := by
  unfold propose proposeWith Node.select
  rcases t.selectWith accepts.stateless () draws with ⟨e | s, state, left⟩
  · rfl
  · simp only
    cases (g.generateIn s.nonterminal s.nodeDepth (s.scope.reserveBelow t.lowestRuleId) left).result <;> rfl

/-- The scope in which the node of a visit of a tree is generated anew. -/
def siteScope (t : Node W) (v : Visit W) : Scope W := v.scope.reserveBelow t.lowestRuleId

section

variable {S : Type}

/-- A proposal fails with the generation of the new node. -/
theorem proposeWith_of_made_error {g : Grammar W} {t : Node W} {test : StatefulTest W S} {state state' : S}
    {draws left : List (Draw W)} {s : Selection W} {e : Failure W}
    (hsel : t.selectWith test state draws = (.ok s, state', left))
    (hmade : (g.generateIn s.nonterminal s.nodeDepth (s.scope.reserveBelow t.lowestRuleId) left).result = .error e) :
    (g.proposeWith t test state draws).1 = .error e := by
  unfold proposeWith
  rw [hsel]
  simp only [hmade]

/-- A proposal puts the new node in the place of the selected one. -/
theorem proposeWith_of_made_ok {g : Grammar W} {t n : Node W} {test : StatefulTest W S} {state state' : S}
    {draws left : List (Draw W)} {s : Selection W} (hsel : t.selectWith test state draws = (.ok s, state', left))
    (hmade : (g.generateIn s.nonterminal s.nodeDepth (s.scope.reserveBelow t.lowestRuleId) left).result = .ok n) :
    (g.proposeWith t test state draws).1 = (s.replaceWith t test state' n).1 ∧
      (g.proposeWith t test state draws).2.2 =
        (g.generateIn s.nonterminal s.nodeDepth (s.scope.reserveBelow t.lowestRuleId) left).draws := by
  unfold proposeWith
  rw [hsel]
  simp only [hmade, and_self]

/-- What a proposal did: the visit that was selected, its hole in the tree, the draws that were left, and the node that
was generated in the scope and at the depth of the old one. -/
structure Regenerates (g : Grammar W) (t : Node W) (test : StatefulTest W S) (state : S) (draws : List (Draw W))
    (p : Proposal W) (v : Visit W) (hole : Hole W) (left : List (Draw W)) (n : Node W) : Prop where
  selected : (t.selectWith test state draws).1 = .ok (Selection.ofVisit (t.normalizerWith test state).1 v)
  drawn : ∃ d, draws = d :: left
  selectable : Arith.isPositive (t.normalizerWith test state).1 = true
  passed : v ∈ test.passed (t.normalizerWith test state).2 (t.tour true)
  weighted : ¬ v.weight ≤ Arith.zero
  old : hole.plug v.node = t.alone
  index : v.index = hole.index
  depth : v.depth = hole.depth
  scope : v.scope.rules = hole.introduced
  made : (g.generateIn v.node.label.nonterminal v.node.label.depth (siteScope t v) left).result = .ok n
  remaining : (g.proposeWith t test state draws).2.2 =
    (g.generateIn v.node.label.nonterminal v.node.label.depth (siteScope t v) left).draws
  new : hole.plug n = p.tree.alone
  correction : p.logForwardBackward =
    (Arith.logShare v.weight (t.normalizerWith test state).1 + p.tree.logProbability) -
      (Arith.logShare v.weight (p.tree.normalizerWith test (t.selectWith test state draws).2.1).1 + t.logProbability)

variable {g : Grammar W} {t : Node W} {test : StatefulTest W S} {state : S} {draws left : List (Draw W)}
  {p : Proposal W} {v : Visit W} {hole : Hole W} {n : Node W}

theorem Regenerates.visited (h : g.Regenerates t test state draws p v hole left n) : v ∈ t.tour true :=
  test.mem_of_mem_passed h.passed

/-- The node that a proposal regenerates passes the condition. -/
theorem Regenerates.accepted {accepts : NodeTest W} (h : g.Regenerates t accepts.stateless () draws p v hole left n) :
    accepts v.node v.scope = true := by
  have hpassed := h.passed
  rw [accepts.passed_stateless] at hpassed
  exact (List.mem_filter.mp hpassed).2

theorem Regenerates.correction_eq {accepts : NodeTest W}
    (h : g.Regenerates t accepts.stateless () draws p v hole left n) : p.logForwardBackward =
      (Arith.logShare v.weight (t.normalizer accepts) + p.tree.logProbability) -
        (Arith.logShare v.weight (p.tree.normalizer accepts) + t.logProbability) := h.correction

/-- A proposal regenerates a node of the tree that passes the test. -/
theorem exists_regenerates (h : (g.proposeWith t test state draws).1 = .ok p) :
    ∃ v hole left n, g.Regenerates t test state draws p v hole left n := by
  rcases hsel : t.selectWith test state draws with ⟨e | s, state', left⟩
  · unfold proposeWith at h
    rw [hsel] at h
    cases h
  · obtain ⟨v, d, hz, hdraws, hpick, rfl⟩ := Node.selectWith_eq_ok (congrArg Prod.fst hsel)
    obtain ⟨hv, hw⟩ : v ∈ test.passed (t.normalizerWith test state).2 (t.tour true) ∧ ¬ v.weight ≤ Arith.zero := by
      rcases mem_of_pickVisit hpick with hv | hv
      · exact hv
      · cases hv
    obtain ⟨hole, hplug, hi, hd, hs⟩ := Node.exists_hole_of_mem_tour (test.mem_of_mem_passed hv)
    rw [hsel] at hdraws
    cases hmade : (g.generateIn v.node.label.nonterminal v.node.label.depth (siteScope t v) left).result with
    | error e =>
      rw [proposeWith_of_made_error hsel hmade] at h
      cases h
    | ok n =>
      obtain ⟨hresult, hleft⟩ := proposeWith_of_made_ok hsel hmade
      obtain ⟨t', hrep, hplug'⟩ := Hole.replaceAt?_eq_some hplug n
      have hrep' : t.replaceAt? (Selection.ofVisit (t.normalizerWith test state).1 v).index n = some t' := by
        rw [← hi] at hrep
        exact hrep
      rw [hresult] at h
      simp only [Selection.replaceWith, hrep'] at h
      cases h
      exact ⟨v, hole, left, n, congrArg Prod.fst hsel, ⟨d, hdraws⟩, hz, hv, hw, hplug, hi, hd, hs, hmade, hleft,
        hplug', by rw [hsel]; rfl⟩

end

/-- A proposal is made of a selection, a new node, and the tree with that node in the place of the old one. -/
theorem propose_eq {g : Grammar W} {t n t' : Node W} {accepts : NodeTest W} {draws left : List (Draw W)}
    {s : Selection W} (hsel : t.select accepts draws = (.ok s, left))
    (hmade : (g.generateIn s.nonterminal s.nodeDepth (s.scope.reserveBelow t.lowestRuleId) left).result = .ok n)
    (hnew : t.replaceAt? s.index n = some t') : (g.propose t accepts draws).1 = .ok ⟨t',
      (s.logProb + t'.logProbability) -
        (Arith.logShare s.resampleWeight (t'.normalizer accepts) + t.logProbability)⟩ := by
  rw [propose_eq_bind, hsel]
  simp only [hmade, Except.bind, Selection.replace_eq, hnew]

/-! ## Chains -/

/-- The trees that a run of proposals goes through, from one that was generated, with how many variables have been
introduced on the way. Every proposal has a test of its own, in any state. -/
inductive Chain (g : Grammar W) (start : String) : Nat → Node W → Prop
  | generate {draws : List (Draw W)} {t : Node W} : (g.generate start draws).result = .ok t →
      Chain g start t.variableIds.length t
  | propose {S : Type} {k : Nat} {t : Node W} {test : StatefulTest W S} {state : S} {draws : List (Draw W)}
      {p : Proposal W} : Chain g start k t → (g.proposeWith t test state draws).1 = .ok p →
        Chain g start (k + (p.tree.newVariableIds t).length) p.tree

variable {g : Grammar W} {start : String} {k : Nat} {t : Node W}

/-- A proposal for a derivation is a derivation. -/
theorem DerivesNode.propose (hg : g.WellStored) (ht : g.DerivesNode [] 0 start t) {S : Type} {test : StatefulTest W S}
    {state : S} {draws : List (Draw W)} {p : Proposal W} (h : (g.proposeWith t test state draws).1 = .ok p) :
    g.DerivesNode [] 0 start p.tree := by
  obtain ⟨v, hole, left, n, hp⟩ := exists_regenerates h
  have hd := (derives_alone_iff hg).mpr ht
  rw [← hp.old] at hd
  obtain ⟨s, ⟨r, hr, _⟩, hall⟩ := hd.exists_site
  have hnt : v.node.label.nonterminal = s := by rw [hr.nonterminal]; exact hg.nonterminal_eq_of_visible hr.visible
  have hn := generateIn_derives hp.made
  rw [hnt, hr.depth, show (siteScope t v).rules = hole.introduced from hp.scope] at hn
  rw [← derives_alone_iff hg, ← hp.new]
  exact hall n hn

/-- Every tree of a chain is a derivation. -/
theorem Chain.derives (hg : g.WellStored) (h : g.Chain start k t) : g.DerivesNode [] 0 start t := by
  induction h with
  | generate h => exact generateIn_derives h
  | propose _ h ih => exact ih.propose hg h

/-- At every visit of a derivation a rule was chosen from those in scope there, and these are rules for variables. -/
theorem DerivesNode.exists_records (hg : g.WellStored) (ht : g.DerivesNode [] 0 start t) {v : Visit W}
    (hv : v ∈ t.tour true) : ∃ s, g.DerivesNode v.scope.rules v.depth s v.node ∧
      ∀ b ∈ v.scope.rules, g.IsVariable b := by
  obtain ⟨hole, hplug, _, hdepth, hs⟩ := Node.exists_hole_of_mem_tour hv
  have hd := (derives_alone_iff hg).mpr ht
  have hintro := hd.mem_introduced
  rw [← hplug] at hd
  obtain ⟨s, hn, _⟩ := hd.exists_site
  replace hs : v.scope.rules = hole.introduced := hs
  rw [hs, hdepth]
  refine ⟨s, by simpa using hn, fun b hb => ?_⟩
  obtain ⟨l, hl, hb⟩ := hole.mem_before_of_mem_introduced hb
  rw [← hplug, hole.labels_plug] at hintro
  exact hintro l (List.mem_append_left _ hl) b hb

/-! ## What nodes record -/

variable (g)

/-- The children of a node match the items of a right-hand side one by one, where some rules are bound. -/
inductive Matches (bound : List (Rule W)) : Items → Forest W → Prop
  | nil : Matches bound .nil .nil
  | leaf {s : String} {items : Items} {forest : Forest W} : g.isNonterminalIn bound s = false →
      Matches bound items forest → Matches bound (.symbol s items) (.leaf s forest)
  | node {s : String} {items : Items} {l : Label W} {children forest : Forest W} : g.isNonterminalIn bound s = true →
      l.nonterminal = s → Matches bound items forest → Matches bound (.symbol s items) (.node l children forest)
  | seq {inside items : Items} {below forest : Forest W} : Matches bound inside below →
      Matches bound items forest → Matches bound (.seq inside items) (.seq below forest)

/-- A rule is visible for a node, and everything that the node records follows from it and the visible rules. -/
structure Justifies (bound : List (Rule W)) (r : Rule W) (n : Node W) : Prop where
  visible : r ∈ g.visible bound n.label.nonterminal
  ruleId : n.label.ruleId = r.id
  name : n.label.name = r.name
  resampleWeight : n.label.resampleWeight = r.resampleWeight
  logProb : n.label.logProb =
    Arith.logShare r.weight (Arith.total ((g.visible bound n.label.nonterminal).map (·.weight)))
  introduced : n.label.introduced.map (·.nonterminal) = r.binds
  childless : ∀ v ∈ n.label.introduced, v.children = .nil
  children : g.Matches (bound ++ n.label.introduced) r.children n.children

variable {g}

theorem Derives.matches (hg : g.WellStored) {bound : List (Rule W)} {depth : Nat} {items : Items} {forest : Forest W}
    (h : g.Derives bound depth items forest) : g.Matches bound items forest := by
  induction h with
  | nil => exact .nil
  | leaf hs _ ih => exact .leaf hs ih
  | seq _ _ ihi ihr => exact .seq ihi ihr
  | node hs hr _ _ _ ihr => exact .node hs (hr.nonterminal.trans (hg.nonterminal_eq_of_visible hr.visible)) ihr

/-- The root of a derivation is justified. -/
theorem DerivesNode.justifies (hg : g.WellStored) {bound : List (Rule W)} {depth : Nat} {s : String} {n : Node W}
    (h : g.DerivesNode bound depth s n) : ∃ r, g.Justifies bound r n := by
  obtain ⟨r, hr, hc⟩ := h
  have hnt : n.label.nonterminal = s := hr.nonterminal.trans (hg.nonterminal_eq_of_visible hr.visible)
  obtain ⟨lowest, hi⟩ := hr.introduced
  refine ⟨r, ?_, hr.ruleId, hr.name, hr.resampleWeight, ?_, ?_, ?_, hc.matches hg⟩
  · rw [hnt]; exact hr.visible
  · rw [hnt]; exact hr.logProb
  · rw [hi]; exact g.map_nonterminal_variableRules _ _ _
  · intro v hv
    rw [hi] at hv
    obtain ⟨_, _, rfl⟩ := mem_variableRules hv
    rfl

/-- **Every tree of a chain is valid with the probabilities that it records.** A walk through it comes to every node,
and what the node records is justified by a rule that is visible in the scope of the walk. -/
theorem Chain.justified (hg : g.Built) (ht : g.Chain start k t) :
    (t.visits NodeTest.all).map (·.node) = t.nodes ∧
      ∀ v ∈ t.visits NodeTest.all, ∃ r, g.Justifies v.scope.rules r v.node := by
  rw [Node.visits_all]
  refine ⟨t.map_node_tour true, fun v hv => ?_⟩
  obtain ⟨s, hn, _⟩ := (ht.derives hg.wellStored).exists_records hg.wellStored hv
  exact hn.justifies hg.wellStored

/-! ## A run under a binder -/

/-- Abstraction over a variable, and a constant with an empty sequence. -/
def abstractions : Grammar Float where
  table := [("EXPR",
    [⟨⟨"EXPR", "lambda", .symbol "EXPR" .nil, 1.0, 1.0, ["EXPR"]⟩, 0⟩,
      ⟨⟨"EXPR", "unit", .seq .nil .nil, 1.0, 1.0, []⟩, 1⟩])]
  nextId := 2
  config := ⟨1.0, 1.0, "y"⟩

theorem built_abstractions : abstractions.Built :=
  have h := Built.empty (W := Float) ⟨1.0, 1.0, "y"⟩
  have h := h.add (p := ⟨"EXPR", "lambda", .symbol "EXPR" .nil, 1.0, 1.0, ["EXPR"]⟩) rfl
  h.add (p := ⟨"EXPR", "unit", .seq .nil .nil, 1.0, 1.0, []⟩) rfl

/-- The test that passes every other node that it is asked about. -/
def everyOther : StatefulTest W Bool := fun passes _ _ => (passes, !passes)

/-- The constant below an abstraction is generated anew, and becomes the variable. -/
def abstractionRun : Option (Node Float) := do
  let t ← (abstractions.generate "EXPR" [⟨0.25, 0.25⟩, ⟨0.5, 0.5⟩]).result.toOption
  let p ← (abstractions.proposeWith t everyOther false [⟨0.25, 0.25⟩, ⟨0.75, 0.75⟩]).1.toOption
  return p.tree

theorem ruleIds_abstractionRun : abstractionRun.map (·.nodes.map (·.label.ruleId)) = some [0, -1] := by
  decide +kernel

theorem eq_ok_of_toOption {ε α : Type} {x : Except ε α} {a : α} (h : x.toOption = some a) : x = .ok a := by
  cases x with
  | error e => cases h
  | ok b => cases h; rfl

/-- A tree that is generated and then changed by a proposal is one of a chain. -/
theorem chain_of_run {S : Type} {test : StatefulTest W S} {state : S} {draws more : List (Draw W)} (h : (do
      let t ← (g.generate start draws).result.toOption
      let p ← (g.proposeWith t test state more).1.toOption
      return p.tree) = some t) : ∃ k, g.Chain start k t := by
  obtain ⟨t₀, ht₀, h⟩ := Option.bind_eq_some_iff.mp h
  obtain ⟨p, hp, h⟩ := Option.bind_eq_some_iff.mp h
  cases h
  exact ⟨_, .propose (.generate (eq_ok_of_toOption ht₀)) (eq_ok_of_toOption hp)⟩

theorem abstractions_justified : ∃ k t, t.nodes.map (·.label.ruleId) = [0, -1] ∧ abstractions.Chain "EXPR" k t ∧
    (t.visits NodeTest.all).map (·.node) = t.nodes ∧
      ∀ v ∈ t.visits NodeTest.all, ∃ r, abstractions.Justifies v.scope.rules r v.node := by
  obtain ⟨t, ht, hids⟩ := Option.map_eq_some_iff.mp ruleIds_abstractionRun
  obtain ⟨k, hchain⟩ := chain_of_run ht
  exact ⟨k, t, hids, hchain, Chain.justified built_abstractions hchain⟩

end Grammar

end ScopedGrammar

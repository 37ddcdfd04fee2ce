import ScopedGrammar.Proofs.Address
import ScopedGrammar.Proofs.Chain
import ScopedGrammar.Proofs.Drawing
import ScopedGrammar.Proofs.Progress
import ScopedGrammar.Proofs.Selectable

/-!
# What a proposal changes, and when there is none

For a tree of a chain, a proposal is refused only if there is no node to select (`Chain.propose_sound`). Otherwise the
selected node is found again at its position (`Selection.exists_replace`), its nonterminal has rules in the scope that
the walk has rebuilt there (`Chain.isNonterminalIn_place`), and so generation goes through (`generateIn_cases`), unless
the draws are used up or weights overflow (`Grammar.Overflows`). The new tree differs from the old one at the place of
the selected node and below only (`Node.Replaces`).
-/

namespace ScopedGrammar

variable {W : Type} [Arith W]

/-! ## The selected node -/

/-- The node of a visit is found again by its position, so that it can be replaced. -/
theorem Selection.exists_replace {t : Node W} {v : Visit W} (hv : v ∈ t.tour true) (total : W) (accepts : NodeTest W)
    (n : Node W) : ∃ p, (Selection.ofVisit total v).replace t accepts n = .ok p := by
  obtain ⟨hole, hplug, hindex, _⟩ := Node.exists_hole_of_mem_tour hv
  obtain ⟨t', hreplace, _⟩ := Hole.replaceAt?_eq_some hplug n
  rw [← hindex] at hreplace
  exact ⟨_, by simp only [replace_eq, show (ofVisit total v).index = v.index from rfl, hreplace]; rfl⟩

namespace Grammar

variable {g : Grammar W} {start : String} {k : Nat} {t : Node W} {accepts : NodeTest W} {draws : List (Draw W)}

/-- At every place of a chain, the nonterminal of the node has rules in the scope there, which binds variables only. -/
theorem Chain.isNonterminalIn_place (hg : g.WellStored) (ht : g.Chain start k t) {p : Place W} (hp : p ∈ t.places) :
    g.isNonterminalIn p.introduced p.node.label.nonterminal = true ∧ ∀ b ∈ p.introduced, g.IsVariable b := by
  obtain ⟨s, hn, hscope⟩ := (ht.derives hg).exists_records hg (p.visit_mem_tour hp true)
  have hs : g.isNonterminalIn p.introduced s = true := hn.isNonterminalIn hg
  obtain ⟨r, hr, _⟩ := hn
  have hnt : p.node.label.nonterminal = s := hr.nonterminal.trans (hg.nonterminal_eq_of_visible hr.visible)
  exact ⟨hnt ▸ hs, hscope⟩

/-! ## When there is no proposal -/

variable (g t) in
/-- In a scope that generation comes to from a place of a tree, the visible weights add up to no finite number. -/
def Overflows : Prop := ∃ p ∈ t.places, ∃ bound s, g.Deepens p.introduced bound ∧ g.isNonterminalIn bound s = true ∧
  Arith.isFinite (g.visibleTotal bound s) = false

theorem propose_refused (hz : Arith.isPositive (t.normalizer accepts) = false) :
    g.propose t accepts draws = (.error (.error (.nothingToResample (t.normalizer accepts))), draws) := by
  rw [propose_eq_bind, Node.select_refused hz]

/-- After a selection, a proposal is what generation gives, put in its place. -/
theorem propose_of_select {s : Selection W} {left : List (Draw W)} (h : t.select accepts draws = (.ok s, left)) :
    g.propose t accepts draws =
      ((g.generateIn s.nonterminal s.nodeDepth (s.scope.reserveBelow t.lowestRuleId) left).result.bind
          (s.replace t accepts),
        (g.generateIn s.nonterminal s.nodeDepth (s.scope.reserveBelow t.lowestRuleId) left).draws) := by
  rw [propose_eq_bind, h]

/-- If a node can be selected, then there is a proposal, unless the draws are used up or weights overflow. -/
theorem Chain.propose_cases [Arith.Signed W] (hg : g.WellStored) (hw : Arith.isPositive g.config.weight = true)
    (ht : g.Chain start k t) (hz : Arith.isPositive (t.normalizer accepts) = true) :
    (∃ new, (g.propose t accepts draws).1 = .ok new) ∨
      (g.propose t accepts draws).1 = .error .noDraw ∧ (g.propose t accepts draws).2 = [] ∨
        (g.propose t accepts draws).1 = .error .infiniteTotal ∧ g.Overflows t := by
  cases draws with
  | nil =>
    right; left
    simp only [propose_eq_bind, Node.select_eq_pick, hz]
    exact ⟨rfl, rfl⟩
  | cons d rest =>
    obtain ⟨p, hp, _, hselect⟩ := Node.exists_select hz d rest
    replace hp : p ∈ t.places := (List.mem_filter.mp hp).1
    have hv := p.visit_mem_tour hp true
    obtain ⟨hs, hscope⟩ := ht.isNonterminalIn_place hg hp
    obtain ⟨made, hmade⟩ : ∃ made, g.generateIn p.node.label.nonterminal p.node.label.depth
      (siteScope t (p.visit true)) rest = made := ⟨_, rfl⟩
    have hpropose : g.propose t accepts (d :: rest) =
        (made.result.bind ((Selection.ofVisit (t.normalizer accepts) (p.visit true)).replace t accepts), made.draws) :=
      hmade ▸ propose_of_select hselect
    have hcases : (∃ n, made.result = .ok n) ∨ ∃ e, made.result = .error e ∧ g.Stops p.introduced e made.draws :=
      hmade ▸ generateIn_cases hg hw hscope hs p.node.label.depth rest
    rw [hpropose]
    rcases hcases with ⟨n, hn⟩ | ⟨e, he, hstops⟩
    · obtain ⟨new, hnew⟩ := Selection.exists_replace hv (t.normalizer accepts) accepts n
      exact .inl ⟨new, by rw [hn]; exact hnew⟩
    · right
      rw [he]
      generalize made.draws = left at hstops ⊢
      cases hstops with
      | noDraw => exact .inl ⟨rfl, rfl⟩
      | infiniteTotal hbound hs hinfinite => exact .inr ⟨rfl, p, hp, _, _, hbound, hs, hinfinite⟩

/-! ## What a proposal changes -/

/-- A proposal puts a node with the nonterminal and the depth of the selected one in its place. It uses one draw to
select, and one for each node that it generates. -/
theorem propose_replaces (hg : g.WellStored) {S : Type} {test : StatefulTest W S} {state : S} {new : Proposal W}
    (h : (g.proposeWith t test state draws).1 = .ok new) :
    ∃ s old n, (t.selectWith test state draws).1 = .ok s ∧ t.Replaces new.tree s.index old n ∧
      n.label.nonterminal = old.label.nonterminal ∧ n.label.depth = old.label.depth ∧
        ∃ used, draws = used ++ (g.proposeWith t test state draws).2.2 ∧ used.length = 1 + n.size := by
  obtain ⟨v, hole, left, n, hp⟩ := exists_regenerates h
  obtain ⟨d, hdraws⟩ := hp.drawn
  obtain ⟨used, hused, hpicks⟩ := generateIn_picks hg hp.made
  obtain ⟨r, hr, _⟩ := generateIn_derives hp.made
  refine ⟨_, v.node, n, hp.selected, ?_, ?_, hr.depth, d :: used, ?_, ?_⟩
  · show t.Replaces new.tree v.index v.node n
    rw [hp.index]
    exact Hole.replaces hp.old hp.new
  · exact hr.nonterminal.trans (hg.nonterminal_eq_of_visible hr.visible)
  · rw [List.cons_append, hp.remaining, ← hused]
    exact hdraws
  · rw [List.length_cons, hpicks.length_eq, n.length_places, Nat.add_comm]

/-- **A proposal is refused only if no node can be selected, and changes the selected place only.** -/
theorem Chain.propose_sound [Arith.Signed W] (hg : g.Built) (hw : Arith.isPositive g.config.weight = true)
    (ht : g.Chain start k t) (accepts : NodeTest W) (draws : List (Draw W)) :
    (∀ e, (g.propose t accepts draws).1 = .error (.error e) ↔
      Arith.isPositive (t.normalizer accepts) = false ∧ e = .nothingToResample (t.normalizer accepts)) ∧
    (Arith.isPositive (t.normalizer accepts) = true → (∃ new, (g.propose t accepts draws).1 = .ok new) ∨
      (g.propose t accepts draws).1 = .error .noDraw ∧ (g.propose t accepts draws).2 = [] ∨
        (g.propose t accepts draws).1 = .error .infiniteTotal ∧ g.Overflows t) ∧
    ∀ new, (g.propose t accepts draws).1 = .ok new → ∃ s old n, (t.select accepts draws).1 = .ok s ∧
      t.Replaces new.tree s.index old n ∧ n.label.nonterminal = old.label.nonterminal ∧
        n.label.depth = old.label.depth ∧
          ∃ used, draws = used ++ (g.propose t accepts draws).2 ∧ used.length = 1 + n.size := by
  refine ⟨fun e => ⟨fun h => ?_, fun ⟨hz, he⟩ => ?_⟩, ht.propose_cases hg.wellStored hw,
    fun new h => propose_replaces hg.wellStored h⟩
  · cases hz : Arith.isPositive (t.normalizer accepts) with
    | false =>
      rw [propose_refused hz] at h
      cases h
      exact ⟨rfl, rfl⟩
    | true =>
      rcases ht.propose_cases hg.wellStored hw hz with ⟨new, hnew⟩ | ⟨hdraw, _⟩ | ⟨hinfinite, _⟩
      · rw [h] at hnew; cases hnew
      · rw [h] at hdraw; cases hdraw
      · rw [h] at hinfinite; cases hinfinite
  · rw [propose_refused hz, he]

/-- The constant below an abstraction is generated anew, and becomes an abstraction of its own variable. -/
def identityRun : Option (Node Float × Proposal Float) := do
  let t ← (abstractions.generate "EXPR" [⟨0.25, 0.25⟩, ⟨0.5, 0.5⟩]).result.toOption
  let new ← (abstractions.propose t NodeTest.all [⟨0.75, 0.75⟩, ⟨0.25, 0.25⟩, ⟨0.875, 0.875⟩]).1.toOption
  return (t, new)

theorem ruleIds_identityRun : (identityRun.map fun (t, new) =>
    (t.nodes.map (·.label.ruleId), new.tree.nodes.map (·.label.ruleId))) = some ([0, 1], [0, 0, -2]) := by
  decide +kernel

theorem identityRun_propose_sound : ∃ k t new, t.nodes.map (·.label.ruleId) = [0, 1] ∧
    new.tree.nodes.map (·.label.ruleId) = [0, 0, -2] ∧ abstractions.Chain "EXPR" k t ∧
      (abstractions.propose t NodeTest.all [⟨0.75, 0.75⟩, ⟨0.25, 0.25⟩, ⟨0.875, 0.875⟩]).1 = .ok new ∧
        ∃ s old n, (t.select NodeTest.all [⟨0.75, 0.75⟩, ⟨0.25, 0.25⟩, ⟨0.875, 0.875⟩]).1 = .ok s ∧
          t.Replaces new.tree s.index old n := by
  obtain ⟨⟨t, new⟩, hrun, hids⟩ := Option.map_eq_some_iff.mp ruleIds_identityRun
  unfold identityRun at hrun
  obtain ⟨t', ht, hrun⟩ := Option.bind_eq_some_iff.mp hrun
  obtain ⟨new', hnew, hrun⟩ := Option.bind_eq_some_iff.mp hrun
  cases hrun
  have hchain : abstractions.Chain "EXPR" _ t := .generate (eq_ok_of_toOption ht)
  have hpropose := eq_ok_of_toOption hnew
  obtain ⟨_, _, hchanges⟩ := Chain.propose_sound built_abstractions (by decide +kernel) hchain NodeTest.all
    [⟨0.75, 0.75⟩, ⟨0.25, 0.25⟩, ⟨0.875, 0.875⟩]
  obtain ⟨s, old, n, hs, hreplaces, _⟩ := hchanges new hpropose
  obtain ⟨hids, hids'⟩ := Prod.mk.inj hids
  exact ⟨_, t, new, hids, hids', hchain, hpropose, s, old, n, hs, hreplaces⟩

end Grammar

end ScopedGrammar

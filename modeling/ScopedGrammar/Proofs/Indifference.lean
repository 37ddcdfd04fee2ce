import Mathlib.Data.List.Sort
import ScopedGrammar.Proofs.Chain
import ScopedGrammar.Proofs.Combination
import ScopedGrammar.Proofs.Erasure

/-!
# Ids have no influence

Two grammars whose rules differ in ids alone generate, enumerate and propose trees that differ in ids alone, from the
same draws and with the same errors (`Grammar.ids_irrelevant`). Two runs are compared step by step: `Generator.Alike`
says that generators give results that agree under a view, and leave the same draws, wherever the ids start. It is kept
by sequences (`Alike.bind`), so it goes from the choice of a rule (`alike_drawRule`) to whole trees (`alike_expand`).
-/

namespace ScopedGrammar

variable {W α β κ γ : Type}

/-! ## Generators that give the same -/

namespace Generator

/-- From the same draws, and from any ids, two generators fail alike or give results that agree under a view, and leave
the same draws. -/
def Alike (view : α → κ) (gen gen' : Generator W α) : Prop := ∀ lowest lowest' draws,
  (gen.run.run ⟨lowest, draws⟩).1.map view = (gen'.run.run ⟨lowest', draws⟩).1.map view ∧
    (gen.run.run ⟨lowest, draws⟩).2.draws = (gen'.run.run ⟨lowest', draws⟩).2.draws

variable {view : α → κ} {out : β → γ}

theorem alike_pure {a a' : α} (h : view a = view a') : Alike view (pure a : Generator W α) (pure a') :=
  fun _ _ _ => ⟨congrArg Except.ok h, rfl⟩

theorem alike_throw (e : Failure W) : Alike view (throw e : Generator W α) (throw e) := fun _ _ _ => ⟨rfl, rfl⟩

theorem alike_nextDraw : Alike id (nextDraw : Generator W (Draw W)) nextDraw
  | _, _, [] => ⟨rfl, rfl⟩
  | _, _, _ :: _ => ⟨rfl, rfl⟩

/-- Sequences are alike if their parts are. -/
theorem Alike.bind {gen gen' : Generator W α} {f f' : α → Generator W β} (hgen : Alike view gen gen')
    (hf : ∀ a a', view a = view a' → Alike out (f a) (f' a')) : Alike out (gen >>= f) (gen' >>= f') := by
  intro lowest lowest' draws
  obtain ⟨hresult, hdraws⟩ := hgen lowest lowest' draws
  rcases hrun : gen.run.run ⟨lowest, draws⟩ with ⟨result, lowest₁, left⟩
  rcases hrun' : gen'.run.run ⟨lowest', draws⟩ with ⟨result', lowest₂, left'⟩
  rw [hrun, hrun'] at hresult hdraws
  obtain rfl : left = left' := hdraws
  rcases error_or_ok_of_map_eq hresult with ⟨e, rfl, rfl⟩ | ⟨a, a', rfl, rfl, ha⟩
  · rw [run_bind_error hrun, run_bind_error hrun']
    exact ⟨rfl, rfl⟩
  · rw [run_bind_ok hrun, run_bind_ok hrun']
    exact hf a a' ha lowest₁ lowest₂ left

theorem Alike.map {gen gen' : Generator W α} {f f' : α → β} (hgen : Alike view gen gen')
    (hf : ∀ a a', view a = view a' → out (f a) = out (f' a')) : Alike out (f <$> gen) (f' <$> gen') := by
  rw [map_eq_pure_bind, map_eq_pure_bind]
  exact hgen.bind fun a a' h => alike_pure (hf a a' h)

end Generator

/-! ## Choice by weights -/

namespace Categorical

variable {weight : α → W}

/-- In lists with the same weights, alternatives at the same index have the same weight. -/
theorem weight_eq_of_map_eq {as as' : List α} (h : as.map weight = as'.map weight) {i : Fin as.length}
    {i' : Fin as'.length} (hi : (i : Nat) = i') : weight as[i] = weight as'[i'] := by
  have hat := congrArg (·[(i : Nat)]?) h
  have hleft : as[(i : Nat)]? = some as[i] := List.getElem?_eq_getElem i.isLt
  have hright : as'[(i : Nat)]? = some as'[i'] := by
    rw [hi]
    exact List.getElem?_eq_getElem i'.isLt
  simp only [List.getElem?_map, hleft, hright] at hat
  exact Option.some.inj hat

variable [Arith W]

/-- Which index a draw picks depends on the weights and their total. -/
theorem index_eq {c c' : Categorical α W} (hweights : c.alternatives.map c.weight = c'.alternatives.map c'.weight)
    (htotal : c.total = c'.total) (d : Draw W) : (c.index d : Nat) = c'.index d := by
  show List.countP _ (List.dropLast (runningTotals _ _)) = List.countP _ (List.dropLast (runningTotals _ _))
  rw [hweights, htotal]

/-- Alternatives with the same weights are no distribution for the same reason, or a draw picks the same index with the
same log-probability. -/
theorem ofList_alike {as as' : List α} (h : as.map weight = as'.map weight) :
    (∃ e, ofList weight as = .error e ∧ ofList weight as' = .error e) ∨
      ∃ c c', ofList weight as = .ok c ∧ ofList weight as' = .ok c' ∧ ∀ d,
        (c.index d : Nat) = c'.index d ∧ c.logProb (c.index d) = c'.logProb (c'.index d) := by
  have hany : (as.any fun a => !decide (Arith.zero ≤ weight a)) =
      as'.any fun a => !decide (Arith.zero ≤ weight a) := by
    have hweights := congrArg (List.any · fun w => !decide (Arith.zero ≤ w)) h
    simpa [List.any_map, Function.comp_def] using hweights
  by_cases hnil : as = []
  · subst hnil
    obtain rfl : as' = [] := by simpa using h.symm
    exact Or.inl ⟨_, rfl, rfl⟩
  have hnil' : as' ≠ [] := fun he => hnil (by simpa [he] using h)
  unfold ofList
  simp only [h, hany, hnil, hnil', dif_neg, not_false_eq_true]
  by_cases hinvalid : (as'.any fun a => !decide (Arith.zero ≤ weight a)) = true
  · rw [if_pos hinvalid, if_pos hinvalid]
    exact Or.inl ⟨_, rfl, rfl⟩
  by_cases hzero : (Arith.total (as'.map weight) == Arith.zero) = true
  · rw [if_neg hinvalid, if_neg hinvalid, if_pos hzero, if_pos hzero]
    exact Or.inl ⟨_, rfl, rfl⟩
  by_cases hinfinite : (!Arith.isFinite (Arith.total (as'.map weight))) = true
  · rw [if_neg hinvalid, if_neg hinvalid, if_neg hzero, if_neg hzero, if_pos hinfinite, if_pos hinfinite]
    exact Or.inl ⟨_, rfl, rfl⟩
  rw [if_neg hinvalid, if_neg hinvalid, if_neg hzero, if_neg hzero, if_neg hinfinite, if_neg hinfinite]
  refine Or.inr ⟨_, _, rfl, rfl, fun d => ?_⟩
  let c : Categorical α W := ⟨as, weight, Arith.total (as'.map weight), hnil⟩
  let c' : Categorical α W := ⟨as', weight, Arith.total (as'.map weight), hnil'⟩
  have hweights : c.alternatives.map c.weight = c'.alternatives.map c'.weight := h
  have hindex : (c.index d : Nat) = c'.index d := index_eq hweights rfl d
  exact ⟨hindex, congrArg (Arith.logShare · _) (weight_eq_of_map_eq h hindex)⟩

end Categorical

namespace Grammar

/-! ## Grammars that differ in ids alone -/

/-- Two grammars have the same configuration, and for every nonterminal the same rules in order, but for ids. -/
structure AgreesUpToIds (g g' : Grammar W) : Prop where
  config : g.config = g'.config
  rules : ∀ nt, (g.rules nt).map Rule.withoutId = (g'.rules nt).map Rule.withoutId

/-- The rules for bound variables do not depend on where ids start. -/
theorem map_withoutId_variableRules {g g' : Grammar W} (h : g.config = g'.config) (depth : Nat) :
    ∀ (binds : List String) (lowest lowest' : Int), (g.variableRules depth binds lowest).map Rule.withoutId =
      (g'.variableRules depth binds lowest').map Rule.withoutId
  | [], _, _ => rfl
  | nt :: rest, lowest, lowest' => by
    have ih := map_withoutId_variableRules h depth rest (idBelow lowest) (idBelow lowest')
    rw [variableRules, variableRules, List.map_cons, List.map_cons, ih]
    simp only [variableRule, Rule.withoutId, h]

section

variable {g g' : Grammar W} {bound bound' : List (Rule W)}

namespace AgreesUpToIds

theorem symm (h : g.AgreesUpToIds g') : g'.AgreesUpToIds g := ⟨h.config.symm, fun nt => (h.rules nt).symm⟩

/-- The visible rules of a nonterminal agree, if those in scope do. -/
theorem visible_eq (h : g.AgreesUpToIds g') (hbound : bound.map Rule.withoutId = bound'.map Rule.withoutId)
    (s : String) : (g.visible bound s).map Rule.withoutId = (g'.visible bound' s).map Rule.withoutId := by
  have hfilter : (bound.filter (·.nonterminal == s)).map Rule.withoutId =
      (bound'.filter (·.nonterminal == s)).map Rule.withoutId :=
    map_filter_congr (fun _ _ hr => congrArg (·.nonterminal == s) (Rule.withoutId_eq_iff.mp hr)) hbound
  rw [visible, visible, List.map_append, List.map_append, h.rules, hfilter]

variable [Arith W]

theorem isNonterminal_of (hg : g.WellStored) (hg' : g'.WellStored) (h : g.AgreesUpToIds g') {s : String}
    (hs : g.isNonterminal s = true) : g'.isNonterminal s = true := by
  rw [hg.isNonterminal_iff] at hs
  rw [hg'.isNonterminal_iff]
  intro hnone
  have hrules := h.rules s
  rw [hnone, List.map_nil, List.map_eq_nil_iff] at hrules
  exact hs hrules

theorem isNonterminal_eq (hg : g.WellStored) (hg' : g'.WellStored) (h : g.AgreesUpToIds g') (s : String) :
    g.isNonterminal s = g'.isNonterminal s :=
  Bool.eq_iff_iff.mpr ⟨isNonterminal_of hg hg' h, isNonterminal_of hg' hg h.symm⟩

/-- The nonterminals are the same, as both lists are sorted. -/
theorem nonterminals_eq (hg : g.WellStored) (hg' : g'.WellStored) (h : g.AgreesUpToIds g') :
    g.nonterminals = g'.nonterminals := by
  have hmem : ∀ s, s ∈ g.nonterminals ↔ s ∈ g'.nonterminals := by
    intro s
    have hs := h.isNonterminal_eq hg hg' s
    rw [isNonterminal, isNonterminal, Bool.eq_iff_iff, List.contains_iff_mem, List.contains_iff_mem] at hs
    exact hs
  have hnodup : ∀ {ks : List String}, ks.Pairwise (· < ·) → ks.Nodup := fun hks => hks.imp fun hlt => hlt.ne
  have hperm := (List.perm_ext_iff_of_nodup (hnodup hg.grouped.ascending) (hnodup hg'.grouped.ascending)).mpr hmem
  exact hperm.eq_of_pairwise' hg.grouped.ascending hg'.grouped.ascending

theorem isNonterminalIn_eq (hg : g.WellStored) (hg' : g'.WellStored) (h : g.AgreesUpToIds g')
    (hbound : bound.map Rule.withoutId = bound'.map Rule.withoutId) (s : String) :
    g.isNonterminalIn bound s = g'.isNonterminalIn bound' s := by
  have hany := congrArg (List.any · fun r => r.nonterminal == s) hbound
  simp only [List.any_map, Function.comp_def] at hany
  unfold isNonterminalIn
  rw [h.isNonterminal_eq hg hg' s]
  exact congrArg _ hany

end AgreesUpToIds

/-! ## Generation -/

open Generator

theorem alike_introduce (h : g.config = g'.config) (binds : List String) (depth : Nat) :
    Alike (List.map Rule.withoutId) (g.introduce binds depth) (g'.introduce binds depth) := fun _ _ _ =>
  ⟨congrArg Except.ok (map_withoutId_variableRules h depth binds _ _), rfl⟩

/-- Right-hand sides are filled alike, if their nonterminals are expanded alike. -/
theorem alike_fill (hs : ∀ s, g.isNonterminalIn bound s = g'.isNonterminalIn bound' s)
    {expandSymbol expandSymbol' : String → Generator W (Node W)}
    (hexp : ∀ s, Alike Node.withoutIds (expandSymbol s) (expandSymbol' s)) (items : Items) :
    Alike Forest.withoutIds (g.fill bound expandSymbol items) (g'.fill bound' expandSymbol' items) := by
  induction items with
  | nil => exact alike_pure rfl
  | symbol s rest ih =>
    rw [fill, fill, hs s]
    split
    · refine (hexp s).bind fun n n' hn => ih.bind fun f f' hf => alike_pure ?_
      exact congrArg₂ (fun (n : Node W) f => Forest.node n.label n.children f) hn hf
    · exact ih.bind fun f f' hf => alike_pure (congrArg (Forest.leaf s) hf)
  | seq inside rest ihi ihr =>
    exact ihi.bind fun f f' hf => ihr.bind fun _ _ hrest => alike_pure (congrArg₂ Forest.seq hf hrest)

theorem alike_fillItem (hs : ∀ s, g.isNonterminalIn bound s = g'.isNonterminalIn bound' s)
    {expandSymbol expandSymbol' : String → Generator W (Node W)}
    (hexp : ∀ s, Alike Node.withoutIds (expandSymbol s) (expandSymbol' s)) : ∀ item,
      Alike Child.withoutIds (g.fillItem bound expandSymbol item) (g'.fillItem bound' expandSymbol' item)
  | .symbol s => by
    rw [fillItem, fillItem, hs s]
    split
    · exact (hexp s).map fun n n' hn => congrArg Child.node hn
    · exact alike_pure rfl
  | .seq inside => (alike_fill hs hexp inside).map fun f f' hf => congrArg Child.seq hf

/-- Runs of generators that are alike have outcomes that agree. -/
theorem ofRun_eq {view : α → κ} {gen gen' : Generator W α} (hgen : Alike view gen gen') (scope scope' : Scope W)
    (draws : List (Draw W)) : (Outcome.ofRun scope draws gen).result.map view =
      (Outcome.ofRun scope' draws gen').result.map view ∧
        (Outcome.ofRun scope draws gen).draws = (Outcome.ofRun scope' draws gen').draws :=
  hgen scope.lowest scope'.lowest draws

variable [Arith W]

/-- A rule is drawn that differs in its id alone, with the same log-probability. -/
theorem alike_drawRule (h : g.AgreesUpToIds g') (hbound : bound.map Rule.withoutId = bound'.map Rule.withoutId)
    (s : String) : Alike (fun drawn => (drawn.1.withoutId, drawn.2)) (g.drawRule bound s) (g'.drawRule bound' s) := by
  have hvisible := h.visible_eq hbound s
  have hweights : (g.visible bound s).map (·.weight) = (g'.visible bound' s).map (·.weight) :=
    map_map_congr (fun _ _ hr => congrArg Production.weight (Rule.withoutId_eq_iff.mp hr)) hvisible
  unfold drawRule
  rcases Categorical.ofList_alike hweights with ⟨e, hleft, hright⟩ | ⟨c, c', hleft, hright, hchoice⟩
  · rw [hleft, hright]
    exact alike_throw e
  · rw [hleft, hright]
    refine alike_nextDraw.bind fun d d' hd => ?_
    obtain rfl : d = d' := hd
    obtain ⟨hindex, hlog⟩ := hchoice d
    have hrule : (g.visibleAtIndex bound s (c.index d)).map Rule.withoutId =
        (g'.visibleAtIndex bound' s (c'.index d)).map Rule.withoutId := by
      rw [visibleAtIndex_eq, visibleAtIndex_eq, ← List.getElem?_map, ← List.getElem?_map, hvisible, hindex]
    rcases none_or_some_of_map_eq hrule with ⟨hr, hr'⟩ | ⟨r, r', hr, hr', he⟩
    · rw [hr, hr']
      exact alike_throw _
    · rw [hr, hr']
      exact alike_pure (Prod.ext he hlog)

/-- Generation from a nonterminal does not depend on ids. The induction is on the fuel, which bounds the height. -/
theorem alike_expand (hg : g.WellStored) (hg' : g'.WellStored) (h : g.AgreesUpToIds g') (fuel : Nat) :
    ∀ {bound bound' : List (Rule W)} (s : String) (depth : Nat),
      bound.map Rule.withoutId = bound'.map Rule.withoutId →
        Alike Node.withoutIds (g.expand fuel bound s depth) (g'.expand fuel bound' s depth) := by
  induction fuel with
  | zero =>
    intro bound bound' s depth hbound
    have hsame := h.isNonterminalIn_eq hg hg' hbound s
    cases hs : g.isNonterminalIn bound s with
    | false =>
      rw [expand_terminal hs, expand_terminal (hsame.symm.trans hs)]
      exact alike_throw _
    | true =>
      rw [expand_zero hs, expand_zero (hsame.symm.trans hs)]
      exact (alike_drawRule h hbound s).bind fun _ _ _ => alike_throw _
  | succ fuel ih =>
    intro bound bound' s depth hbound
    have hsame := h.isNonterminalIn_eq hg hg' hbound
    cases hs : g.isNonterminalIn bound s with
    | false =>
      rw [expand_terminal hs, expand_terminal ((hsame s).symm.trans hs)]
      exact alike_throw _
    | true =>
      rw [expand_succ hs, expand_succ ((hsame s).symm.trans hs)]
      refine (alike_drawRule h hbound s).bind fun ⟨⟨p, id⟩, lp⟩ ⟨⟨p', id'⟩, lp'⟩ hdrawn => ?_
      obtain ⟨hr, rfl⟩ := Prod.mk.inj hdrawn
      obtain rfl : p = p' := Rule.withoutId_eq_iff.mp hr
      refine (alike_introduce h.config p.binds (depth + 1)).bind fun introduced introduced' hintroduced => ?_
      have hinner : (bound ++ introduced).map Rule.withoutId = (bound' ++ introduced').map Rule.withoutId := by
        rw [List.map_append, List.map_append, hbound, hintroduced]
      have hchildren := alike_fill (h.isNonterminalIn_eq hg hg' hinner) (fun s => ih s (depth + 1) hinner) p.children
      refine hchildren.bind fun children children' hc => alike_pure ?_
      simp only [Node.withoutIds, Node.ofRule, Label.withoutIds, hc, hintroduced]

theorem generateIn_withoutIds (hg : g.WellStored) (hg' : g'.WellStored) (h : g.AgreesUpToIds g')
    {scope scope' : Scope W} (hscope : scope.withoutIds = scope'.withoutIds) (s : String) (depth : Nat)
    (draws : List (Draw W)) : (g.generateIn s depth scope draws).result.map Node.withoutIds =
      (g'.generateIn s depth scope' draws).result.map Node.withoutIds ∧
        (g.generateIn s depth scope draws).draws = (g'.generateIn s depth scope' draws).draws := by
  rw [generateIn_eq, generateIn_eq]
  exact ofRun_eq (alike_expand hg hg' h _ s depth (Scope.withoutIds_eq_iff.mp hscope)) scope scope' draws

theorem generateItem_withoutIds (hg : g.WellStored) (hg' : g'.WellStored) (h : g.AgreesUpToIds g')
    {scope scope' : Scope W} (hscope : scope.withoutIds = scope'.withoutIds) (item : Item) (depth : Nat)
    (draws : List (Draw W)) : (g.generateItem item depth scope draws).result.map Child.withoutIds =
      (g'.generateItem item depth scope' draws).result.map Child.withoutIds ∧
        (g.generateItem item depth scope draws).draws = (g'.generateItem item depth scope' draws).draws := by
  have hbound := Scope.withoutIds_eq_iff.mp hscope
  rw [generateItem_eq, generateItem_eq]
  exact ofRun_eq (alike_fillItem (h.isNonterminalIn_eq hg hg' hbound)
    (fun s => alike_expand hg hg' h _ s depth hbound) item) scope scope' draws

/-! ## Proposals -/

/-- A node is replaced by a new one in the same way in trees that are the same without ids. -/
theorem replace_withoutIds {t t' n n' : Node W} {accepts : NodeTest W} (haccepts : accepts.IgnoresIds)
    (ht : t.withoutIds = t'.withoutIds) (hn : n.withoutIds = n'.withoutIds) {sel sel' : Selection W}
    (hsel : sel.withoutIds = sel'.withoutIds) :
    (sel.replace t accepts n).map Proposal.withoutIds = (sel'.replace t' accepts n').map Proposal.withoutIds := by
  have hindex : sel.index = sel'.index := (congrArg Selection.index hsel :)
  have hlog : sel.logProb = sel'.logProb := (congrArg Selection.logProb hsel :)
  have hweight : sel.resampleWeight = sel'.resampleWeight := (congrArg Selection.resampleWeight hsel :)
  have hreplace : (t.replaceAt? sel.index n).map Node.withoutIds =
      (t'.replaceAt? sel'.index n').map Node.withoutIds := by
    rw [Node.replaceAt?_withoutIds, Node.replaceAt?_withoutIds, ht, hn, hindex]
  rw [Selection.replace_eq, Selection.replace_eq]
  rcases none_or_some_of_map_eq hreplace with ⟨hr, hr'⟩ | ⟨new, new', hr, hr', hnew⟩
  · rw [hr, hr', hindex]
  · simp only [hr, hr', hlog, hweight, Node.normalizer_eq haccepts hnew, Node.logProbability_eq hnew,
      Node.logProbability_eq ht, Except.map, Proposal.withoutIds, hnew]

theorem propose_withoutIds (hg : g.WellStored) (hg' : g'.WellStored) (h : g.AgreesUpToIds g') {t t' : Node W}
    {accepts : NodeTest W} (haccepts : accepts.IgnoresIds) (ht : t.withoutIds = t'.withoutIds)
    (draws : List (Draw W)) : (g.propose t accepts draws).1.map Proposal.withoutIds =
      (g'.propose t' accepts draws).1.map Proposal.withoutIds ∧
        (g.propose t accepts draws).2 = (g'.propose t' accepts draws).2 := by
  obtain ⟨hresult, hdraws⟩ := Node.select_eq haccepts ht draws
  rw [propose_eq_bind, propose_eq_bind]
  rcases hsel : t.select accepts draws with ⟨selected, left⟩
  rcases hsel' : t'.select accepts draws with ⟨selected', left'⟩
  rw [hsel, hsel'] at hresult hdraws
  obtain rfl : left = left' := hdraws
  rcases error_or_ok_of_map_eq hresult with ⟨e, rfl, rfl⟩ | ⟨sel, sel', rfl, rfl, hselection⟩
  · exact ⟨rfl, rfl⟩
  · have hnt : sel.nonterminal = sel'.nonterminal := (congrArg Selection.nonterminal hselection :)
    have hdepth : sel.nodeDepth = sel'.nodeDepth := (congrArg Selection.nodeDepth hselection :)
    have hscope : (sel.scope.reserveBelow t.lowestRuleId).withoutIds =
        (sel'.scope.reserveBelow t'.lowestRuleId).withoutIds := (congrArg Selection.scope hselection :)
    obtain ⟨hmade, hleft⟩ := generateIn_withoutIds hg hg' h hscope sel.nonterminal sel.nodeDepth left
    simp only [← hnt, ← hdepth]
    refine ⟨?_, hleft⟩
    rcases error_or_ok_of_map_eq hmade with ⟨e, hn, hn'⟩ | ⟨n, n', hn, hn', hnode⟩
    · rw [hn, hn']
      rfl
    · rw [hn, hn']
      exact replace_withoutIds haccepts ht hnode hselection

end

/-! ## Enumeration -/

section

variable {g g' : Grammar W}

/-- Right-hand sides have the same lists of children, if their nonterminals have the same trees. -/
theorem fillings_withoutIds [Arith W] (hs : ∀ s, g.isNonterminal s = g'.isNonterminal s)
    {expansions expansions' : String → LazyList (Node W)}
    (hexp : ∀ s, (expansions s).toList.map Node.withoutIds = (expansions' s).toList.map Node.withoutIds)
    (items : Items) : (g.fillings expansions items).toList.map Forest.withoutIds =
      (g'.fillings expansions' items).toList.map Forest.withoutIds := by
  induction items with
  | nil => rfl
  | symbol s rest ih =>
    rw [fillings, fillings, hs s]
    split
    · rw [LazyList.toList_combine, LazyList.toList_combine]
      refine map_flatMap_congr (fun n n' hn => ?_) (hexp s)
      rw [List.map_map, List.map_map]
      refine map_map_congr (fun f f' hf => ?_) ih
      exact congrArg₂ (fun (n : Node W) f => Forest.node n.label n.children f) hn hf
    · rw [LazyList.toList_map, LazyList.toList_map, List.map_map, List.map_map]
      exact map_map_congr (fun f f' hf => congrArg (Forest.leaf s) hf) ih
  | seq inside rest ihi ihr =>
    rw [fillings, fillings, LazyList.toList_combine, LazyList.toList_combine]
    refine map_flatMap_congr (fun f f' hf => ?_) ihi
    rw [List.map_map, List.map_map]
    exact map_map_congr (fun _ _ hrest => congrArg₂ Forest.seq hf hrest) ihr

theorem producesTerminals_eq (hs : ∀ s, g.isNonterminal s = g'.isNonterminal s) {r r' : Rule W}
    (hr : r.withoutId = r'.withoutId) : g.producesTerminals r.toProduction = g'.producesTerminals r'.toProduction := by
  rw [Rule.withoutId_eq_iff.mp hr]
  simp only [producesTerminals, hs]

variable [Arith W]

/-- The node of a rule differs in ids alone, if the rule and the children do. -/
theorem plainNode_withoutIds (h : g.AgreesUpToIds g') (level : Nat) (s : String) {r r' : Rule W}
    (hr : r.withoutId = r'.withoutId) {children children' : Forest W}
    (hc : children.withoutIds = children'.withoutIds) :
    (g.plainNode level s r children).withoutIds = (g'.plainNode level s r' children').withoutIds := by
  have hweights : (g.rules s).map (·.weight) = (g'.rules s).map (·.weight) :=
    map_map_congr (fun _ _ hr => congrArg Production.weight (Rule.withoutId_eq_iff.mp hr)) (h.rules s)
  have hproduction := Rule.withoutId_eq_iff.mp hr
  simp only [plainNode, Node.ofRule, Node.withoutIds, Label.withoutIds, totalWeight, hweights, hproduction, hc]

theorem terminalTrees_withoutIds (hg : g.WellStored) (hg' : g'.WellStored) (h : g.AgreesUpToIds g') (level : Nat)
    (s : String) : (g.terminalTrees level s).map Node.withoutIds = (g'.terminalTrees level s).map Node.withoutIds := by
  have hrules := map_filter_congr (fun r r' => producesTerminals_eq (h.isNonterminal_eq hg hg')) (h.rules s)
  rw [terminalTrees, terminalTrees, List.map_map, List.map_map]
  refine map_map_congr (fun r r' hr => plainNode_withoutIds h level s hr ?_) hrules
  rw [Rule.withoutId_eq_iff.mp hr]

theorem trees_withoutIds (hg : g.WellStored) (hg' : g'.WellStored) (h : g.AgreesUpToIds g') (budget : Nat) :
    ∀ (level : Nat) (s : String), (g.trees budget level s).toList.map Node.withoutIds =
      (g'.trees budget level s).toList.map Node.withoutIds := by
  induction budget with
  | zero =>
    intro level s
    rw [trees, trees, LazyList.toList_ofList, LazyList.toList_ofList]
    exact terminalTrees_withoutIds hg hg' h level s
  | succ budget ih =>
    intro level s
    have hs := h.isNonterminal_eq hg hg'
    have hothers : ((g.rules s).filter (!g.producesTerminals ·.toProduction)).map Rule.withoutId =
        ((g'.rules s).filter (!g'.producesTerminals ·.toProduction)).map Rule.withoutId :=
      map_filter_congr (fun r r' hr => congrArg (!·) (producesTerminals_eq hs hr)) (h.rules s)
    simp only [trees, LazyList.toList_append, LazyList.toList_ofList, LazyList.toList_flatMap, LazyList.toList_map,
      List.map_append]
    rw [terminalTrees_withoutIds hg hg' h level s]
    refine congrArg _ (map_flatMap_congr (fun r r' hr => ?_) hothers)
    rw [List.map_map, List.map_map, Rule.withoutId_eq_iff.mp hr]
    exact map_map_congr (fun f f' hf => plainNode_withoutIds h level s hr hf)
      (fillings_withoutIds hs (ih (level + 1)) r'.children)

theorem reachableFrom_eq (hg : g.WellStored) (hg' : g'.WellStored) (h : g.AgreesUpToIds g') (s : String) :
    g.reachableFrom s = g'.reachableFrom s := by
  have hmentions : g.mentions = g'.mentions := by
    funext nt
    rw [mentions, mentions, List.flatMap_def, List.flatMap_def]
    refine congrArg _ (map_map_congr (fun r r' hr => ?_) (h.rules nt))
    rw [Rule.withoutId_eq_iff.mp hr]
  have hnonterminal : g.isNonterminal = g'.isNonterminal := funext (h.isNonterminal_eq hg hg')
  have hpush : g.pushUnseen = g'.pushUnseen := by
    funext search symbol
    rw [pushUnseen, pushUnseen, hnonterminal]
  have hstep : g.searchStep = g'.searchStep := by
    funext search
    obtain ⟨seen, _ | ⟨nt, stack⟩⟩ := search
    · rfl
    · rw [searchStep, searchStep, hmentions, hpush]
  rw [reachableFrom, reachableFrom, search, search, searchStart, searchStart, hmentions, hnonterminal, hstep,
    h.nonterminals_eq hg hg']

/-- The first binder that is reachable is the same, but for its id. -/
theorem reachableBinder?_withoutIds (hg : g.WellStored) (hg' : g'.WellStored) (h : g.AgreesUpToIds g') (s : String) :
    (g.reachableBinder? s).map (fun b => (b.1, b.2.withoutId)) =
      (g'.reachableBinder? s).map fun b => (b.1, b.2.withoutId) := by
  have hfirst : ∀ nt, ((g.rules nt).find? (·.bindsVariables)).map Rule.withoutId =
      ((g'.rules nt).find? (·.bindsVariables)).map Rule.withoutId := by
    intro nt
    have hbinders : ((g.rules nt).filter (·.bindsVariables)).map Rule.withoutId =
        ((g'.rules nt).filter (·.bindsVariables)).map Rule.withoutId :=
      map_filter_congr (fun _ _ hr => congrArg Production.bindsVariables (Rule.withoutId_eq_iff.mp hr)) (h.rules nt)
    rw [← List.head?_filter, ← List.head?_filter, ← List.head?_map, ← List.head?_map, hbinders]
  rw [reachableBinder?, reachableBinder?, reachableFrom_eq hg hg' h, List.map_findSome?, List.map_findSome?]
  congr 1
  funext nt
  have hnt := congrArg (Option.map (Prod.mk nt)) (hfirst nt)
  simpa only [Function.comp, Option.map_map, Function.comp_def] using hnt

theorem enumerate_withoutIds (hg : g.WellStored) (hg' : g'.WellStored) (h : g.AgreesUpToIds g') (s : String)
    (depth : Nat) : (g.enumerate s depth).map (fun trees => (trees ()).toList.map Node.withoutIds) =
      (g'.enumerate s depth).map fun trees => (trees ()).toList.map Node.withoutIds := by
  have hbinder := reachableBinder?_withoutIds hg hg' h s
  rw [enumerate_eq, enumerate_eq, h.isNonterminal_eq hg hg' s]
  split
  · rfl
  · rcases none_or_some_of_map_eq hbinder with ⟨hb, hb'⟩ | ⟨b, b', hb, hb', he⟩
    · rw [hb, hb']
      exact congrArg Except.ok (trees_withoutIds hg hg' h depth 0 s)
    · obtain ⟨hnt, hr⟩ := Prod.mk.inj he
      rw [hb, hb']
      simp only [hnt, Rule.withoutId_eq_iff.mp hr, Except.map]

end

/-! ## All of it -/

/-- **Ids have no influence on what is generated, enumerated and proposed.** In grammars whose rules differ in ids
alone, and in scopes that do, generation fails alike or gives results that differ in ids alone, and uses the same draws.
So do proposals for trees that differ in ids alone, with the same correction, and enumeration gives the same trees but
for ids. -/
theorem ids_irrelevant [Arith W] {g g' : Grammar W} (hg : g.Built) (hg' : g'.Built) (h : g.AgreesUpToIds g') :
    (∀ (scope scope' : Scope W) (depth : Nat) (draws : List (Draw W)), scope.withoutIds = scope'.withoutIds →
      (∀ s, (g.generateIn s depth scope draws).result.map Node.withoutIds =
          (g'.generateIn s depth scope' draws).result.map Node.withoutIds ∧
        (g.generateIn s depth scope draws).draws = (g'.generateIn s depth scope' draws).draws) ∧
      ∀ item, (g.generateItem item depth scope draws).result.map Child.withoutIds =
          (g'.generateItem item depth scope' draws).result.map Child.withoutIds ∧
        (g.generateItem item depth scope draws).draws = (g'.generateItem item depth scope' draws).draws) ∧
    (∀ s depth, (g.enumerate s depth).map (fun trees => (trees ()).toList.map Node.withoutIds) =
      (g'.enumerate s depth).map fun trees => (trees ()).toList.map Node.withoutIds) ∧
    ∀ (t t' : Node W) (accepts : NodeTest W) (draws : List (Draw W)), t.withoutIds = t'.withoutIds →
      accepts.IgnoresIds → (g.propose t accepts draws).1.map Proposal.withoutIds =
          (g'.propose t' accepts draws).1.map Proposal.withoutIds ∧
        (g.propose t accepts draws).2 = (g'.propose t' accepts draws).2 := by
  refine ⟨fun scope scope' depth draws hscope => ⟨fun s => ?_, fun item => ?_⟩, fun s depth => ?_,
    fun t t' accepts draws ht haccepts => ?_⟩
  · exact generateIn_withoutIds hg.wellStored hg'.wellStored h hscope s depth draws
  · exact generateItem_withoutIds hg.wellStored hg'.wellStored h hscope item depth draws
  · exact enumerate_withoutIds hg.wellStored hg'.wellStored h s depth
  · exact propose_withoutIds hg.wellStored hg'.wellStored h haccepts ht draws

/-- The grammar of `abstractions`, with a rule that was removed before the last one was added. -/
def rearranged : Grammar Float where
  table := [("EXPR",
    [⟨⟨"EXPR", "lambda", .symbol "EXPR" .nil, 1.0, 1.0, ["EXPR"]⟩, 0⟩,
      ⟨⟨"EXPR", "unit", .seq .nil .nil, 1.0, 1.0, []⟩, 2⟩])]
  nextId := 3
  config := ⟨1.0, 1.0, "y"⟩

theorem built_rearranged : rearranged.Built :=
  have h := Built.empty (W := Float) ⟨1.0, 1.0, "y"⟩
  have h := h.add (p := ⟨"EXPR", "lambda", .symbol "EXPR" .nil, 1.0, 1.0, ["EXPR"]⟩) rfl
  have h := h.add (p := ⟨"LEAF", "none", .nil, 1.0, 1.0, []⟩) rfl
  have h := h.remove (show Grammar.remove? _ "LEAF" 1 = some (_, _) from rfl)
  h.add (p := ⟨"EXPR", "unit", .seq .nil .nil, 1.0, 1.0, []⟩) rfl

theorem agreesUpToIds_rearranged : abstractions.AgreesUpToIds rearranged := by
  refine ⟨rfl, fun nt => ?_⟩
  show (RuleTable.rules abstractions.table nt).map _ = (RuleTable.rules rearranged.table nt).map _
  simp only [abstractions, rearranged, RuleTable.rules]
  split <;> rfl

/-- A scope with one variable, under some id. -/
def oneVariable (id lowest : Int) : Scope Float := ⟨[abstractions.variableRule "EXPR" 0 id], lowest⟩

/-- An abstraction over its own variable, generated in both grammars from other ids. -/
def twoRuns : Option (Node Float × Node Float) := do
  let t ← (abstractions.generateIn "EXPR" 1 (oneVariable (-1) (-1)) [⟨0.1, 0.1⟩, ⟨0.9, 0.9⟩]).result.toOption
  let t' ← (rearranged.generateIn "EXPR" 1 (oneVariable (-4) (-6)) [⟨0.1, 0.1⟩, ⟨0.9, 0.9⟩]).result.toOption
  return (t, t')

theorem ids_twoRuns : twoRuns.map (fun run => (run.1.ruleIds, run.2.ruleIds)) = some ([0, -2, -2], [0, -7, -7]) := by
  decide +kernel

/-- The ids in the two trees differ, and so do those in the proposals that are made for them. -/
theorem rearranged_ids_irrelevant : ∃ t t' : Node Float,
    (abstractions.generateIn "EXPR" 1 (oneVariable (-1) (-1)) [⟨0.1, 0.1⟩, ⟨0.9, 0.9⟩]).result = .ok t ∧
    (rearranged.generateIn "EXPR" 1 (oneVariable (-4) (-6)) [⟨0.1, 0.1⟩, ⟨0.9, 0.9⟩]).result = .ok t' ∧
    t.ruleIds = [0, -2, -2] ∧ t'.ruleIds = [0, -7, -7] ∧ t.withoutIds = t'.withoutIds ∧
    (abstractions.enumerate "EXPR" 1).map (fun trees => (trees ()).toList.map Node.withoutIds) =
      (rearranged.enumerate "EXPR" 1).map (fun trees => (trees ()).toList.map Node.withoutIds) ∧
    (abstractions.propose t NodeTest.all [⟨0.75, 0.75⟩, ⟨0.5, 0.5⟩]).1.map Proposal.withoutIds =
      (rearranged.propose t' NodeTest.all [⟨0.75, 0.75⟩, ⟨0.5, 0.5⟩]).1.map Proposal.withoutIds := by
  obtain ⟨⟨t, t'⟩, hrun, hids⟩ := Option.map_eq_some_iff.mp ids_twoRuns
  obtain ⟨hid, hid'⟩ := Prod.mk.inj hids
  unfold twoRuns at hrun
  obtain ⟨t₀, ht, hrun⟩ := Option.bind_eq_some_iff.mp hrun
  obtain ⟨t₀', ht', hrun⟩ := Option.bind_eq_some_iff.mp hrun
  cases hrun
  replace ht := eq_ok_of_toOption ht
  replace ht' := eq_ok_of_toOption ht'
  obtain ⟨hgenerate, henumerate, hpropose⟩ :=
    ids_irrelevant built_abstractions built_rearranged agreesUpToIds_rearranged
  have hscopes : (oneVariable (-1) (-1)).withoutIds = (oneVariable (-4) (-6)).withoutIds := rfl
  have hsame := ((hgenerate _ _ 1 [⟨0.1, 0.1⟩, ⟨0.9, 0.9⟩] hscopes).1 "EXPR").1
  rw [ht, ht'] at hsame
  have htrees : t.withoutIds = t'.withoutIds := Except.ok.inj hsame
  exact ⟨t, t', ht, ht', hid, hid', htrees, henumerate "EXPR" 1,
    (hpropose t t' NodeTest.all [⟨0.75, 0.75⟩, ⟨0.5, 0.5⟩] htrees NodeTest.ignoresIds_all).1⟩

end Grammar

end ScopedGrammar

import Mathlib.Data.List.Flatten
import ScopedGrammar.Proofs.Chain
import ScopedGrammar.Proofs.Place

/-!
# The numbering of variables

Generation numbers variables in preorder with the ids that are handed out next (`generateIn_numbered`). A proposal goes
on below every id in the tree, so along a chain the ids of introduced rules stay distinct and negative as long as ids
last: every tree of a run that has introduced `k` variables has its ids between `-k` and `-1` (`Chain.numbered`). As the
rule of a variable is in scope where the variable is used, exactly one ancestor introduced it
(`Chain.variables_scoped`).

- `Node.variableIds` are the ids of the rules that are introduced in a tree;
- `Place.IsBoundOnce` says that the variable at a place has one binder above it.
-/

namespace ScopedGrammar

variable {W : Type}

/-! ## Ids -/

theorem Node.ruleIds_eq (t : Node W) : t.ruleIds = t.labels.flatMap fun l => l.ruleId :: l.variableIds := by
  rw [labels, List.flatMap_map]
  rfl

theorem Node.mem_ruleIds_of_mem_variableIds {t : Node W} {id : Int} (h : id ∈ t.variableIds) : id ∈ t.ruleIds := by
  obtain ⟨n, hn, hid⟩ := List.mem_flatMap.mp h
  exact List.mem_flatMap.mpr ⟨n, hn, List.mem_cons_of_mem _ hid⟩

theorem foldl_min_le : ∀ (ids : List Int) (low : Int), ids.foldl min low ≤ low ∧ ∀ id ∈ ids, ids.foldl min low ≤ id
  | [], low => ⟨le_refl low, by simp⟩
  | i :: ids, low => by
    obtain ⟨hle, hall⟩ := foldl_min_le ids (min low i)
    refine ⟨hle.trans (min_le_left _ _), fun id hid => ?_⟩
    rcases List.mem_cons.mp hid with rfl | hid
    · exact hle.trans (min_le_right _ _)
    · exact hall id hid

theorem foldl_min_mem : ∀ (ids : List Int) (low : Int), ids.foldl min low = low ∨ ids.foldl min low ∈ ids
  | [], _ => .inl rfl
  | i :: ids, low => by
    rw [List.foldl_cons]
    rcases foldl_min_mem ids (min low i) with h | h
    · rw [h]
      rcases min_choice low i with h | h
      · exact .inl h
      · exact .inr (by rw [h]; exact List.mem_cons_self)
    · exact .inr (List.mem_cons_of_mem _ h)

/-- No rule of a tree has an id below the lowest one. -/
theorem Node.lowestRuleId_le {t : Node W} {id : Int} (h : id ∈ t.ruleIds) : t.lowestRuleId ≤ id :=
  (foldl_min_le _ _).2 id h

theorem Node.lowestRuleId_mem (t : Node W) : t.lowestRuleId ∈ t.ruleIds := by
  rcases foldl_min_mem t.ruleIds t.label.ruleId with h | h
  · rw [lowestRuleId, h, Node.ruleIds_eq, Node.labels_eq]
    exact List.mem_cons_self
  · exact h

/-- The rules that are in scope at a node of a tree are introduced in the tree. -/
theorem Node.mem_variableIds_of_scope {t : Node W} {v : Visit W} (hv : v ∈ t.tour true) {r : Rule W}
    (hr : r ∈ v.scope.rules) : r.id ∈ t.variableIds := by
  obtain ⟨hole, hplug, _, _, hscope⟩ := Node.exists_hole_of_mem_tour hv
  replace hscope : v.scope.rules = hole.introduced := hscope
  obtain ⟨l, hl, hr⟩ := hole.mem_before_of_mem_introduced (hscope ▸ hr)
  rw [Node.variableIds_eq, Hole.labels_of_plug hplug]
  exact List.mem_flatMap.mpr ⟨l, List.mem_append_left _ hl, List.mem_map_of_mem hr⟩

namespace Hole

variable {hole : Hole W} {n t : Node W}

/-- The labels around a hole of a tree have ids of that tree. -/
theorem mem_ruleIds_of_around (h : hole.plug n = t.alone) {l : Label W} (hl : l ∈ hole.before ++ hole.after) {id : Int}
    (hid : id ∈ l.ruleId :: l.variableIds) : id ∈ t.ruleIds := by
  rw [Node.ruleIds_eq, labels_of_plug h]
  refine List.mem_flatMap.mpr ⟨l, ?_, hid⟩
  rcases List.mem_append.mp hl with hl | hl
  · exact List.mem_append_left _ hl
  · exact List.mem_append_right _ (List.mem_append_right _ hl)

/-- The ids in a plugged tree are those of what is plugged, between those around the hole. -/
theorem variableIds_of_plug (h : hole.plug n = t.alone) : t.variableIds =
    hole.before.flatMap Label.variableIds ++ (n.variableIds ++ hole.after.flatMap Label.variableIds) := by
  rw [Node.variableIds_eq, labels_of_plug h, List.flatMap_append, List.flatMap_append, ← Node.variableIds_eq]

/-- The nodes of a plugged tree that are not plugged have the labels around the hole. -/
theorem label_mem_around (h : hole.plug n = t.alone) {m : Node W}
    (hm : m ∈ t.nodes.take hole.index ++ t.nodes.drop (hole.index + n.size)) :
    m.label ∈ hole.before ++ hole.after := by
  rcases List.mem_append.mp hm with hm | hm
  · have hmem := List.mem_map_of_mem (f := (·.label)) hm
    rw [List.map_take] at hmem
    exact List.mem_append_left _ (take_labels h ▸ hmem)
  · have hmem := List.mem_map_of_mem (f := (·.label)) hm
    rw [List.map_drop] at hmem
    exact List.mem_append_right _ (drop_labels h ▸ hmem)

end Hole

namespace Grammar

/-! ## Generation -/

open Generator

section

variable {g : Grammar W} {bound : List (Rule W)} {depth : Nat}

/-- What is generated for a right-hand side is numbered on, if what is generated for its nonterminals is. -/
theorem fill_numbered {expandSymbol : String → Generator W (Node W)}
    (hexp : ∀ s n supply supply', (expandSymbol s).Gives supply n supply' →
      HandsOut supply.lowest n.variableIds supply'.lowest) {items : Items} :
    ∀ {forest : Forest W} {supply supply' : Supply W}, (g.fill bound expandSymbol items).Gives supply forest supply' →
      HandsOut supply.lowest (forest.labels.flatMap Label.variableIds) supply'.lowest := by
  induction items with
  | nil =>
    intro forest supply supply' h
    obtain ⟨rfl, rfl⟩ := gives_fill_nil.mp h
    exact handsOut_nil _
  | symbol s rest ih =>
    intro forest supply supply' h
    cases hs : g.isNonterminalIn bound s with
    | true =>
      obtain ⟨n, mid, more, hn, hm, rfl⟩ := (gives_fill_nonterminal hs).mp h
      have hown := hexp s n _ _ hn
      rw [Node.variableIds_eq, Node.labels_eq, List.flatMap_cons] at hown
      rw [Forest.labels_node, List.flatMap_cons, List.flatMap_append, ← List.append_assoc]
      exact hown.append (ih hm)
    | false =>
      obtain ⟨more, hm, rfl⟩ := (gives_fill_terminal hs).mp h
      show HandsOut _ (more.labels.flatMap Label.variableIds) _
      exact ih hm
  | seq inside rest ihi ihr =>
    intro forest supply supply' h
    obtain ⟨below, mid, more, hb, hm, rfl⟩ := gives_fill_seq.mp h
    rw [Forest.labels_seq, List.flatMap_append]
    exact (ihi hb).append (ihr hm)

variable [Arith W]

/-- What is generated from a nonterminal is numbered on. The induction is on the fuel, which bounds the height. -/
theorem expand_numbered {fuel : Nat} : ∀ {bound : List (Rule W)} {s : String} {depth : Nat}
    {supply supply' : Supply W} {n : Node W}, (g.expand fuel bound s depth).Gives supply n supply' →
      HandsOut supply.lowest n.variableIds supply'.lowest := by
  induction fuel with
  | zero =>
    intro bound s depth supply supply' n h
    obtain ⟨fuel', _, _, _, _, hf, _⟩ := gives_expand h
    cases hf
  | succ fuel ih =>
    intro bound s depth supply supply' n h
    obtain ⟨fuel', r, lp, children, mid, hf, _, hdraw, hfill, rfl⟩ := gives_expand h
    cases hf
    obtain ⟨_, _, _, _, hmid, _⟩ := gives_drawRule hdraw
    have hown : HandsOut mid.lowest ((g.variableRules (depth + 1) r.binds mid.lowest).map (·.id))
        (lowestAfter mid.lowest r.binds.length) := by
      rw [map_id_variableRules]
      exact handsOut_countdown _ _
    have hbelow := fill_numbered (fun _ _ _ _ hn => ih hn) hfill
    rw [Node.variableIds_eq, Node.labels_eq, List.flatMap_cons, ← hmid]
    exact hown.append hbelow

/-- **Generation numbers variables in preorder, with the ids that come next in its scope.** -/
theorem generateIn_numbered {s : String} {scope : Scope W} {draws : List (Draw W)} {n : Node W}
    (h : (g.generateIn s depth scope draws).result = .ok n) :
    HandsOut scope.lowest n.variableIds (g.generateIn s depth scope draws).scope.lowest :=
  expand_numbered (gives_of_generateIn h)

/-! ## Chains -/

variable {start : String} {k : Nat} {t : Node W}

omit [Arith W] in
/-- A proposal goes on below the ids of the whole tree, wherever the selected node stands in it. -/
theorem lowest_siteScope {v : Visit W} (hv : v ∈ t.tour true) : (siteScope t v).lowest = min 0 t.lowestRuleId := by
  have hle := Node.lowest_nonpos_of_mem_tour hv
  have hids : ∀ r ∈ t.alone.labels.flatMap (Label.bound true), min 0 t.lowestRuleId ≤ r.id := by
    intro r hr
    obtain ⟨l, hl, hr⟩ := List.mem_flatMap.mp hr
    rw [Node.labels_alone] at hl
    refine (min_le_right _ _).trans (Node.lowestRuleId_le ?_)
    rw [Node.ruleIds_eq]
    exact List.mem_flatMap.mpr ⟨l, hl, List.mem_cons_of_mem _ (List.mem_map_of_mem hr)⟩
  have hge : min 0 t.lowestRuleId ≤ v.scope.lowest := Forest.le_lowest_of_mem_tour (min_le_left _ _) hids hv
  show min v.scope.lowest t.lowestRuleId = _
  omega

/-- The id of a node in a derivation is that of a rule of the grammar, or of a rule that the tree introduces. -/
theorem DerivesNode.mem_ruleIds (hg : g.WellStored) (ht : g.DerivesNode [] 0 start t) {id : Int} (hid : id ∈ t.ruleIds) :
    0 ≤ id ∨ id ∈ t.variableIds := by
  obtain ⟨n, hn, hid⟩ := List.mem_flatMap.mp hid
  rcases List.mem_cons.mp hid with rfl | hid
  · rw [← t.map_node_tour true] at hn
    obtain ⟨v, hv, rfl⟩ := List.mem_map.mp hn
    obtain ⟨s, ⟨r, hr, _⟩, _⟩ := ht.exists_records hg hv
    rw [hr.ruleId]
    rcases List.mem_append.mp hr.visible with hm | hm
    · exact .inl (hg.nonneg r (hg.mem_allRules hm))
    · exact .inr (Node.mem_variableIds_of_scope hv (List.mem_filter.mp hm).1)
  · exact .inr (List.mem_flatMap.mpr ⟨n, hn, hid⟩)

/-- The ids of a tree start where those of its variables do, or from zero. -/
theorem DerivesNode.le_lowestRuleId (hg : g.WellStored) (ht : g.DerivesNode [] 0 start t)
    (hids : ∀ id ∈ t.variableIds, -(k : Int) ≤ id) : -(k : Int) ≤ min 0 t.lowestRuleId := by
  rcases ht.mem_ruleIds hg t.lowestRuleId_mem with hlow | hlow
  · omega
  · have := hids _ hlow
    omega

section

variable {S : Type} {test : StatefulTest W S} {state : S} {draws left : List (Draw W)} {p : Proposal W} {v : Visit W}
  {hole : Hole W} {n : Node W}

/-- A new node goes on below all ids of the tree that it was made for. -/
theorem Regenerates.handsOut (hp : g.Regenerates t test state draws p v hole left n) :
    HandsOut (min 0 t.lowestRuleId) n.variableIds
      (g.generateIn v.node.label.nonterminal v.node.label.depth (siteScope t v) left).scope.lowest := by
  rw [← lowest_siteScope hp.visited]
  exact generateIn_numbered hp.made

/-- The variables of a new node are new to the tree, as long as ids last. If they did not, then all ids down to the least
one would be new, and so would be the greatest id, as the ids in the tree are negative. These are too many. -/
theorem Regenerates.length_variableIds_le (hg : g.WellStored) (ht : g.DerivesNode [] 0 start t)
    (hids : ∀ id ∈ t.variableIds, -(k : Int) ≤ id ∧ id < 0) (hp : g.Regenerates t test state draws p v hole left n)
    (hk : k + (p.tree.newVariableIds t).length ≤ 2 ^ 63) :
    n.variableIds.length ≤ (p.tree.newVariableIds t).length := by
  have hlow := ht.le_lowestRuleId hg fun id hid => (hids id hid).1
  have hleast : leastId ≤ min 0 t.lowestRuleId := by
    unfold leastId
    omega
  -- as many as there is room for, and one more
  have hnew : ∀ j ≤ n.variableIds.length, leastId + j ≤ min 0 t.lowestRuleId + 1 →
      j ≤ (p.tree.newVariableIds t).length := by
    intro j hj hroom
    have htake : n.variableIds.take j = countdown (min 0 t.lowestRuleId) j := by
      rw [hp.handsOut.1, take_countdown _ hj]
    have hsub : (n.variableIds.take j).Sublist p.tree.variableIds := by
      rw [Hole.variableIds_of_plug hp.new]
      exact ((List.take_sublist _ _).trans (List.sublist_append_left _ _)).trans (List.sublist_append_right _ _)
    have hfresh : ∀ id ∈ n.variableIds.take j, id ∉ t.variableIds := by
      intro id hid hin
      rw [htake] at hid
      rcases lt_or_eq_of_mem_countdown hleast hroom hid with hlt | rfl
      · exact absurd (Node.lowestRuleId_le (Node.mem_ruleIds_of_mem_variableIds hin)) (by omega)
      · exact absurd (hids _ hin).2 (by decide)
    have hfilter : (n.variableIds.take j).filter (· ∉ t.variableIds) = n.variableIds.take j :=
      List.filter_eq_self.mpr fun id hid => decide_eq_true (hfresh id hid)
    calc j = (n.variableIds.take j).length := by rw [htake, length_countdown]
      _ = ((n.variableIds.take j).filter (· ∉ t.variableIds)).length := by rw [hfilter]
      _ ≤ (p.tree.newVariableIds t).length := (hsub.filter _).length_le
  by_contra hlong
  have hmany := hnew (p.tree.newVariableIds t).length.succ (by omega) (by unfold leastId; omega)
  omega

/-- A new node numbers its variables below all ids of the tree that it was made for, as long as ids last. -/
theorem Regenerates.numbered (hg : g.WellStored) (ht : g.DerivesNode [] 0 start t)
    (hids : ∀ id ∈ t.variableIds, -(k : Int) ≤ id ∧ id < 0) (hp : g.Regenerates t test state draws p v hole left n)
    (hk : k + (p.tree.newVariableIds t).length ≤ 2 ^ 63) :
    n.variableIds.Nodup ∧ ∀ id ∈ n.variableIds,
      -((k + (p.tree.newVariableIds t).length : Nat) : Int) ≤ id ∧ id < 0 ∧ id < t.lowestRuleId := by
  have hlow := ht.le_lowestRuleId hg fun id hid => (hids id hid).1
  have hlength := hp.length_variableIds_le hg ht hids hk
  have hroom : leastId + n.variableIds.length ≤ min 0 t.lowestRuleId := by
    unfold leastId
    omega
  rw [(hp.handsOut.eq_numbersBelow hroom).1]
  refine ⟨nodup_numbersBelow _ _, fun id hid => ?_⟩
  have hbetween := mem_numbersBelow.mp hid
  omega

end

/-- **Along a chain the ids of introduced rules are negative and distinct, as long as ids last.** -/
theorem Chain.numbered (hg : g.WellStored) (ht : g.Chain start k t) (hk : k ≤ 2 ^ 63) :
    t.variableIds.Nodup ∧ ∀ id ∈ t.variableIds, -(k : Int) ≤ id ∧ id < 0 := by
  induction ht with
  | @generate draws t h =>
    have hroom : leastId + t.variableIds.length ≤ 0 := by
      unfold leastId
      omega
    obtain ⟨hids, -⟩ := (generateIn_numbered h).eq_numbersBelow hroom
    refine ⟨by rw [hids]; exact nodup_numbersBelow _ _, fun id hid => ?_⟩
    rw [hids] at hid
    have hbetween : (0 : Int) - t.variableIds.length ≤ id ∧ id < 0 := mem_numbersBelow.mp hid
    omega
  | @propose S k t test state draws p ht h ih =>
    obtain ⟨v, hole, left, n, hp⟩ := exists_regenerates h
    obtain ⟨hnodup, hids⟩ := ih (by omega)
    obtain ⟨hn, hnew⟩ := hp.numbered hg (ht.derives hg) hids hk
    have hkept : (hole.before.flatMap Label.variableIds ++ hole.after.flatMap Label.variableIds).Sublist
        t.variableIds := by
      rw [Hole.variableIds_of_plug hp.old]
      exact (List.Sublist.refl _).append (List.sublist_append_right _ _)
    have hbelow : ∀ id ∈ n.variableIds,
        ∀ id' ∈ hole.before.flatMap Label.variableIds ++ hole.after.flatMap Label.variableIds, id < id' := by
      intro id hid id' hid'
      rw [← List.flatMap_append] at hid'
      obtain ⟨l, hl, hid'⟩ := List.mem_flatMap.mp hid'
      have hmem := Hole.mem_ruleIds_of_around hp.old hl (List.mem_cons_of_mem _ hid')
      exact (hnew id hid).2.2.trans_le (Node.lowestRuleId_le hmem)
    have hperm := List.perm_append_comm_assoc (hole.before.flatMap Label.variableIds) n.variableIds
      (hole.after.flatMap Label.variableIds)
    rw [← Hole.variableIds_of_plug hp.new] at hperm
    refine ⟨hperm.nodup_iff.mpr (List.nodup_append.mpr ⟨hn, hnodup.sublist hkept, ?_⟩), fun id hid => ?_⟩
    · exact fun id hid id' hid' => (hbelow id hid id' hid').ne
    · rcases List.mem_append.mp (hperm.mem_iff.mp hid) with hid | hid
      · exact ⟨(hnew id hid).1, (hnew id hid).2.1⟩
      · have hold := hids id (hkept.subset hid)
        omega

/-! ## Binders -/

end

end Grammar

/-- Of the ancestors of a place exactly one introduced a rule with the id of the node there. That rule has the
nonterminal and the name of the node. -/
def Place.IsBoundOnce (p : Place W) : Prop :=
  let id := p.node.label.ruleId
  ∃ outer binder inner, p.ancestors = outer ++ binder :: inner ∧ id ∈ binder.label.variableIds ∧
    (∀ r ∈ binder.label.introduced, r.id = id →
      r.nonterminal = p.node.label.nonterminal ∧ r.name = p.node.label.name) ∧
    ∀ a ∈ outer ++ inner, id ∉ a.label.variableIds

/-- A rule that some ancestor introduced, where the ids of a tree are distinct, was introduced by no other. -/
theorem Place.isBoundOnce_of_mem {t : Node W} (ht : t.variableIds.Nodup) {p : Place W} (hp : p ∈ t.places) {r : Rule W}
    (hr : r ∈ p.introduced) (hid : p.node.label.ruleId = r.id) (hnt : p.node.label.nonterminal = r.nonterminal)
    (hname : p.node.label.name = r.name) : p.IsBoundOnce := by
  obtain ⟨binder, hbinder, hr⟩ := List.mem_flatMap.mp hr
  obtain ⟨outer, inner, hsplit⟩ := List.append_of_mem hbinder
  have hdistinct : (p.ancestors.flatMap (·.label.variableIds)).Nodup :=
    ht.sublist ((Node.ancestors_sublist hp).flatMap _)
  rw [hsplit, List.flatMap_append, List.flatMap_cons] at hdistinct
  obtain ⟨_, hrest, houter⟩ := List.nodup_append.mp hdistinct
  obtain ⟨hown, _, hinner⟩ := List.nodup_append.mp hrest
  have hmem : r.id ∈ binder.label.variableIds := List.mem_map_of_mem hr
  refine ⟨outer, binder, inner, hsplit, hid ▸ hmem, fun r' hr' hid' => ?_, fun a ha hin => ?_⟩
  · rw [hnt, hname, List.inj_on_of_nodup_map hown hr' hr (hid'.trans hid)]
    exact ⟨rfl, rfl⟩
  · rw [hid] at hin
    rcases List.mem_append.mp ha with ha | ha
    · exact houter _ (List.mem_flatMap.mpr ⟨a, ha, hin⟩) _ (List.mem_append_left _ hmem) rfl
    · exact hinner _ hmem _ (List.mem_flatMap.mpr ⟨a, ha, hin⟩) rfl

namespace Grammar

variable [Arith W] {g : Grammar W} {start : String} {k : Nat} {t : Node W}

/-- A node with a negative id was made by a rule that is in scope at its place. -/
theorem DerivesNode.exists_introduced (hg : g.WellStored) (ht : g.DerivesNode [] 0 start t) {p : Place W}
    (hp : p ∈ t.places) (hneg : p.node.label.ruleId < 0) : ∃ r ∈ p.introduced,
      p.node.label.ruleId = r.id ∧ p.node.label.nonterminal = r.nonterminal ∧ p.node.label.name = r.name := by
  have hv : p.visit true ∈ t.tour true := by
    rw [Node.tour_eq_places]
    exact List.mem_map_of_mem hp
  obtain ⟨s, ⟨r, hr, _⟩, _⟩ := ht.exists_records hg hv
  refine ⟨r, ?_, hr.ruleId, hr.nonterminal, hr.name⟩
  rcases List.mem_append.mp hr.visible with hm | hm
  · have hnonneg := hg.nonneg r (hg.mem_allRules hm)
    have hid : p.node.label.ruleId = r.id := hr.ruleId
    omega
  · exact (List.mem_filter.mp hm).1

/-- **Bound variables stay in their scope along a chain, and their ids never clash.** All ids of introduced rules are
negative and distinct, and a node with a negative id has one ancestor that introduced it. Where a node is generated
anew, the ids of the rules that it introduces are neither used nor introduced by any node outside it. There are
`2 ^ 63` negative ids, so this holds of all runs that have introduced no more variables than that. -/
theorem Chain.variables_scoped (hg : g.Built) (ht : g.Chain start k t) (hk : k ≤ 2 ^ 63) :
    (∀ id ∈ t.variableIds, id < 0) ∧ t.variableIds.Nodup ∧
      (∀ p ∈ t.places, p.node.label.ruleId < 0 → p.IsBoundOnce) ∧
      ∀ (S : Type) (test : StatefulTest W S) (state : S) (draws : List (Draw W)) (new : Proposal W),
        (g.proposeWith t test state draws).1 = .ok new → k + (new.tree.newVariableIds t).length ≤ 2 ^ 63 →
          ∃ s n, (t.selectWith test state draws).1 = .ok s ∧ t.replaceAt? s.index n = some new.tree ∧
            new.tree.get? s.index = some n ∧
              ∀ id ∈ n.variableIds, ∀ m ∈ new.tree.nodes.take s.index ++ new.tree.nodes.drop (s.index + n.size),
                id ≠ m.label.ruleId ∧ id ∉ m.label.variableIds := by
  obtain ⟨hnodup, hids⟩ := ht.numbered hg.wellStored hk
  have hderives := ht.derives hg.wellStored
  refine ⟨fun id hid => (hids id hid).2, hnodup, fun p hp hbound => ?_, fun S test state draws new h hk' => ?_⟩
  · obtain ⟨r, hr, hid, hnt, hname⟩ := hderives.exists_introduced hg.wellStored hp hbound
    exact Place.isBoundOnce_of_mem hnodup hp hr hid hnt hname
  · obtain ⟨v, hole, left, n, hp⟩ := exists_regenerates h
    obtain ⟨t', hreplace, hplug⟩ := Hole.replaceAt?_eq_some hp.old n
    obtain rfl := Node.alone_injective (hplug.symm.trans hp.new)
    refine ⟨_, n, hp.selected, ?_, ?_, fun id hid m hm => ?_⟩
    · show t.replaceAt? v.index n = some new.tree
      rw [hp.index]
      exact hreplace
    · have hget := hole.getElem?_nodes_plug n
      rwa [hp.new, Node.nodes_alone, ← hp.index] at hget
    · replace hm : m ∈ new.tree.nodes.take hole.index ++ new.tree.nodes.drop (hole.index + n.size) := hp.index ▸ hm
      have hlow := ((hp.numbered hg.wellStored hderives hids hk').2 id hid).2.2
      have hbelow : ∀ id' ∈ m.label.ruleId :: m.label.variableIds, id < id' := fun id' hid' =>
        hlow.trans_le (Node.lowestRuleId_le
          (Hole.mem_ruleIds_of_around hp.old (Hole.label_mem_around hp.new hm) hid'))
      exact ⟨(hbelow _ List.mem_cons_self).ne, fun hin => lt_irrefl _ (hbelow _ (List.mem_cons_of_mem _ hin))⟩

/-- A variable below its binder is generated anew, and becomes another binder with that variable below it. -/
def nestedRun : Option (Node Float × Proposal Float) := do
  let t ← (abstractions.generate "EXPR" [⟨0.25, 0.25⟩, ⟨0.75, 0.75⟩]).result.toOption
  let new ← (abstractions.proposeWith t everyOther false [⟨0.25, 0.25⟩, ⟨0.1, 0.1⟩, ⟨0.5, 0.5⟩]).1.toOption
  return (t, new)

theorem ids_nestedRun : nestedRun.map (fun run => (run.1.nodes.map (·.label.ruleId), run.1.variableIds,
    run.2.tree.variableIds)) = some ([0, -1], [-1], [-1, -2]) := by
  decide +kernel

theorem nestedRun_scoped : ∃ k t new s n, k ≤ 2 ^ 63 ∧ k + (new.tree.newVariableIds t).length ≤ 2 ^ 63 ∧
    abstractions.Chain "EXPR" k t ∧
    (abstractions.proposeWith t everyOther false [⟨0.25, 0.25⟩, ⟨0.1, 0.1⟩, ⟨0.5, 0.5⟩]).1 = .ok new ∧
    t.nodes.map (·.label.ruleId) = [0, -1] ∧ new.tree.variableIds = [-1, -2] ∧
    (∀ id ∈ t.variableIds, id < 0) ∧ t.variableIds.Nodup ∧
    (∀ p ∈ t.places, p.node.label.ruleId < 0 → p.IsBoundOnce) ∧
    (t.selectWith everyOther false [⟨0.25, 0.25⟩, ⟨0.1, 0.1⟩, ⟨0.5, 0.5⟩]).1 = .ok s ∧
    t.replaceAt? s.index n = some new.tree ∧ new.tree.get? s.index = some n ∧
    ∀ id ∈ n.variableIds, ∀ m ∈ new.tree.nodes.take s.index ++ new.tree.nodes.drop (s.index + n.size),
      id ≠ m.label.ruleId ∧ id ∉ m.label.variableIds := by
  obtain ⟨⟨t, new⟩, hrun, hids⟩ := Option.map_eq_some_iff.mp ids_nestedRun
  obtain ⟨hid, hids⟩ := Prod.mk.inj hids
  obtain ⟨hone, htwo⟩ := Prod.mk.inj hids
  unfold nestedRun at hrun
  obtain ⟨t', ht, hrun⟩ := Option.bind_eq_some_iff.mp hrun
  obtain ⟨new', hp, hrun⟩ := Option.bind_eq_some_iff.mp hrun
  cases hrun
  have hchain : abstractions.Chain "EXPR" t.variableIds.length t := .generate (eq_ok_of_toOption ht)
  have hok := eq_ok_of_toOption hp
  have hk : t.variableIds.length ≤ 2 ^ 63 := by
    rw [hone]
    decide
  have hk' : t.variableIds.length + (new.tree.newVariableIds t).length ≤ 2 ^ 63 := by
    rw [Node.newVariableIds, hone, htwo]
    decide
  obtain ⟨hneg, hnodup, hbound, hpropose⟩ := Chain.variables_scoped built_abstractions hchain hk
  obtain ⟨s, n, hs⟩ := hpropose _ _ _ _ _ hok hk'
  exact ⟨_, t, new, s, n, hk, hk', hchain, hok, hid, htwo, hneg, hnodup, hbound, hs⟩

end Grammar

end ScopedGrammar

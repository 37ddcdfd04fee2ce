import ScopedGrammar.Proofs.Drawing
import ScopedGrammar.Proofs.Enumeration
import ScopedGrammar.Proofs.Preorder
import ScopedGrammar.Proofs.Restoration

/-!
# Terminal items

Whether an item is terminal is decided in three places: by looking through its symbols (`Grammar.isTerminalIn`), symbol
by symbol while a child is generated for it, and once more where children are enumerated for it
(`Grammar.enumerateItem`, one wheel of an odometer by `Grammar.choices_eq_map`). They agree
(`Grammar.isTerminalIn_agrees`): a terminal item stands for itself, with every symbol a leaf (`Item.asLeaf`), and costs
no draw; whatever stands for another item has a node.
-/

namespace ScopedGrammar

variable {W : Type}

/-- An item as it stands, with every symbol a leaf. -/
def Item.asLeaf : Item → Child W
  | .symbol s => .leaf s
  | .seq inside => .seq inside.asLeaves

theorem Items.nodes_asLeaves : ∀ items : Items, (items.asLeaves : Forest W).nodes = []
  | .nil => rfl
  | .symbol _ rest => nodes_asLeaves rest
  | .seq inside rest => by rw [asLeaves, Forest.nodes, nodes_asLeaves inside, nodes_asLeaves rest, List.append_nil]

theorem Item.nodes_asLeaf : ∀ item : Item, (item.asLeaf : Child W).nodes = []
  | .symbol _ => rfl
  | .seq inside => inside.nodes_asLeaves

namespace Grammar

variable {g : Grammar W} {bound : List (Rule W)}

/-- A sequence is terminal exactly if every item in it is. -/
theorem isTerminalIn_seq (g : Grammar W) (bound : List (Rule W)) (inside : Items) :
    g.isTerminalIn bound (.seq inside) = inside.toList.all (g.isTerminalIn bound) := by
  show (inside.symbols.all fun s => !g.isNonterminalIn bound s) = _
  induction inside with
  | nil => rfl
  | symbol s rest ih =>
    rw [Items.symbols, Items.toList, List.all_cons, List.all_cons, ih]
    simp [isTerminalIn, Item.symbols]
  | seq inside rest ihi ihr =>
    rw [Items.symbols, Items.toList, List.all_append, List.all_cons, ihr]
    rfl

/-! ## Generation -/

section

variable {expandSymbol : String → Generator W (Node W)}

/-- Nothing is done for terminals. -/
theorem fill_terminals : ∀ {items : Items}, (items.symbols.all fun s => !g.isNonterminalIn bound s) = true →
    g.fill bound expandSymbol items = pure items.asLeaves
  | .nil, _ => rfl
  | .symbol s rest, h => by
    simp only [Items.symbols, List.all_cons, Bool.and_eq_true, Bool.not_eq_true'] at h
    rw [fill, if_neg (by simp [h.1]), fill_terminals h.2]
    rfl
  | .seq inside rest, h => by
    simp only [Items.symbols, List.all_append, Bool.and_eq_true] at h
    rw [fill, fill_terminals h.1, fill_terminals h.2]
    rfl

theorem fillItem_terminal : ∀ {item : Item}, g.isTerminalIn bound item = true →
    g.fillItem bound expandSymbol item = pure item.asLeaf
  | .symbol s, h => by
    simp only [isTerminalIn, Item.symbols, List.all_cons, Bool.and_eq_true, Bool.not_eq_true'] at h
    rw [fillItem, if_neg (by simp [h.1])]
    rfl
  | .seq inside, h => by
    rw [fillItem, fill_terminals h]
    rfl

/-- A right-hand side with a nonterminal somewhere is filled with a node. -/
theorem nodes_ne_nil_of_fill {items : Items} (hnot : (items.symbols.all fun s => !g.isNonterminalIn bound s) = false) :
    ∀ {forest : Forest W} {supply supply' : Supply W},
      (g.fill bound expandSymbol items).Gives supply forest supply' → forest.nodes ≠ [] := by
  induction items with
  | nil => cases hnot
  | symbol s rest ih =>
    intro forest supply supply' h
    rw [Items.symbols, List.all_cons] at hnot
    cases hs : g.isNonterminalIn bound s with
    | true =>
      obtain ⟨n, mid, more, _, _, rfl⟩ := (gives_fill_nonterminal hs).mp h
      exact List.cons_ne_nil _ _
    | false =>
      obtain ⟨more, hm, rfl⟩ := (gives_fill_terminal hs).mp h
      rw [hs] at hnot
      have hmore : more.nodes ≠ [] := ih hnot hm
      exact hmore
  | seq inside rest ihi ihr =>
    intro forest supply supply' h
    obtain ⟨below, mid, more, hb, hm, rfl⟩ := gives_fill_seq.mp h
    rw [Items.symbols, List.all_append] at hnot
    rcases Bool.and_eq_false_iff.mp hnot with hnot | hnot
    · exact List.append_ne_nil_of_left_ne_nil (ihi hnot hb) _
    · exact List.append_ne_nil_of_right_ne_nil _ (ihr hnot hm)

end

variable [Arith W] {depth : Nat} {scope : Scope W} {draws : List (Draw W)} {item : Item}

/-- A terminal item is generated without a draw, and the scope is left alone. -/
theorem generateItem_terminal (h : g.isTerminalIn scope.rules item = true) (depth : Nat) (draws : List (Draw W)) :
    g.generateItem item depth scope draws = ⟨.ok item.asLeaf, scope, draws⟩ := by
  rw [generateItem_eq, fillItem_terminal h]
  rfl

/-- A child costs a draw for each of its nodes. -/
theorem generateItem_draws (hg : g.WellStored) {child : Child W}
    (h : (g.generateItem item depth scope draws).result = .ok child) : ∃ used,
      draws = used ++ (g.generateItem item depth scope draws).draws ∧ used.length = child.nodes.length := by
  have hgives := gives_of_generateItem h
  have hbase : scope.rules = scope.rules ++ ([] : List (Node W)).flatMap (·.label.introduced) :=
    (List.append_nil _).symm
  have hroot : depth = depth + ([] : List (Node W)).length := rfl
  cases item with
  | symbol s =>
    cases hs : g.isNonterminalIn scope.rules s with
    | true =>
      obtain ⟨n, hn, rfl⟩ := (gives_fillItem_nonterminal hs).mp hgives
      obtain ⟨used, hused, hpicks⟩ := expand_picks hg hbase hroot hn []
      refine ⟨used, hused, ?_⟩
      rw [hpicks.length_eq, ← Node.places_eq, n.length_places]
      rfl
    | false =>
      obtain ⟨rfl, hleft⟩ := (gives_fillItem_terminal hs).mp hgives
      exact ⟨[], (congrArg Supply.draws hleft).symm, rfl⟩
  | seq inside =>
    obtain ⟨forest, hforest, rfl⟩ := gives_fillItem_seq.mp hgives
    obtain ⟨used, hused, hpicks⟩ := fill_picks (fun _ _ _ _ hn => expand_picks hg hbase hroot hn) [] hforest
    refine ⟨used, hused, ?_⟩
    rw [hpicks.length_eq, Child.nodes, ← forest.map_node_places [] [], List.length_map]

/-- The child of an item that is not terminal has a node. -/
theorem nodes_ne_nil_of_generateItem (h : g.isTerminalIn scope.rules item = false) {child : Child W}
    (hchild : (g.generateItem item depth scope draws).result = .ok child) : child.nodes ≠ [] := by
  have hgives := gives_of_generateItem hchild
  cases item with
  | symbol s =>
    have hs : g.isNonterminalIn scope.rules s = true := by simpa [isTerminalIn, Item.symbols] using h
    obtain ⟨n, _, rfl⟩ := (gives_fillItem_nonterminal hs).mp hgives
    exact List.cons_ne_nil _ _
  | seq inside =>
    obtain ⟨forest, hforest, rfl⟩ := gives_fillItem_seq.mp hgives
    exact nodes_ne_nil_of_fill h hforest

/-! ## Enumeration -/

/-- What can stand in the place of an item at a level, with nonterminals nested as deep as the budget. -/
def enumerateItem (g : Grammar W) (budget level : Nat) : Item → LazyList (Child W)
  | .symbol s => if g.isNonterminal s then (g.treesFrom budget level s).map .node else .cons (.leaf s) fun _ => .nil
  | .seq inside =>
    (Odometer.start (g.choices (g.treesFrom budget level) inside)).rows.map fun row => .seq (Forest.ofList row)

/-- The odometer of a right-hand side has one wheel for each item. -/
theorem choices_eq_map (g : Grammar W) (budget level : Nat) (items : Items) :
    g.choices (g.treesFrom budget level) items = items.toList.map fun item _ => g.enumerateItem budget level item := by
  induction items with
  | nil => rfl
  | symbol s rest ih => rw [choices, Items.toList, List.map_cons, ih]; rfl
  | seq inside rest _ ih => rw [choices, Items.toList, List.map_cons, ih]; rfl

theorem toList_enumerateItem_seq (budget level : Nat) (inside : Items) :
    (g.enumerateItem budget level (.seq inside)).toList =
      (g.fillings (g.trees budget level) inside).toList.map .seq := by
  rw [enumerateItem, LazyList.toList_map, toList_fillings, treesFrom_eq, List.map_map]
  rfl

omit [Arith W] in
/-- Without nonterminals there is one filling, the items as they stand. -/
theorem toList_fillings_terminals {expansions : String → LazyList (Node W)} : ∀ {items : Items},
    (items.symbols.all fun s => !g.isNonterminal s) = true → (g.fillings expansions items).toList = [items.asLeaves]
  | .nil, _ => rfl
  | .symbol s rest, h => by
    simp only [Items.symbols, List.all_cons, Bool.and_eq_true, Bool.not_eq_true'] at h
    rw [fillings, if_neg (by simp [h.1]), LazyList.toList_map, toList_fillings_terminals h.2]
    rfl
  | .seq inside rest, h => by
    simp only [Items.symbols, List.all_append, Bool.and_eq_true] at h
    rw [fillings, LazyList.toList_combine, toList_fillings_terminals h.1, toList_fillings_terminals h.2]
    rfl

/-- An unfolding of a right-hand side with a nonterminal has a node. -/
theorem Unfolds.nodes_ne_nil {level : Nat} {items : Items} {forest : Forest W} (h : g.Unfolds level items forest)
    (hnot : (items.symbols.all fun s => !g.isNonterminal s) = false) : forest.nodes ≠ [] := by
  have hpos : 0 < forest.height := by
    refine Nat.pos_of_ne_zero fun hzero => ?_
    rw [h.all_terminal hzero] at hnot
    cases hnot
  obtain ⟨p, hp, -⟩ := forest.exists_place_of_height hpos [] []
  exact List.ne_nil_of_mem (forest.map_node_places [] [] ▸ List.mem_map_of_mem hp)

omit [Arith W] in
theorem isTerminalIn_nil (g : Grammar W) (item : Item) :
    g.isTerminalIn [] item = item.symbols.all fun s => !g.isNonterminal s := by
  simp only [isTerminalIn, isNonterminalIn_nil]

/-- A terminal item is enumerated as it stands. -/
theorem toList_enumerateItem_terminal (h : g.isTerminalIn [] item = true) (budget level : Nat) :
    (g.enumerateItem budget level item).toList = [item.asLeaf] := by
  rw [isTerminalIn_nil] at h
  cases item with
  | symbol s =>
    have hs : g.isNonterminal s = false := by simpa [Item.symbols] using h
    rw [enumerateItem, if_neg (by simp [hs])]
    rfl
  | seq inside =>
    rw [toList_enumerateItem_seq, toList_fillings_terminals h]
    rfl

/-- Every child that is enumerated for another item has a node. -/
theorem nodes_ne_nil_of_mem_enumerateItem (h : g.isTerminalIn [] item = false) {budget level : Nat} {child : Child W}
    (hchild : child ∈ (g.enumerateItem budget level item).toList) : child.nodes ≠ [] := by
  rw [isTerminalIn_nil] at h
  cases item with
  | symbol s =>
    have hs : g.isNonterminal s = true := by simpa [Item.symbols] using h
    rw [enumerateItem, if_pos hs, LazyList.toList_map] at hchild
    obtain ⟨t, _, rfl⟩ := List.mem_map.mp hchild
    exact List.cons_ne_nil _ _
  | seq inside =>
    rw [toList_enumerateItem_seq] at hchild
    obtain ⟨forest, hforest, rfl⟩ := List.mem_map.mp hchild
    exact ((mem_fillings_iff fun _ _ => mem_trees_iff).mp hforest).1.nodes_ne_nil h

/-! ## Agreement -/

/-- **What is terminal is left as it stands, by generation and by enumeration alike.** A terminal item stands for itself
and has no node. It is generated without a draw, in the same scope. For another item generation uses a draw at least,
and gives a node. Where no variable is bound, the children that are enumerated for a terminal item are the item alone,
and each of those that are enumerated for another one has a node. -/
theorem isTerminalIn_agrees (hg : g.Built) (item : Item) :
    (item.asLeaf : Child W).nodes = [] ∧
    (∀ depth scope draws, g.isTerminalIn scope.rules item = true →
      g.generateItem item depth scope draws = ⟨.ok item.asLeaf, scope, draws⟩) ∧
    (∀ depth scope draws child, g.isTerminalIn scope.rules item = false →
      (g.generateItem item depth scope draws).result = .ok child → child.nodes ≠ [] ∧
        ∃ used, used ≠ [] ∧ draws = used ++ (g.generateItem item depth scope draws).draws) ∧
    (∀ budget level, g.isTerminalIn [] item = true → (g.enumerateItem budget level item).toList = [item.asLeaf]) ∧
    ∀ budget level, g.isTerminalIn [] item = false →
      ∀ child ∈ (g.enumerateItem budget level item).toList, child.nodes ≠ [] := by
  refine ⟨item.nodes_asLeaf, fun depth scope draws h => generateItem_terminal h depth draws,
    fun depth scope draws child h hchild => ?_, fun budget level h => toList_enumerateItem_terminal h budget level,
    fun budget level h child hchild => nodes_ne_nil_of_mem_enumerateItem h hchild⟩
  have hnodes := nodes_ne_nil_of_generateItem h hchild
  obtain ⟨used, hused, hlength⟩ := generateItem_draws hg.wellStored hchild
  refine ⟨hnodes, used, fun hnil => hnodes (List.length_eq_zero_iff.mp ?_), hused⟩
  rw [← hlength, hnil, List.length_nil]

/-- An empty sequence and a symbol that has no rules, but may be bound. -/
def bindable : Item := .seq (.seq .nil (.symbol "VAR" .nil))

/-- A nonterminal in a sequence. -/
def wrapped : Item := .seq (.symbol "+" (.seq (.symbol "EXPR" .nil) .nil))

theorem sums_isTerminalIn_agrees : ∃ scope : Scope Float, scope = sums.bindVariable Scope.empty "VAR" 1 ∧
    sums.isTerminalIn [] bindable = true ∧ sums.isTerminalIn scope.rules bindable = false ∧
    sums.generateItem bindable 1 Scope.empty [] = ⟨.ok bindable.asLeaf, Scope.empty, []⟩ ∧
    (∃ child, (sums.generateItem bindable 1 scope [⟨0.5, 0.5⟩]).result = .ok child ∧ child.nodes ≠ [] ∧
      ∃ used, used ≠ [] ∧ [⟨0.5, 0.5⟩] = used ++ (sums.generateItem bindable 1 scope [⟨0.5, 0.5⟩]).draws) ∧
    (sums.enumerateItem 2 0 bindable).toList = [bindable.asLeaf] ∧ sums.isTerminalIn [] wrapped = false ∧
    (sums.enumerateItem 2 0 wrapped).toList.length = 5 ∧
    ∀ child ∈ (sums.enumerateItem 2 0 wrapped).toList, child.nodes ≠ [] := by
  have hok : (sums.generateItem bindable 1 (sums.bindVariable Scope.empty "VAR" 1)
      [⟨0.5, 0.5⟩]).result.toOption.isSome = true := by
    decide +kernel
  obtain ⟨child, hsome⟩ := Option.isSome_iff_exists.mp hok
  have hchild := eq_ok_of_toOption hsome
  obtain ⟨-, hterminal, hnonterminal, halone, -⟩ := isTerminalIn_agrees built_sums bindable
  obtain ⟨-, -, -, -, hnodes⟩ := isTerminalIn_agrees built_sums wrapped
  refine ⟨_, rfl, rfl, rfl, hterminal 1 Scope.empty [] rfl, ⟨child, hchild, ?_⟩, halone 2 0 rfl, rfl, ?_,
    hnodes 2 0 rfl⟩
  · exact hnonterminal 1 _ _ child rfl hchild
  · decide +kernel

end Grammar

end ScopedGrammar

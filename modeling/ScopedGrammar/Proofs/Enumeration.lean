import Mathlib.Data.List.Nodup
import ScopedGrammar.Proofs.Combination
import ScopedGrammar.Proofs.Derivation
import ScopedGrammar.Proofs.Reachability

/-!
# Enumeration is the bounded part of generation

A tree unfolds a nonterminal (`UnfoldsNode`) if a permanent rule is chosen for every occurrence of a nonterminal, and
every node keeps the share of its rule in all permanent rules of the nonterminal.

- `mem_trees_iff`: the trees that are enumerated are the unfoldings of bounded height;
- `nodup_trees`: none is enumerated twice;
- `Derives.unfolds`: where no reachable rule binds variables, derivations are unfoldings;
- `enumerate_exact` joins these, for trees that are generated as well.
-/

namespace ScopedGrammar

variable {W : Type} [Arith W]

/-! ## Combinations -/

/-- Combinations of distinct elements are distinct, if the elements can be told from the combination. -/
theorem LazyList.nodup_combine {α β γ : Type} {f : α → β → γ} (hf : ∀ a b a' b', f a b = f a' b' → a = a' ∧ b = b')
    {xs : Unit → LazyList α} {ys : LazyList β} (hx : (xs ()).toList.Nodup) (hy : ys.toList.Nodup) :
    (combine f xs ys).toList.Nodup := by
  rw [toList_combine, List.nodup_flatMap]
  refine ⟨fun a _ => hy.map fun b b' h => (hf _ _ _ _ h).2, hx.imp fun {a a'} hne => ?_⟩
  intro c hc hc'
  obtain ⟨b, _, rfl⟩ := List.mem_map.mp hc
  obtain ⟨b', _, he⟩ := List.mem_map.mp hc'
  exact hne (hf _ _ _ _ he).1.symm

namespace Grammar

/-! ## Unfoldings -/

/-- A forest unfolds a right-hand side at a level: every nonterminal by a permanent rule. -/
inductive Unfolds (g : Grammar W) : Nat → Items → Forest W → Prop
  | nil {level : Nat} : Unfolds g level .nil .nil
  | leaf {level : Nat} {s : String} {items : Items} {forest : Forest W} :
      g.isNonterminal s = false → Unfolds g level items forest → Unfolds g level (.symbol s items) (.leaf s forest)
  | seq {level : Nat} {inside items : Items} {below forest : Forest W} :
      Unfolds g level inside below → Unfolds g level items forest →
        Unfolds g level (.seq inside items) (.seq below forest)
  | node {level : Nat} {s : String} {items : Items} {r : Rule W} {children forest : Forest W} :
      g.isNonterminal s = true → r ∈ g.rules s → Unfolds g (level + 1) r.children children →
        Unfolds g level items forest →
        Unfolds g level (.symbol s items) (.node (g.plainNode level s r children).label children forest)

/-- A tree unfolds a nonterminal at a level. -/
def UnfoldsNode (g : Grammar W) (level : Nat) (s : String) (t : Node W) : Prop :=
  ∃ r ∈ g.rules s, ∃ children, g.Unfolds (level + 1) r.children children ∧ t = g.plainNode level s r children

variable {g : Grammar W} {level : Nat} {s : String}

/-- Without nonterminals, the items unfold to themselves. -/
theorem unfolds_asLeaves : ∀ {items : Items}, (items.symbols.all fun s => !g.isNonterminal s) = true →
    g.Unfolds level items items.asLeaves
  | .nil, _ => .nil
  | .symbol s rest, h => by
    simp only [Items.symbols, List.all_cons, Bool.and_eq_true, Bool.not_eq_true'] at h
    exact .leaf h.1 (unfolds_asLeaves h.2)
  | .seq inside rest, h => by
    simp only [Items.symbols, List.all_append, Bool.and_eq_true] at h
    exact .seq (unfolds_asLeaves h.1) (unfolds_asLeaves h.2)

omit [Arith W] in
theorem height_asLeaves : ∀ items : Items, (items.asLeaves : Forest W).height = 0
  | .nil => rfl
  | .symbol _ rest => height_asLeaves rest
  | .seq inside rest => by rw [Items.asLeaves, Forest.height, height_asLeaves inside, height_asLeaves rest]; rfl

/-- Items without nonterminals have no other unfolding. -/
theorem Unfolds.eq_asLeaves {items : Items} {forest : Forest W} (h : g.Unfolds level items forest)
    (hall : (items.symbols.all fun s => !g.isNonterminal s) = true) : forest = items.asLeaves := by
  induction h with
  | nil => rfl
  | leaf _ _ ih =>
    simp only [Items.symbols, List.all_cons, Bool.and_eq_true] at hall
    rw [Items.asLeaves, ih hall.2]
  | seq _ _ ihi ihr =>
    simp only [Items.symbols, List.all_append, Bool.and_eq_true] at hall
    rw [Items.asLeaves, ihi hall.1, ihr hall.2]
  | node hs =>
    simp only [Items.symbols, List.all_cons, Bool.and_eq_true, hs] at hall
    exact absurd hall.1 (by decide)

/-- A nonterminal unfolds to a node. -/
theorem Unfolds.all_terminal {items : Items} {forest : Forest W} (h : g.Unfolds level items forest)
    (h₀ : forest.height = 0) : (items.symbols.all fun s => !g.isNonterminal s) = true := by
  induction h with
  | nil => rfl
  | leaf hs _ ih => rw [Items.symbols, List.all_cons, hs, ih h₀]; rfl
  | seq _ _ ihi ihr =>
    simp only [Forest.height] at h₀
    rw [Items.symbols, List.all_append, ihi (by omega), ihr (by omega)]
    rfl
  | node =>
    simp only [Forest.height] at h₀
    omega

/-! ## What is enumerated -/

/-- Fillings are the bounded unfoldings, if the expansions of nonterminals are. -/
theorem mem_fillings_iff {expansions : String → LazyList (Node W)} {bound : Nat}
    (hexp : ∀ s n, n ∈ (expansions s).toList ↔ g.UnfoldsNode level s n ∧ n.height ≤ bound) {items : Items} :
    ∀ {forest : Forest W}, forest ∈ (g.fillings expansions items).toList ↔
      g.Unfolds level items forest ∧ forest.height ≤ bound := by
  induction items with
  | nil =>
    intro forest
    simp only [fillings, LazyList.toList, List.mem_singleton]
    constructor
    · rintro rfl; exact ⟨.nil, Nat.zero_le _⟩
    · rintro ⟨h, _⟩; cases h; rfl
  | symbol s rest ih =>
    intro forest
    cases hs : g.isNonterminal s with
    | true =>
      rw [fillings, if_pos hs, LazyList.toList_combine, List.mem_flatMap]
      constructor
      · rintro ⟨n, hn, hf⟩
        obtain ⟨more, hmore, rfl⟩ := List.mem_map.mp hf
        obtain ⟨⟨r, hr, children, hc, rfl⟩, hh⟩ := (hexp s n).mp hn
        obtain ⟨hm, hmh⟩ := ih.mp hmore
        exact ⟨.node hs hr hc hm, Nat.max_le.mpr ⟨hh, hmh⟩⟩
      · rintro ⟨h, hh⟩
        cases h with
        | leaf hs' _ => rw [hs] at hs'; cases hs'
        | node _ hr hc hm =>
          obtain ⟨hch, hmh⟩ := Nat.max_le.mp hh
          exact ⟨_, (hexp s _).mpr ⟨⟨_, hr, _, hc, rfl⟩, hch⟩, List.mem_map.mpr ⟨_, ih.mpr ⟨hm, hmh⟩, rfl⟩⟩
    | false =>
      rw [fillings, if_neg (by simp [hs]), LazyList.toList_map, List.mem_map]
      constructor
      · rintro ⟨more, hmore, rfl⟩
        obtain ⟨hm, hmh⟩ := ih.mp hmore
        exact ⟨.leaf hs hm, hmh⟩
      · rintro ⟨h, hh⟩
        cases h with
        | leaf _ hm => exact ⟨_, ih.mpr ⟨hm, hh⟩, rfl⟩
        | node hs' => rw [hs] at hs'; cases hs'
  | seq inside rest ihi ihr =>
    intro forest
    rw [fillings, LazyList.toList_combine, List.mem_flatMap]
    constructor
    · rintro ⟨below, hbelow, hf⟩
      obtain ⟨more, hmore, rfl⟩ := List.mem_map.mp hf
      obtain ⟨hb, hbh⟩ := ihi.mp hbelow
      obtain ⟨hm, hmh⟩ := ihr.mp hmore
      exact ⟨.seq hb hm, Nat.max_le.mpr ⟨hbh, hmh⟩⟩
    · rintro ⟨h, hh⟩
      cases h with
      | seq hb hm =>
        obtain ⟨hbh, hmh⟩ := Nat.max_le.mp hh
        exact ⟨_, ihi.mpr ⟨hb, hbh⟩, List.mem_map.mpr ⟨_, ihr.mpr ⟨hm, hmh⟩, rfl⟩⟩

theorem mem_terminalTrees_iff {t : Node W} : t ∈ g.terminalTrees level s ↔
    ∃ r ∈ g.rules s, g.producesTerminals r.toProduction = true ∧ t = g.plainNode level s r r.children.asLeaves := by
  simp only [terminalTrees, List.mem_map, List.mem_filter, and_assoc, eq_comm (b := t)]

/-- The trees of the rules without nonterminals are the lowest unfoldings. -/
theorem mem_terminalTrees_iff_height {t : Node W} :
    t ∈ g.terminalTrees level s ↔ g.UnfoldsNode level s t ∧ t.height ≤ 1 := by
  rw [mem_terminalTrees_iff]
  constructor
  · rintro ⟨r, hr, hp, rfl⟩
    refine ⟨⟨r, hr, _, unfolds_asLeaves hp, rfl⟩, ?_⟩
    show 1 + (r.children.asLeaves : Forest W).height ≤ 1
    rw [height_asLeaves]
  · rintro ⟨⟨r, hr, children, hc, rfl⟩, hh⟩
    have h₀ : children.height = 0 := by
      have : 1 + children.height ≤ 1 := hh
      omega
    exact ⟨r, hr, hc.all_terminal h₀, by rw [hc.eq_asLeaves (hc.all_terminal h₀)]⟩

/-- **The trees that are enumerated are the unfoldings of bounded height.** -/
theorem mem_trees_iff : ∀ {budget level : Nat} {s : String} {t : Node W}, t ∈ (g.trees budget level s).toList ↔
    g.UnfoldsNode level s t ∧ t.height ≤ budget + 1
  | 0, level, s, t => by
    rw [trees, LazyList.toList_ofList]
    exact mem_terminalTrees_iff_height
  | budget + 1, level, s, t => by
    have hfill : ∀ {items : Items} {forest : Forest W},
        forest ∈ (g.fillings (g.trees budget (level + 1)) items).toList ↔
          g.Unfolds (level + 1) items forest ∧ forest.height ≤ budget + 1 :=
      mem_fillings_iff fun _ _ => mem_trees_iff
    simp only [trees, LazyList.toList_append, LazyList.toList_ofList, LazyList.toList_flatMap, LazyList.toList_map,
      List.mem_append, List.mem_flatMap, List.mem_map, List.mem_filter, hfill]
    constructor
    · rintro (h | ⟨r, ⟨hr, _⟩, children, ⟨hc, hch⟩, rfl⟩)
      · obtain ⟨ht, hh⟩ := mem_terminalTrees_iff_height.mp h
        exact ⟨ht, by omega⟩
      · refine ⟨⟨r, hr, children, hc, rfl⟩, ?_⟩
        show 1 + children.height ≤ budget + 1 + 1
        omega
    · rintro ⟨⟨r, hr, children, hc, rfl⟩, hh⟩
      replace hh : 1 + children.height ≤ budget + 1 + 1 := hh
      by_cases hp : g.producesTerminals r.toProduction = true
      · exact Or.inl (mem_terminalTrees_iff.mpr ⟨r, hr, hp, by rw [hc.eq_asLeaves hp]⟩)
      · exact Or.inr ⟨r, ⟨hr, by simpa using hp⟩, children, ⟨hc, by omega⟩, rfl⟩

/-! ## Every tree once -/

omit [Arith W] in
theorem nodup_fillings {expansions : String → LazyList (Node W)} (hexp : ∀ s, (expansions s).toList.Nodup) :
    ∀ items : Items, (g.fillings expansions items).toList.Nodup
  | .nil => List.nodup_singleton _
  | .symbol s rest => by
    unfold fillings
    split
    · refine LazyList.nodup_combine ?_ (hexp s) (nodup_fillings hexp rest)
      rintro ⟨l, c⟩ f ⟨l', c'⟩ f' h
      obtain ⟨rfl, rfl, rfl⟩ := Forest.node.inj h
      exact ⟨rfl, rfl⟩
    · rw [LazyList.toList_map]
      exact (nodup_fillings hexp rest).map fun _ _ h => (Forest.leaf.inj h).2
  | .seq inside rest =>
    LazyList.nodup_combine (fun _ _ _ _ h => Forest.seq.inj h) (nodup_fillings hexp inside) (nodup_fillings hexp rest)

/-- Trees at the same level that have the same rule are told apart by their children. -/
theorem plainNode_injective {r : Rule W} : Function.Injective (g.plainNode level s r) := fun _ _ h => by cases h; rfl

theorem nodup_terminalTrees (hg : g.WellStored) (level : Nat) (s : String) : (g.terminalTrees level s).Nodup := by
  refine List.Nodup.map_on (fun r hr r' hr' h => ?_) ((hg.nodup_rules s).filter _)
  exact hg.eq_of_id_eq (List.mem_filter.mp hr).1 (List.mem_filter.mp hr').1 (congrArg (·.label.ruleId) h)

/-- **No tree is enumerated twice.** -/
theorem nodup_trees (hg : g.WellStored) : ∀ (budget level : Nat) (s : String), (g.trees budget level s).toList.Nodup
  | 0, level, s => by
    rw [trees, LazyList.toList_ofList]
    exact nodup_terminalTrees hg level s
  | budget + 1, level, s => by
    simp only [trees, LazyList.toList_append, LazyList.toList_ofList, LazyList.toList_flatMap, LazyList.toList_map]
    refine List.nodup_append.mpr ⟨nodup_terminalTrees hg level s, List.nodup_flatMap.mpr ⟨fun r _ => ?_, ?_⟩, ?_⟩
    · exact (nodup_fillings (nodup_trees hg budget (level + 1)) r.children).map plainNode_injective
    · refine ((hg.nodup_rules s).filter _).imp_of_mem fun {r r'} hr hr' hne t ht ht' => hne ?_
      obtain ⟨_, _, rfl⟩ := List.mem_map.mp ht
      obtain ⟨_, _, he⟩ := List.mem_map.mp ht'
      exact hg.eq_of_id_eq (List.mem_filter.mp hr).1 (List.mem_filter.mp hr').1 (congrArg (·.label.ruleId) he.symm)
    · rintro t ht t' ht' rfl
      obtain ⟨r, hr, hp, rfl⟩ := mem_terminalTrees_iff.mp ht
      obtain ⟨r', hr', he⟩ := List.mem_flatMap.mp ht'
      obtain ⟨_, _, he⟩ := List.mem_map.mp he
      obtain ⟨hr', hp'⟩ := List.mem_filter.mp hr'
      obtain rfl := hg.eq_of_id_eq hr' hr (congrArg (·.label.ruleId) he)
      rw [hp] at hp'
      cases hp'

/-! ## Derivations that bind nothing -/

omit [Arith W] in
/-- No rule that can be reached binds variables. -/
theorem binds_eq_nil_of_reaches {start : String} (h : g.reachableBinder? start = none) (hs : g.Reaches start s)
    {r : Rule W} (hr : r ∈ g.rules s) : r.binds = [] := by
  have hfind := List.findSome?_eq_none_iff.mp h s (mem_reachableFrom_iff.mpr hs)
  have hnone := List.find?_eq_none.mp (Option.map_eq_none_iff.mp hfind) r hr
  simpa [Production.bindsVariables] using hnone

omit [Arith W] in
theorem visible_nil (g : Grammar W) (s : String) : g.visible [] s = g.rules s := List.append_nil _

omit [Arith W] in
theorem isNonterminalIn_nil (g : Grammar W) (s : String) : g.isNonterminalIn [] s = g.isNonterminal s :=
  Bool.or_false _

/-- A choice that binds nothing leaves the label of a plain node. -/
theorem Records.label_eq {r : Rule W} {l : Label W} (h : g.Records [] level s r l)
    (hbinds : r.binds = []) (children : Forest W) : r ∈ g.rules s ∧ l = (g.plainNode level s r children).label := by
  obtain ⟨lowest, hi⟩ := h.introduced
  rw [hbinds, variableRules] at hi
  have hlp := h.logProb
  rw [visibleTotal, visible_nil] at hlp
  refine ⟨visible_nil g s ▸ h.visible, ?_⟩
  cases l
  simp only [plainNode, Node.ofRule, Label.mk.injEq]
  exact ⟨h.nonterminal, h.name, h.ruleId, hlp, h.resampleWeight, hi, h.depth⟩

/-- Where no reachable rule binds variables, derivations are unfoldings. -/
theorem Derives.unfolds {start : String} (hstart : g.reachableBinder? start = none)
    {bound : List (Rule W)} {items : Items} {forest : Forest W} (h : g.Derives bound level items forest)
    (hbound : bound = [])
    (hitems : ∀ s ∈ items.symbols, g.isNonterminal s = true → g.Reaches start s) : g.Unfolds level items forest := by
  induction h with
  | nil => exact .nil
  | leaf hs _ ih =>
    subst hbound
    exact .leaf (isNonterminalIn_nil g _ ▸ hs) (ih rfl fun s hs => hitems s (List.mem_cons_of_mem _ hs))
  | seq _ _ ihi ihr =>
    exact .seq (ihi hbound fun s hs => hitems s (List.mem_append_left _ hs))
      (ihr hbound fun s hs => hitems s (List.mem_append_right _ hs))
  | @node _ _ s _ r l children _ hs hr _ _ ihc ihr =>
    subst hbound
    rw [isNonterminalIn_nil] at hs
    have hreach := hitems s List.mem_cons_self hs
    have hrule : r ∈ g.rules s := visible_nil g s ▸ hr.visible
    have hbinds := binds_eq_nil_of_reaches hstart hreach hrule
    obtain ⟨_, rfl⟩ := hr.label_eq hbinds children
    refine .node hs hrule (ihc rfl fun s' hs' hnt => .mention hreach ?_ hnt)
      (ihr rfl fun s' hs' => hitems s' (List.mem_cons_of_mem _ hs'))
    exact List.mem_flatMap.mpr ⟨r, hrule, List.mem_append_left _ hs'⟩

theorem DerivesNode.unfolds (hg : g.WellStored) {start : String} (hnt : g.isNonterminal start = true)
    (hstart : g.reachableBinder? start = none) {t : Node W} (h : g.DerivesNode [] level start t) :
    g.UnfoldsNode level start t := by
  have hd := (derives_alone_iff hg).mpr h
  have hu := hd.unfolds hstart rfl fun s hs _ => by
    obtain rfl := List.mem_singleton.mp hs
    exact .start hnt
  obtain ⟨l, c⟩ := t
  cases hu with
  | node _ hr hc _ => exact ⟨_, hr, _, hc, rfl⟩

/-- **Enumeration gives every unfolding of bounded height once, and so every tree of bounded height that generation
gives.** -/
theorem enumerate_exact (hg : g.Built) {start : String} {depth : Nat} {trees : Unit → LazyList (Node W)}
    (h : g.enumerate start depth = .ok trees) :
    (trees ()).toList.Nodup ∧
      (∀ t, t ∈ (trees ()).toList ↔ g.UnfoldsNode 0 start t ∧ t.height ≤ depth + 1) ∧
      ∀ draws t, (g.generate start draws).result = .ok t → (t ∈ (trees ()).toList ↔ t.height ≤ depth + 1) := by
  rw [enumerate_eq] at h
  split at h
  · cases h
  · rename_i hnt
    split at h
    · cases h
    · rename_i hplain
      cases h
      refine ⟨nodup_trees hg.wellStored _ _ _, fun t => mem_trees_iff, fun draws t ht => ?_⟩
      have hu := (generateIn_derives ht).unfolds hg.wellStored (by simpa using hnt) hplain
      rw [mem_trees_iff]
      exact ⟨fun h => h.2, fun h => ⟨hu, h⟩⟩

/-- Sums of ones, the second summand in a sequence. -/
def sums : Grammar Float where
  table := [("EXPR",
    [⟨⟨"EXPR", "one", .nil, 1.0, 1.0, []⟩, 0⟩,
      ⟨⟨"EXPR", "sum", .symbol "EXPR" (.seq (.symbol "EXPR" .nil) .nil), 1.0, 1.0, []⟩, 1⟩])]
  nextId := 2
  config := ⟨10.0, 1.0, "y"⟩

theorem built_sums : sums.Built :=
  have h := Built.empty (W := Float) ⟨10.0, 1.0, "y"⟩
  have h := h.add (p := ⟨"EXPR", "one", .nil, 1.0, 1.0, []⟩) rfl
  h.add (p := ⟨"EXPR", "sum", .symbol "EXPR" (.seq (.symbol "EXPR" .nil) .nil), 1.0, 1.0, []⟩) rfl

theorem sums_enumerate_exact : ∃ trees, sums.enumerate "EXPR" 2 = .ok trees ∧ (trees ()).toList.length = 5 ∧
    (trees ()).toList.Nodup ∧ (∀ t, t ∈ (trees ()).toList ↔ sums.UnfoldsNode 0 "EXPR" t ∧ t.height ≤ 2 + 1) ∧
      ∀ draws t, (sums.generate "EXPR" draws).result = .ok t → (t ∈ (trees ()).toList ↔ t.height ≤ 2 + 1) := by
  have h : sums.enumerate "EXPR" 2 = .ok fun _ => sums.trees 2 0 "EXPR" := (sums.enumerate_eq _ _).trans rfl
  exact ⟨_, h, by decide +kernel, enumerate_exact built_sums h⟩

end Grammar

end ScopedGrammar

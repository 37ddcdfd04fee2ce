import Mathlib
import ScopedGrammar.Proofs.Enumeration
import ScopedGrammar.Proofs.Exact

/-!
# The probability mass of the trees that are enumerated

With exact weights, every node of a tree has the share of its rule in the total weight of its nonterminal, and the mass
of a tree is the product of these shares. The mass of all trees up to a depth is what a recursion on the depth gives
(`sum_trees`): as combinations multiply masses (`sum_fillings`), it is the sum over the rules of the share of the rule
and the masses of the nonterminals on its right-hand side, one level less deep (`Grammar.cutMass`). Hence it is a part
of one that grows with the depth, and it is all of one exactly if nonterminals cannot be nested any deeper
(`enumerate_mass`).
-/

namespace ScopedGrammar

variable {W : Type}

/-! ## Sums over combinations -/

section

variable {α β γ : Type}

theorem sum_map_flatMap (f : α → List β) (mass : β → ℝ) : ∀ as : List α,
    ((as.flatMap f).map mass).sum = (as.map fun a => ((f a).map mass).sum).sum
  | [] => rfl
  | a :: as => by
    rw [List.flatMap_cons, List.map_append, List.sum_append, sum_map_flatMap f mass as, List.map_cons, List.sum_cons]

theorem sum_filter_add_sum_filter_not (q : α → Bool) (mass : α → ℝ) (as : List α) :
    ((as.filter q).map mass).sum + ((as.filter (!q ·)).map mass).sum = (as.map mass).sum := by
  rw [← List.sum_append, ← List.map_append]
  exact ((List.filter_append_perm q as).map mass).sum_eq

/-- Combinations multiply masses. -/
theorem sum_combine {f : α → β → γ} {mass : γ → ℝ} {left : α → ℝ} {right : β → ℝ}
    (h : ∀ a b, mass (f a b) = left a * right b) (xs : Unit → LazyList α) (ys : LazyList β) :
    ((LazyList.combine f xs ys).toList.map mass).sum = ((xs ()).toList.map left).sum * (ys.toList.map right).sum := by
  rw [LazyList.toList_combine, sum_map_flatMap, ← List.sum_map_mul_right]
  refine congrArg List.sum (List.map_congr_left fun a _ => ?_)
  rw [List.map_map, ← List.sum_map_mul_left]
  exact congrArg List.sum (List.map_congr_left fun b _ => h a b)

end

/-! ## Products over labels -/

/-- The product of what the labels of a forest are given. -/
noncomputable def Forest.product (p : Label W → ℝ) (forest : Forest W) : ℝ := (forest.labels.map p).prod

/-- The product of what the labels of a tree are given. -/
noncomputable def Node.product (p : Label W → ℝ) (n : Node W) : ℝ := (n.labels.map p).prod

section

variable (p : Label W → ℝ)

@[simp] theorem Forest.product_nil : (nil : Forest W).product p = 1 := rfl

@[simp] theorem Forest.product_leaf (s : String) (rest : Forest W) : (leaf s rest).product p = rest.product p := rfl

@[simp] theorem Forest.product_seq (inside rest : Forest W) :
    (seq inside rest).product p = inside.product p * rest.product p := by
  simp [product]

theorem Node.product_eq (n : Node W) : n.product p = p n.label * n.children.product p := by
  simp [product, Forest.product]

@[simp] theorem Forest.product_node (n : Node W) (rest : Forest W) :
    (node n.label n.children rest).product p = n.product p * rest.product p := by
  simp [product, Node.product, mul_assoc]

@[simp] theorem product_asLeaves : ∀ items : Items, (items.asLeaves : Forest W).product p = 1
  | .nil => rfl
  | .symbol _ rest => product_asLeaves rest
  | .seq inside rest => by
    rw [Items.asLeaves, Forest.product_seq, product_asLeaves inside, product_asLeaves rest, mul_one]

end

/-- The product of the masses of the nonterminals on a right-hand side. -/
noncomputable def Grammar.fillingMass (g : Grammar W) (mass : String → ℝ) (items : Items) : ℝ :=
  ((items.symbols.filter g.isNonterminal).map mass).prod

/-- The lists of children for a right-hand side have the masses of its nonterminals. -/
theorem sum_fillings (g : Grammar W) {p : Label W → ℝ} {expansions : String → LazyList (Node W)} {mass : String → ℝ}
    (hexp : ∀ s, ((expansions s).toList.map (Node.product p)).sum = mass s) (items : Items) :
    ((g.fillings expansions items).toList.map (Forest.product p)).sum = g.fillingMass mass items := by
  unfold Grammar.fillingMass
  induction items with
  | nil => simp [Grammar.fillings, LazyList.toList, Items.symbols]
  | symbol s rest ih =>
    rw [Grammar.fillings, Items.symbols, List.filter_cons]
    split
    · rw [sum_combine (Forest.product_node p), hexp, ih, List.map_cons, List.prod_cons]
    · rw [LazyList.toList_map, List.map_map, ← ih]
      rfl
  | seq inside rest ihi ihr =>
    rw [Grammar.fillings, Items.symbols, sum_combine (Forest.product_seq p), ihi, ihr, List.filter_append,
      List.map_append, List.prod_append]

/-! ## Parts of one -/

section

variable {α : Type} {x c : α → ℝ}

theorem prod_mem_unit : ∀ {as : List α}, (∀ a ∈ as, 0 ≤ x a ∧ x a ≤ 1) → 0 ≤ (as.map x).prod ∧ (as.map x).prod ≤ 1
  | [], _ => by simp
  | a :: as, h => by
    obtain ⟨h₀, h₁⟩ := h a List.mem_cons_self
    obtain ⟨ih₀, ih₁⟩ := prod_mem_unit fun b hb => h b (List.mem_cons_of_mem _ hb)
    rw [List.map_cons, List.prod_cons]
    exact ⟨mul_nonneg h₀ ih₀, mul_le_one₀ h₁ ih₀ ih₁⟩

/-- A product of parts of one is one exactly if all factors are. -/
theorem prod_eq_one_iff : ∀ {as : List α}, (∀ a ∈ as, 0 ≤ x a ∧ x a ≤ 1) →
    ((as.map x).prod = 1 ↔ ∀ a ∈ as, x a = 1)
  | [], _ => by simp
  | a :: as, h => by
    have hrest : ∀ b ∈ as, 0 ≤ x b ∧ x b ≤ 1 := fun b hb => h b (List.mem_cons_of_mem _ hb)
    obtain ⟨h₀, h₁⟩ := h a List.mem_cons_self
    obtain ⟨hp₀, hp₁⟩ := prod_mem_unit hrest
    rw [List.map_cons, List.prod_cons, List.forall_mem_cons, ← prod_eq_one_iff hrest]
    constructor
    · intro hone
      have ha : x a = 1 := le_antisymm h₁ (hone ▸ mul_le_of_le_one_right h₀ hp₁)
      rw [ha, one_mul] at hone
      exact ⟨ha, hone⟩
    · rintro ⟨ha, hp⟩
      rw [ha, hp, one_mul]

theorem sum_mul_le : ∀ {as : List α}, (∀ a ∈ as, 0 < c a ∧ x a ≤ 1) →
    (as.map fun a => c a * x a).sum ≤ (as.map c).sum := fun h =>
  List.sum_le_sum fun a ha => mul_le_of_le_one_right (h a ha).1.le (h a ha).2

/-- Positive numbers keep their sum exactly if all their factors are one. -/
theorem sum_mul_eq_iff : ∀ {as : List α}, (∀ a ∈ as, 0 < c a ∧ x a ≤ 1) →
    ((as.map fun a => c a * x a).sum = (as.map c).sum ↔ ∀ a ∈ as, x a = 1)
  | [], _ => by simp
  | a :: as, h => by
    have hrest : ∀ b ∈ as, 0 < c b ∧ x b ≤ 1 := fun b hb => h b (List.mem_cons_of_mem _ hb)
    obtain ⟨hc, hx⟩ := h a List.mem_cons_self
    have hfirst : c a * x a ≤ c a := mul_le_of_le_one_right hc.le hx
    have hothers := sum_mul_le hrest
    rw [List.map_cons, List.sum_cons, List.map_cons, List.sum_cons, List.forall_mem_cons, ← sum_mul_eq_iff hrest]
    constructor
    · intro hsum
      have ha : c a * x a = c a := by linarith
      exact ⟨(mul_eq_left₀ hc.ne').mp ha, by linarith⟩
    · rintro ⟨ha, hs⟩
      rw [ha, hs, mul_one]

end

/-! ## Real numbers among the extended ones -/

theorem sum_coe : ∀ xs : List ℝ, (xs.map Real.toEReal).sum = (xs.sum : ℝ)
  | [] => rfl
  | x :: xs => by rw [List.map_cons, List.sum_cons, sum_coe xs, List.sum_cons, EReal.coe_add]

theorem prod_coe : ∀ xs : List ℝ, (xs.map Real.toEReal).prod = (xs.prod : ℝ)
  | [] => rfl
  | x :: xs => by rw [List.map_cons, List.prod_cons, prod_coe xs, List.prod_cons, EReal.coe_mul]

namespace Grammar

/-! ## Shares -/

/-- The rule that made a node: the one of its nonterminal with its id. -/
def madeBy? (g : Grammar W) (l : Label W) : Option (Rule W) := (g.rules l.nonterminal).find? (·.id == l.ruleId)

/-- The share of the rule of a node in the total weight of its nonterminal. -/
noncomputable def share (g : Grammar EReal) (l : Label EReal) : EReal :=
  (g.madeBy? l).elim 0 (·.weight) / g.totalWeight l.nonterminal

/-- The product of the shares of all nodes. -/
noncomputable def treeMass (g : Grammar EReal) (t : Node EReal) : EReal := (t.nodes.map fun n => g.share n.label).prod

/-- The sum of the masses of trees. -/
noncomputable def totalMass (g : Grammar EReal) (trees : List (Node EReal)) : EReal := (trees.map g.treeMass).sum

/-- The share of a rule, as a real number. -/
noncomputable def chance (g : Grammar EReal) (r : Rule EReal) : ℝ :=
  r.weight.toReal / ((g.rules r.nonterminal).map fun r => r.weight.toReal).sum

section

variable {g : Grammar EReal} {s : String} {r : Rule EReal}

/-- The weights of rules are positive real numbers. -/
theorem weight_real (hg : g.WellStored) (hr : r ∈ g.rules s) :
    (r.weight.toReal : EReal) = r.weight ∧ 0 < r.weight.toReal := by
  have hvalid := Production.validate_eq_ok_iff.mp (hg.valid r (hg.mem_allRules hr))
  obtain ⟨w, hw, he⟩ := Arith.isPositive_iff.mp hvalid.2.1
  rw [he, EReal.toReal_coe]
  exact ⟨rfl, hw⟩

theorem totalWeight_eq (hg : g.WellStored) (s : String) :
    g.totalWeight s = (((g.rules s).map fun r => r.weight.toReal).sum : ℝ) := by
  rw [totalWeight, Arith.total_eq_sum, ← sum_coe, List.map_map]
  exact congrArg List.sum (List.map_congr_left fun r hr => (weight_real hg hr).1.symm)

theorem total_pos (hg : g.WellStored) (hr : r ∈ g.rules s) : 0 < ((g.rules s).map fun r => r.weight.toReal).sum := by
  refine List.sum_pos _ (fun x hx => ?_) (by simpa using List.ne_nil_of_mem hr)
  obtain ⟨r', hr', rfl⟩ := List.mem_map.mp hx
  exact (weight_real hg hr').2

theorem chance_pos (hg : g.WellStored) (hr : r ∈ g.rules s) : 0 < g.chance r := by
  rw [chance, hg.nonterminal_eq hr]
  exact div_pos (weight_real hg hr).2 (total_pos hg hr)

/-- The shares of the rules of a nonterminal add up to one. -/
theorem sum_chance (hg : g.WellStored) (hs : g.isNonterminal s = true) : ((g.rules s).map g.chance).sum = 1 := by
  obtain ⟨r, hr⟩ := List.exists_mem_of_ne_nil _ (hg.isNonterminal_iff.mp hs)
  have hchance : (g.rules s).map g.chance =
      (g.rules s).map fun r => r.weight.toReal * (((g.rules s).map fun r => r.weight.toReal).sum)⁻¹ :=
    List.map_congr_left fun r hr => by rw [chance, hg.nonterminal_eq hr, div_eq_mul_inv]
  rw [hchance, List.sum_map_mul_right]
  exact mul_inv_cancel₀ (total_pos hg hr).ne'

theorem sum_chance_le (hg : g.WellStored) (s : String) : ((g.rules s).map g.chance).sum ≤ 1 := by
  by_cases hs : g.isNonterminal s = true
  · exact (sum_chance hg hs).le
  · rw [not_not.mp (mt hg.isNonterminal_iff.mpr hs)]
    exact zero_le_one

/-- The node of a rule has the share of that rule. -/
theorem share_plainNode (hg : g.WellStored) (hr : r ∈ g.rules s) (level : ℕ) (children : Forest EReal) :
    g.share (g.plainNode level s r children).label = (g.chance r : ℝ) := by
  have hnt : (g.plainNode level s r children).label.nonterminal = s := hg.nonterminal_eq hr
  have hrule : g.madeBy? (g.plainNode level s r children).label = some r := by
    rw [madeBy?, hnt]
    exact hg.find?_rules_id hr
  rw [share, hrule, hnt, Option.elim_some, totalWeight_eq hg, chance, hg.nonterminal_eq hr, EReal.coe_div,
    (weight_real hg hr).1]

/-- The share of any node is a real number. -/
theorem share_real (hg : g.WellStored) (l : Label EReal) : ((g.share l).toReal : EReal) = g.share l := by
  have hweight : ∃ w : ℝ, (g.madeBy? l).elim 0 (·.weight) = (w : EReal) := by
    cases h : g.madeBy? l with
    | none => exact ⟨0, rfl⟩
    | some r => exact ⟨_, (weight_real hg (List.mem_of_find?_eq_some h)).1.symm⟩
  obtain ⟨w, hw⟩ := hweight
  rw [share, hw, totalWeight_eq hg, ← EReal.coe_div, EReal.toReal_coe]

/-- The mass of a tree as a real number. -/
theorem treeMass_eq (hg : g.WellStored) (t : Node EReal) :
    g.treeMass t = (t.product fun l => (g.share l).toReal : ℝ) := by
  rw [Node.product, ← prod_coe, treeMass, Node.labels, List.map_map, List.map_map]
  exact congrArg List.prod (List.map_congr_left fun n _ => (share_real hg n.label).symm)

end

/-! ## Nesting -/

/-- Below a nonterminal, others can be nested to a depth: there is a chain of that many nonterminals that starts below
it, and each is on a right-hand side of the one before. -/
def Nests (g : Grammar W) (depth : ℕ) (s : String) : Prop :=
  ∃ chain : List String, chain.length = depth ∧ (∀ s' ∈ s :: chain, g.isNonterminal s' = true) ∧
    (s :: chain).IsChain fun above below => ∃ r ∈ g.rules above, below ∈ r.children.symbols

theorem Nests.isNonterminal {g : Grammar W} {depth : ℕ} {s : String} (h : g.Nests depth s) :
    g.isNonterminal s = true := by
  obtain ⟨_, _, hall, _⟩ := h
  exact hall s List.mem_cons_self

theorem nests_zero {g : Grammar W} {s : String} : g.Nests 0 s ↔ g.isNonterminal s = true := by
  constructor
  · exact Nests.isNonterminal
  · exact fun hs => ⟨[], rfl, by simpa using hs, List.isChain_singleton _⟩

theorem nests_succ {g : Grammar W} {depth : ℕ} {s : String} : g.Nests (depth + 1) s ↔
    g.isNonterminal s = true ∧ ∃ r ∈ g.rules s, ∃ s' ∈ r.children.symbols, g.Nests depth s' := by
  constructor
  · rintro ⟨chain, hlength, hall, hchain⟩
    cases chain with
    | nil => cases hlength
    | cons s' chain =>
      obtain ⟨⟨r, hr, hmem⟩, hchain⟩ := List.isChain_cons_cons.mp hchain
      obtain ⟨hs, hall⟩ := List.forall_mem_cons.mp hall
      exact ⟨hs, r, hr, s', hmem, chain, Nat.succ.inj hlength, hall, hchain⟩
  · rintro ⟨hs, r, hr, s', hmem, chain, hlength, hall, hchain⟩
    exact ⟨s' :: chain, congrArg (· + 1) hlength, List.forall_mem_cons.mpr ⟨hs, hall⟩,
      List.isChain_cons_cons.mpr ⟨⟨r, hr, hmem⟩, hchain⟩⟩

/-! ## The mass down to a depth -/

/-- The mass of the trees with at most a number of nodes nested in each other. -/
noncomputable def cutMass (g : Grammar EReal) : ℕ → String → ℝ
  | 0, _ => 0
  | n + 1, s => ((g.rules s).map fun r =>
      g.chance r * g.fillingMass (g.cutMass n) r.children).sum

section

variable {g : Grammar EReal} {s : String}

/-- A tree of a rule has the share of the rule and what its children have. -/
theorem product_plainNode (hg : g.WellStored) {r : Rule EReal} (hr : r ∈ g.rules s) (level : ℕ)
    (children : Forest EReal) : ((g.plainNode level s r children).product fun l => (g.share l).toReal) =
      g.chance r * children.product fun l => (g.share l).toReal := by
  rw [Node.product_eq, share_plainNode hg hr, EReal.toReal_coe]
  rfl

/-- The rules without nonterminals have all of their share. -/
theorem sum_terminalTrees (hg : g.WellStored) (level : ℕ) (s : String) (mass : String → ℝ) :
    ((g.terminalTrees level s).map (Node.product fun l => (g.share l).toReal)).sum =
      (((g.rules s).filter (g.producesTerminals ·.toProduction)).map fun r =>
        g.chance r * g.fillingMass mass r.children).sum := by
  rw [terminalTrees, List.map_map]
  refine congrArg List.sum (List.map_congr_left fun r hr => ?_)
  obtain ⟨hr, hterminal⟩ := List.mem_filter.mp hr
  have hnone : r.children.symbols.filter g.isNonterminal = [] :=
    List.filter_eq_nil_iff.mpr fun s' hs' => by simpa using List.all_eq_true.mp hterminal s' hs'
  rw [fillingMass, hnone, Function.comp_apply, product_plainNode hg hr, product_asLeaves]
  rfl

/-- There is nothing for a rule with a nonterminal if there is nothing for its nonterminals. -/
theorem fillingMass_zero {items : Items} (h : (items.symbols.all fun s => !g.isNonterminal s) = false) :
    g.fillingMass (fun _ => 0) items = 0 := by
  obtain ⟨s', hs', hnt⟩ := List.all_eq_false.mp h
  exact List.prod_eq_zero (List.mem_map.mpr ⟨s', List.mem_filter.mpr ⟨hs', by simpa using hnt⟩, rfl⟩)

/-- **The trees down to a depth have the mass that recursion on the depth gives.** -/
theorem sum_trees (hg : g.WellStored) : ∀ (budget level : ℕ) (s : String),
    ((g.trees budget level s).toList.map (Node.product fun l => (g.share l).toReal)).sum = g.cutMass (budget + 1) s
  | 0, level, s => by
    rw [trees, LazyList.toList_ofList, sum_terminalTrees hg level s (g.cutMass 0), cutMass,
      ← sum_filter_add_sum_filter_not (fun r : Rule EReal => g.producesTerminals r.toProduction) _ (g.rules s),
      left_eq_add]
    refine List.sum_eq_zero fun x hx => ?_
    obtain ⟨r, hr, rfl⟩ := List.mem_map.mp hx
    show g.chance r * g.fillingMass (fun _ => 0) r.children = 0
    rw [fillingMass_zero (by simpa [producesTerminals] using (List.mem_filter.mp hr).2), mul_zero]
  | budget + 1, level, s => by
    have hothers : ∀ r ∈ (g.rules s).filter (!g.producesTerminals ·.toProduction),
        (((g.fillings (g.trees budget (level + 1)) r.children).toList.map (g.plainNode level s r)).map
          (Node.product fun l => (g.share l).toReal)).sum =
          g.chance r * g.fillingMass (g.cutMass (budget + 1)) r.children := by
      intro r hr
      have hproduct := product_plainNode hg (List.mem_filter.mp hr).1 level
      rw [← sum_fillings g (sum_trees hg budget (level + 1)) r.children, ← List.sum_map_mul_left, List.map_map]
      exact congrArg List.sum (List.map_congr_left fun children _ => hproduct children)
    rw [cutMass,
      ← sum_filter_add_sum_filter_not (fun r : Rule EReal => g.producesTerminals r.toProduction) _ (g.rules s),
      ← sum_terminalTrees hg level s, ← List.map_congr_left hothers]
    simp only [trees, LazyList.toList_append, LazyList.toList_ofList, LazyList.toList_flatMap, LazyList.toList_map,
      List.map_append, List.sum_append, sum_map_flatMap]

/-! ## Its bounds -/

theorem fillingMass_mem_unit {mass : String → ℝ} (h : ∀ s, 0 ≤ mass s ∧ mass s ≤ 1) (items : Items) :
    0 ≤ g.fillingMass mass items ∧ g.fillingMass mass items ≤ 1 :=
  prod_mem_unit fun s _ => h s

theorem cutMass_mem_unit (hg : g.WellStored) : ∀ (n : ℕ) (s : String), 0 ≤ g.cutMass n s ∧ g.cutMass n s ≤ 1
  | 0, _ => ⟨le_refl _, zero_le_one⟩
  | n + 1, s => by
    have hparts := fillingMass_mem_unit (g := g) (cutMass_mem_unit hg n)
    constructor
    · refine List.sum_nonneg fun x hx => ?_
      obtain ⟨r, hr, rfl⟩ := List.mem_map.mp hx
      exact mul_nonneg (chance_pos hg hr).le (hparts r.children).1
    · exact (sum_mul_le fun r hr => ⟨chance_pos hg hr, (hparts r.children).2⟩).trans (sum_chance_le hg s)

/-- The mass grows with the depth. -/
theorem cutMass_le_succ (hg : g.WellStored) : ∀ (n : ℕ) (s : String), g.cutMass n s ≤ g.cutMass (n + 1) s
  | 0, s => (cutMass_mem_unit hg 1 s).1
  | n + 1, s => by
    refine List.sum_le_sum fun r hr => mul_le_mul_of_nonneg_left ?_ (chance_pos hg hr).le
    exact List.prod_map_le_prod_map₀ _ _ (fun s' _ => (cutMass_mem_unit hg n s').1) fun s' _ => cutMass_le_succ hg n s'

/-- The mass is all of one exactly if nesting ends before the depth. -/
theorem cutMass_eq_one_iff (hg : g.WellStored) : ∀ {n : ℕ} {s : String}, g.isNonterminal s = true →
    (g.cutMass n s = 1 ↔ ¬ g.Nests n s)
  | 0, s, hs => by
    rw [nests_zero, hs]
    simp [cutMass]
  | n + 1, s, hs => by
    have hfill : ∀ items : Items, g.fillingMass (g.cutMass n) items = 1 ↔ ∀ s' ∈ items.symbols, ¬ g.Nests n s' := by
      intro items
      rw [fillingMass, prod_eq_one_iff fun s' _ => cutMass_mem_unit hg n s']
      constructor
      · intro hall s' hs' hnests
        have hnt := hnests.isNonterminal
        exact (cutMass_eq_one_iff hg hnt).mp (hall s' (List.mem_filter.mpr ⟨hs', hnt⟩)) hnests
      · intro hall s' hs'
        obtain ⟨hs', hnt⟩ := List.mem_filter.mp hs'
        exact (cutMass_eq_one_iff hg hnt).mpr (hall s' hs')
    have hsum : g.cutMass (n + 1) s = 1 ↔ ∀ r ∈ g.rules s, g.fillingMass (g.cutMass n) r.children = 1 := by
      have hparts := fillingMass_mem_unit (g := g) (cutMass_mem_unit hg n)
      have hiff := sum_mul_eq_iff fun r (hr : r ∈ g.rules s) => ⟨chance_pos hg hr, (hparts r.children).2⟩
      rwa [sum_chance hg hs] at hiff
    rw [hsum, nests_succ]
    simp only [hfill, hs, true_and, not_exists, not_and]

/-! ## Enumeration -/

/-- What is enumerated has the mass down to its depth. -/
theorem totalMass_trees (hg : g.WellStored) (depth : ℕ) (s : String) :
    g.totalMass (g.trees depth 0 s).toList = (g.cutMass (depth + 1) s : ℝ) := by
  rw [← sum_trees hg depth 0 s, ← sum_coe, List.map_map, totalMass]
  exact congrArg List.sum (List.map_congr_left fun t _ => treeMass_eq hg t)

/-- The depth does not matter for whether a nonterminal is enumerated. -/
theorem enumerate_eq_ok {depth : ℕ} {trees : Unit → LazyList (Node EReal)} (h : g.enumerate s depth = .ok trees) :
    g.isNonterminal s = true ∧ ∀ depth', g.enumerate s depth' = .ok fun _ => g.trees depth' 0 s := by
  rw [enumerate_eq] at h
  split at h
  · cases h
  · rename_i hnt
    split at h
    · cases h
    · rename_i hplain
      refine ⟨by simpa using hnt, fun depth' => ?_⟩
      rw [enumerate_eq, if_neg hnt, hplain]

/-- **The trees that are enumerated have a part of the mass, which grows with the depth, and all of it exactly if
nonterminals cannot be nested deeper.** -/
theorem enumerate_mass (hg : g.Built) {depth : ℕ} {trees : Unit → LazyList (Node EReal)}
    (h : g.enumerate s depth = .ok trees) :
    g.totalMass (trees ()).toList ≤ 1 ∧
      (∀ deeper, depth ≤ deeper → ∃ more, g.enumerate s deeper = .ok more ∧
        g.totalMass (trees ()).toList ≤ g.totalMass (more ()).toList) ∧
      (g.totalMass (trees ()).toList = 1 ↔ ¬ g.Nests (depth + 1) s) := by
  have hs := hg.wellStored
  obtain ⟨hnt, hok⟩ := enumerate_eq_ok h
  obtain rfl : trees = fun _ => g.trees depth 0 s := Except.ok.inj (h.symm.trans (hok depth))
  refine ⟨?_, fun deeper hdeeper => ⟨_, hok deeper, ?_⟩, ?_⟩
  · rw [totalMass_trees hs]
    exact EReal.coe_le_coe_iff.mpr (cutMass_mem_unit hs (depth + 1) s).2
  · rw [totalMass_trees hs, totalMass_trees hs]
    exact EReal.coe_le_coe_iff.mpr (monotone_nat_of_le_succ (cutMass_le_succ hs · s) (Nat.succ_le_succ hdeeper))
  · rw [totalMass_trees hs, EReal.coe_eq_one]
    exact cutMass_eq_one_iff hs hnt

end

/-! ## Nothing or two bits -/

/-- A rule that binds nothing, with weights of one. -/
noncomputable def plainRule (nonterminal name : String) (children : Items) (id : Int) : Rule EReal :=
  ⟨⟨nonterminal, name, children, 1, 1, []⟩, id⟩

/-- Nothing or two bits, the second in a sequence. -/
noncomputable def bits : Grammar EReal where
  table := [("BIT", [plainRule "BIT" "zero" .nil 0, plainRule "BIT" "one" .nil 1]),
    ("WORD", [plainRule "WORD" "none" .nil 2,
      plainRule "WORD" "two" (.symbol "BIT" (.seq (.symbol "BIT" .nil) .nil)) 3])]
  nextId := 4
  config := ⟨1, 1, "y"⟩

theorem validate_plainRule {s name : String} {items : Items} {id : Int}
    (h : (plainRule s name items id).toProduction.isLambda = false) :
    (plainRule s name items id).toProduction.validate = .ok () :=
  Production.validate_eq_ok_iff.mpr
    ⟨fun hl => absurd (hl.symm.trans h) (by decide), Arith.isPositive_one, Arith.isNonnegative_one⟩

theorem built_bits : bits.Built := by
  have hzero : (plainRule "BIT" "zero" .nil 0).toProduction.validate = .ok () := validate_plainRule (by decide)
  have hone : (plainRule "BIT" "one" .nil 1).toProduction.validate = .ok () := validate_plainRule (by decide)
  have hnone : (plainRule "WORD" "none" .nil 2).toProduction.validate = .ok () := validate_plainRule (by decide)
  have htwo : (plainRule "WORD" "two" (.symbol "BIT" (.seq (.symbol "BIT" .nil) .nil)) 3).toProduction.validate =
      .ok () := validate_plainRule (by decide)
  have hbits := ((Built.empty ⟨1, 1, "y"⟩).add (add_of_validate hzero)).add (add_of_validate hone)
  exact (hbits.add (add_of_validate hnone)).add (add_of_validate htwo)

theorem bits_nests_one : bits.Nests 1 "WORD" := by
  refine ⟨["BIT"], rfl, by decide, List.isChain_cons_cons.mpr ⟨⟨_, List.mem_cons_of_mem _ List.mem_cons_self, ?_⟩, ?_⟩⟩
  · exact List.mem_cons_self
  · exact List.isChain_singleton _

theorem not_bits_nests_two : ¬ bits.Nests 2 "WORD" := by
  intro h
  obtain ⟨_, r, hr, s, hs, hbelow⟩ := nests_succ.mp h
  obtain rfl | rfl : r = plainRule "WORD" "none" .nil 2 ∨
      r = plainRule "WORD" "two" (.symbol "BIT" (.seq (.symbol "BIT" .nil) .nil)) 3 := by
    simpa using (show r ∈ [plainRule "WORD" "none" .nil 2, _] from hr)
  · cases hs
  · obtain rfl : s = "BIT" := by simpa [plainRule, Items.symbols] using hs
    obtain ⟨_, r, hr, s, hs, _⟩ := nests_succ.mp hbelow
    obtain rfl | rfl : r = plainRule "BIT" "zero" .nil 0 ∨ r = plainRule "BIT" "one" .nil 1 := by
      simpa using (show r ∈ [plainRule "BIT" "zero" .nil 0, _] from hr)
    · cases hs
    · cases hs

/-- Words down to the rule without bits have a part of the mass, and with the bits all of it. -/
theorem bits_enumerate_mass : ∃ shallow deep, bits.enumerate "WORD" 0 = .ok shallow ∧
    bits.enumerate "WORD" 1 = .ok deep ∧ bits.totalMass (shallow ()).toList < 1 ∧
      bits.totalMass (deep ()).toList = 1 := by
  have hshallow : bits.enumerate "WORD" 0 = .ok fun _ => bits.trees 0 0 "WORD" := (bits.enumerate_eq _ _).trans rfl
  have hdeep : bits.enumerate "WORD" 1 = .ok fun _ => bits.trees 1 0 "WORD" := (bits.enumerate_eq _ _).trans rfl
  obtain ⟨hle, _, hone⟩ := enumerate_mass built_bits hshallow
  obtain ⟨_, _, hall⟩ := enumerate_mass built_bits hdeep
  exact ⟨_, _, hshallow, hdeep, lt_of_le_of_ne hle fun h => hone.mp h bits_nests_one, hall.mpr not_bits_nests_two⟩

end Grammar

end ScopedGrammar

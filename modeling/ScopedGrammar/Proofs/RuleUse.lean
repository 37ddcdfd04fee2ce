import Mathlib.Algebra.GroupWithZero.Nat
import Mathlib.Data.List.Flatten
import ScopedGrammar.Proofs.Ledger
import ScopedGrammar.Proofs.Numbering
import ScopedGrammar.RuleCount

/-!
# Rule counts account for every use

A tally knows how often an id is used in trees, for ids that are not negative (`Tally.count_ofTrees`). So the table of
counts is the one of uses (`Grammar.ruleCounts_eq`), and what holds of uses holds of it: they add up over trees
(`uses_eq_sum`), in any order (`uses_perm`), and a tree that is put in the place of another takes its uses away and
brings its own (`uses_replaceAt?`).

Ids tell rules apart over all nonterminals (`Grammar.Built.eq_of_id_eq`), and along a chain those of variables are
negative as long as ids last (`Grammar.Chain.numbered`). So the ids that are counted for a nonterminal are found at its
own nodes only, and at all those that do not stand for variables (`Grammar.DerivesNode.exists_rule_iff`).
-/

namespace ScopedGrammar

variable {W : Type}

/-! ## Uses -/

/-- How many nodes of several trees have an id. -/
def uses (id : Int) (trees : List (Node W)) : Nat := (trees.flatMap Node.nodes).countP fun n => n.label.ruleId == id

theorem uses_append (id : Int) (trees more : List (Node W)) :
    uses id (trees ++ more) = uses id trees + uses id more := by
  rw [uses, List.flatMap_append, List.countP_append, uses, uses]

theorem uses_cons (id : Int) (t : Node W) (trees : List (Node W)) :
    uses id (t :: trees) = uses id [t] + uses id trees :=
  uses_append id [t] trees

theorem uses_eq_sum (id : Int) : ∀ trees : List (Node W), uses id trees = (trees.map fun t => uses id [t]).sum
  | [] => rfl
  | t :: trees => by rw [uses_cons, List.map_cons, List.sum_cons, uses_eq_sum id trees]

theorem uses_perm (id : Int) {trees trees' : List (Node W)} (h : trees.Perm trees') : uses id trees = uses id trees' :=
  (h.flatMap_right Node.nodes).countP_eq _

theorem uses_eq_count_labels (id : Int) (t : Node W) : uses id [t] = t.labels.countP fun l => l.ruleId == id := by
  rw [uses, List.flatMap_singleton, Node.labels, List.countP_map]
  rfl

/-- A tree that is put in the place of another one takes its uses away and brings its own. -/
theorem uses_replaceAt? {t old : Node W} {i : Nat} (hold : t.get? i = some old) (new : Node W) :
    ∃ t', t.replaceAt? i new = some t' ∧ ∀ id, uses id [t'] + uses id [old] = uses id [t] + uses id [new] := by
  obtain ⟨hole, hplug, rfl⟩ := Node.exists_hole_of_get? hold
  obtain ⟨t', ht', hplug'⟩ := hole.replaceAt?_eq_some hplug new
  refine ⟨t', ht', fun id => ?_⟩
  simp only [uses_eq_count_labels, Hole.labels_of_plug hplug, Hole.labels_of_plug hplug', List.countP_append]
  omega

/-! ## Tallies -/

namespace Tally

theorem count_cons (key : Int) (n : Nat) (rest : Tally) (id : Int) :
    count ((key, n) :: rest) id = if id = key then n else count rest id := by
  by_cases h : id = key
  · rw [if_pos h, count, List.lookup_cons, beq_iff_eq.mpr h]
    rfl
  · rw [if_neg h, count, List.lookup_cons, beq_eq_false_iff_ne.mpr h]
    rfl

theorem count_bump (id id' : Int) : ∀ t : Tally, (t.bump id).count id' = t.count id' + if id = id' then 1 else 0
  | [] => by
    rw [bump, count_cons]
    by_cases h : id = id'
    · rw [if_pos h.symm, if_pos h]
      rfl
    · rw [if_neg (Ne.symm h), if_neg h]
      rfl
  | (key, n) :: rest => by
    rw [bump]
    split
    · rename_i hkey
      obtain rfl := beq_iff_eq.mp hkey
      rw [count_cons, count_cons]
      grind
    · rename_i hkey
      rw [count_cons, count_cons, count_bump id id' rest]
      grind

theorem count_foldl_bump (id : Int) : ∀ (ns : List (Node W)) (t : Tally),
    (ns.foldl (fun t n => t.bump n.label.ruleId) t).count id = t.count id + ns.countP fun n => n.label.ruleId == id
  | [], _ => rfl
  | n :: ns, t => by
    rw [List.foldl_cons, count_foldl_bump id ns, count_bump, List.countP_cons, Nat.add_right_comm, Nat.add_assoc]
    simp only [beq_iff_eq]

/-- A tree adds its uses of an id that is not negative. -/
theorem count_addTree {id : Int} (hid : 0 ≤ id) (t : Tally) (tree : Node W) :
    (t.addTree tree).count id = t.count id + uses id [tree] := by
  rw [addTree, count_foldl_bump, Node.toList_iterate, List.countP_filter, uses, List.flatMap_singleton]
  congr 1
  refine List.countP_congr fun n _ => ?_
  simp only [Node.isVariable, Bool.and_eq_true, beq_iff_eq, Bool.not_eq_true', decide_eq_false_iff_not]
  omega

theorem count_foldl_addTree {id : Int} (hid : 0 ≤ id) : ∀ (trees : List (Node W)) (t : Tally),
    (trees.foldl addTree t).count id = t.count id + uses id trees
  | [], _ => rfl
  | tree :: trees, t => by
    rw [List.foldl_cons, count_foldl_addTree hid trees, count_addTree hid, uses_cons id tree trees, Nat.add_assoc]

/-- **A tally has counted the uses of every id that is not negative.** -/
theorem count_ofTrees {id : Int} (hid : 0 ≤ id) (trees : List (Node W)) : (ofTrees trees).count id = uses id trees :=
  (count_foldl_addTree hid trees []).trans (Nat.zero_add _)

end Tally

namespace Grammar

variable {g : Grammar W}

/-! ## The table -/

section

variable (g)

/-- The counts of the rules of a nonterminal, looked up in the table. -/
def countsOf (trees : List (Node W)) (nt : String) : List Nat := ((g.ruleCounts trees).lookup nt).getD []

/-- The number for one rule of a nonterminal, by its place among them. -/
def countAt (trees : List (Node W)) (nt : String) (k : Nat) : Nat := (g.countsOf trees nt).getD k 0

end

variable [Arith W]

/-- The table has the uses of the rules of every nonterminal. -/
theorem ruleCounts_eq (hg : g.WellStored) (trees : List (Node W)) :
    g.ruleCounts trees = g.nonterminals.map fun nt => (nt, (g.rules nt).map fun r => uses r.id trees) := by
  refine List.map_congr_left fun nt _ => ?_
  rw [List.map_congr_left fun r hr => Tally.count_ofTrees (hg.nonneg r (hg.mem_allRules hr)) trees]

omit [Arith W] in
/-- What is kept for a key is found under it. -/
theorem lookup_map {β : Type} (f : String → β) (s : String) : ∀ keys : List String,
    (keys.map fun key => (key, f key)).lookup s = if s ∈ keys then some (f s) else none
  | [] => rfl
  | key :: keys => by
    rw [List.map_cons, List.lookup_cons, lookup_map f s keys]
    by_cases h : s = key
    · simp [h]
    · simp [h, beq_eq_false_iff_ne.mpr h]

theorem countsOf_eq (hg : g.WellStored) (trees : List (Node W)) (nt : String) :
    g.countsOf trees nt = (g.rules nt).map fun r => uses r.id trees := by
  rw [countsOf, ruleCounts_eq hg, lookup_map fun nt => (g.rules nt).map fun r => uses r.id trees]
  split
  · rfl
  · rename_i hnt
    rcases RuleTable.rules_eq_nil_or_mem g.table nt with hrules | hmem
    · rw [show g.rules nt = [] from hrules]
      rfl
    · exact absurd (List.mem_map_of_mem hmem) hnt

theorem countAt_eq (hg : g.WellStored) (trees : List (Node W)) (nt : String) (k : Nat) :
    g.countAt trees nt k = (((g.rules nt)[k]?).map fun r => uses r.id trees).getD 0 := by
  rw [countAt, countsOf_eq hg, List.getD_eq_getElem?_getD, List.getElem?_map]

/-! ## Which nodes are counted -/

/-- The id of a node in a derivation is one of a nonterminal's rules exactly if the node is one of the nonterminal and
does not stand for a variable. -/
theorem DerivesNode.exists_rule_iff (hg : g.Built) {start : String} {t n : Node W} (ht : g.DerivesNode [] 0 start t)
    (hneg : ∀ id ∈ t.variableIds, id < 0) (hn : n ∈ t.nodes) (nt : String) :
    (∃ r ∈ g.rules nt, r.id = n.label.ruleId) ↔ n.label.nonterminal = nt ∧ n.isVariable = false := by
  rw [← t.map_node_tour true] at hn
  obtain ⟨v, hv, rfl⟩ := List.mem_map.mp hn
  obtain ⟨s, ⟨r₀, hr₀, -⟩, -⟩ := ht.exists_records hg.wellStored hv
  have hs : v.node.label.nonterminal = s := hr₀.nonterminal.trans (hg.wellStored.nonterminal_eq_of_visible hr₀.visible)
  have hpermanent : 0 ≤ v.node.label.ruleId → r₀ ∈ g.rules s := by
    intro hid
    rcases List.mem_append.mp hr₀.visible with hrule | hrule
    · exact hrule
    · have hvariable := hneg _ (Node.mem_variableIds_of_scope hv (List.mem_filter.mp hrule).1)
      rw [hr₀.ruleId] at hid
      exact absurd hvariable (not_lt.mpr hid)
  rw [Node.isVariable, decide_eq_false_iff_not, not_lt]
  constructor
  · rintro ⟨r, hr, hid⟩
    have hnonneg : 0 ≤ v.node.label.ruleId := hid ▸ hg.wellStored.nonneg r (hg.wellStored.mem_allRules hr)
    obtain rfl := hg.eq_of_id_eq hr (hpermanent hnonneg) (hid.trans hr₀.ruleId)
    exact ⟨hr₀.nonterminal.trans (hg.wellStored.nonterminal_eq hr), hnonneg⟩
  · rintro ⟨rfl, hnonneg⟩
    exact ⟨r₀, hs ▸ hpermanent hnonneg, hr₀.ruleId.symm⟩

omit [Arith W] in
/-- The uses of rules with distinct ids are the nodes that have one of the ids. -/
theorem sum_uses (trees : List (Node W)) : ∀ {rs : List (Rule W)}, (rs.Pairwise fun a b => a.id < b.id) →
    (rs.map fun r => uses r.id trees).sum =
      (trees.flatMap Node.nodes).countP fun n => rs.any fun r => r.id == n.label.ruleId
  | [], _ => by simp
  | r :: rs, h => by
    obtain ⟨hr, hrs⟩ := List.pairwise_cons.mp h
    rw [List.map_cons, List.sum_cons, sum_uses trees hrs,
      List.countP_eq_countP_filter_add _ (fun n : Node W => (r :: rs).any fun r => r.id == n.label.ruleId)
        (fun n => n.label.ruleId == r.id), List.countP_filter, List.countP_filter]
    congr 1 <;> refine List.countP_congr fun n _ => ?_
    · simp only [List.any_cons, Bool.and_eq_true, Bool.or_eq_true, beq_iff_eq]
      exact ⟨fun h => ⟨Or.inl h.symm, h⟩, fun h => h.2⟩
    · simp only [List.any_cons, List.any_eq_true, Bool.and_eq_true, Bool.or_eq_true, beq_iff_eq, Bool.not_eq_true',
        beq_eq_false_iff_ne]
      refine ⟨fun ⟨r', hr', hid⟩ => ⟨Or.inr ⟨r', hr', hid⟩, ?_⟩, fun ⟨h, hne⟩ => h.resolve_left fun he => hne he.symm⟩
      exact fun he => absurd (hr r' hr') (not_lt.mpr (hid.trans he).le)

/-- The numbers of a nonterminal add up to its nodes in derivations that do not stand for variables. -/
theorem sum_countsOf (hg : g.Built) {trees : List (Node W)}
    (htrees : ∀ t ∈ trees, (∃ start, g.DerivesNode [] 0 start t) ∧ ∀ id ∈ t.variableIds, id < 0) (nt : String) :
    (g.countsOf trees nt).sum =
      (trees.flatMap Node.nodes).countP fun n => n.label.nonterminal == nt && !n.isVariable := by
  rw [countsOf_eq hg.wellStored, sum_uses trees (hg.wellStored.byAge nt)]
  refine List.countP_congr fun n hn => ?_
  obtain ⟨t, ht, hn⟩ := List.mem_flatMap.mp hn
  obtain ⟨⟨start, hderives⟩, hneg⟩ := htrees t ht
  simpa using hderives.exists_rule_iff hg hneg hn nt

/-! ## The account -/

/-- **Rule counts are an exact account of the uses of rules.** There is an entry for every nonterminal, with the uses of
its rules in their order. The numbers add up over trees in any order, and change with a tree that is put in the place of
another by the difference of the two. In trees of chains that ids have lasted for, the nodes that do not stand for
variables are those of the rules of their nonterminals, and the numbers of a nonterminal add up to how many of them it
has. -/
theorem ruleCounts_exact (hg : g.Built) :
    (∀ trees : List (Node W), (g.ruleCounts trees).map (·.1) = g.nonterminals ∧ g.nonterminals.Pairwise (· < ·) ∧
        ∀ nt, (∀ r ∈ g.rules nt, 0 ≤ r.id) ∧
          g.countsOf trees nt = (g.rules nt).map fun r =>
            (trees.flatMap Node.nodes).countP fun n => n.label.ruleId == r.id) ∧
      (∀ (trees : List (Node W)) nt k, g.countAt trees nt k = (trees.map fun t => g.countAt [t] nt k).sum) ∧
      (∀ trees trees' : List (Node W), trees.Perm trees' → g.ruleCounts trees = g.ruleCounts trees') ∧
      (∀ (before after : List (Node W)) t old new i, t.get? i = some old → ∃ t', t.replaceAt? i new = some t' ∧
        ∀ nt k, (g.countAt (before ++ t' :: after) nt k : Int) =
          g.countAt (before ++ t :: after) nt k + (g.countAt [new] nt k - g.countAt [old] nt k)) ∧
      ∀ trees : List (Node W), (∀ t ∈ trees, ∃ start k, g.Chain start k t ∧ k ≤ 2 ^ 63) →
        (∀ n ∈ trees.flatMap Node.nodes,
          n.isVariable = false ↔ ∃ r ∈ g.rules n.label.nonterminal, r.id = n.label.ruleId) ∧
        ∀ nt, (g.countsOf trees nt).sum =
          (trees.flatMap Node.nodes).countP fun n => n.label.nonterminal == nt && !n.isVariable := by
  have hstored := hg.wellStored
  have hnonneg : ∀ nt, ∀ r ∈ g.rules nt, 0 ≤ r.id := fun _ r hr => hstored.nonneg r (hstored.mem_allRules hr)
  refine ⟨fun trees => ⟨?_, hstored.grouped.ascending, fun nt => ⟨hnonneg nt, countsOf_eq hstored trees nt⟩⟩,
    fun trees nt k => ?_, fun trees trees' h => ?_, fun before after t old new i hold => ?_,
    fun trees htrees => ?_⟩
  · rw [ruleCounts, List.map_map]
    exact List.map_id _
  · simp only [countAt_eq hstored]
    cases (g.rules nt)[k]? with
    | none => simp
    | some r => exact uses_eq_sum r.id trees
  · rw [ruleCounts_eq hstored, ruleCounts_eq hstored]
    simp only [uses_perm _ h]
  · obtain ⟨t', ht', huses⟩ := uses_replaceAt? hold new
    refine ⟨t', ht', fun nt k => ?_⟩
    simp only [countAt_eq hstored]
    cases (g.rules nt)[k]? with
    | none => simp
    | some r =>
      have hr := huses r.id
      simp only [Option.map_some, Option.getD_some, uses_append, uses_cons r.id t' after, uses_cons r.id t after]
      omega
  · have hderives : ∀ t ∈ trees, (∃ start, g.DerivesNode [] 0 start t) ∧ ∀ id ∈ t.variableIds, id < 0 := by
      intro t ht
      obtain ⟨start, k, hchain, hk⟩ := htrees t ht
      exact ⟨⟨start, hchain.derives hstored⟩, fun id hid => ((hchain.numbered hstored hk).2 id hid).2⟩
    refine ⟨fun n hn => ?_, sum_countsOf hg hderives⟩
    obtain ⟨t, ht, hn⟩ := List.mem_flatMap.mp hn
    obtain ⟨⟨start, h⟩, hneg⟩ := hderives t ht
    rw [h.exists_rule_iff hg hneg hn]
    exact (and_iff_right rfl).symm

/-- Abstraction over a variable, and a constant that was removed and added again. -/
def relisted : Grammar Float where
  table := [("EXPR",
    [⟨⟨"EXPR", "lambda", .symbol "EXPR" .nil, 1.0, 1.0, ["EXPR"]⟩, 0⟩, ⟨⟨"EXPR", "unit", .nil, 1.0, 1.0, []⟩, 2⟩])]
  nextId := 3
  config := ⟨1.0, 1.0, "y"⟩

theorem built_relisted : relisted.Built :=
  have h := Built.empty (W := Float) ⟨1.0, 1.0, "y"⟩
  have h := h.add (p := ⟨"EXPR", "lambda", .symbol "EXPR" .nil, 1.0, 1.0, ["EXPR"]⟩) rfl
  have h := h.add (p := ⟨"EXPR", "unit", .nil, 1.0, 1.0, []⟩) rfl
  have h := @Built.remove Float _ _ _ "EXPR" 1 _ h rfl
  h.add (p := ⟨"EXPR", "unit", .nil, 1.0, 1.0, []⟩) rfl

/-- The constant below an abstraction, and the tree where it became the variable. -/
def relistedRun : Option (Node Float × Node Float) := do
  let t ← (relisted.generate "EXPR" [⟨0.25, 0.25⟩, ⟨0.5, 0.5⟩]).result.toOption
  let p ← (relisted.proposeWith t everyOther false [⟨0.75, 0.75⟩, ⟨0.75, 0.75⟩]).1.toOption
  return (t, p.tree)

theorem ruleIds_relistedRun : relistedRun.map (fun (t, t') =>
    (([t, t'].flatMap Node.nodes).map (·.label.ruleId), t.variableIds, t'.variableIds)) =
      some ([0, 2, 0, -1], [-1], [-1]) := by
  decide +kernel

theorem relisted_ruleCounts : ∃ t t', relisted.Chain "EXPR" 1 t ∧ relisted.Chain "EXPR" 1 t' ∧
    ([t, t'].flatMap Node.nodes).map (·.label.ruleId) = [0, 2, 0, -1] ∧
    relisted.countsOf [t, t'] "EXPR" = [2, 1] ∧ relisted.ruleCounts [t', t] = relisted.ruleCounts [t, t'] ∧
    ([t, t'].flatMap Node.nodes).countP (fun n => n.label.nonterminal == "EXPR" && !n.isVariable) = 3 := by
  obtain ⟨⟨t, t'⟩, hrun, hids⟩ := Option.map_eq_some_iff.mp ruleIds_relistedRun
  rw [relistedRun] at hrun
  obtain ⟨t₀, ht, hrun⟩ := Option.bind_eq_some_iff.mp hrun
  obtain ⟨p, hp, hrun⟩ := Option.bind_eq_some_iff.mp hrun
  cases hrun
  obtain ⟨hids, hvariables⟩ := Prod.mk.inj hids
  obtain ⟨hone, htwo⟩ := Prod.mk.inj hvariables
  have hchain : relisted.Chain "EXPR" t.variableIds.length t := .generate (eq_ok_of_toOption ht)
  have hchain' := Chain.propose hchain (eq_ok_of_toOption hp)
  rw [Node.newVariableIds, hone, htwo] at hchain'
  rw [hone] at hchain
  obtain ⟨htable, -, hperm, -, hsum⟩ := ruleCounts_exact built_relisted
  have huses : ∀ id : Int, ([t, p.tree].flatMap Node.nodes).countP (fun n => n.label.ruleId == id) =
      ([0, 2, 0, -1] : List Int).count id := by
    intro id
    rw [← hids, List.count, List.countP_map]
    rfl
  have hcounts : relisted.countsOf [t, p.tree] "EXPR" = [2, 1] := by
    rw [((htable _).2.2 "EXPR").2]
    simp only [huses]
    rfl
  have hchains : ∀ s ∈ [t, p.tree], ∃ start k, relisted.Chain start k s ∧ k ≤ 2 ^ 63 :=
    List.forall_mem_cons.mpr
      ⟨⟨_, _, hchain, by decide⟩, List.forall_mem_singleton.mpr ⟨_, _, hchain', by decide⟩⟩
  exact ⟨t, p.tree, hchain, hchain', hids, hcounts, hperm _ _ (.swap _ _ _),
    ((hsum _ hchains).2 "EXPR").symm.trans (congrArg List.sum hcounts)⟩

end Grammar

end ScopedGrammar

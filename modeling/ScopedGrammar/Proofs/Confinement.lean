import ScopedGrammar.Proofs.Chain
import ScopedGrammar.Proofs.Enumeration

/-!
# Derivations stay within what is reachable

What is found by following permanent rules bounds what generation can come to, though variables make further symbols
expandable on the way: a rule for a variable has no children, so nodes with permanent rules are reachable
(`Derives.confined`).

- `Grammar.FirstBinder` is the rule that enumeration names when it refuses a nonterminal
  (`reachableBinder?_eq_some_iff`, `enumerate_eq_binds_iff`);
- if there is none, no derivation has a variable (`DerivesNode.binds_nothing`);
- together with the exactness of the search this is `reachability_guards`.
-/

namespace ScopedGrammar.Grammar

variable {W : Type} {g : Grammar W} {start : String}

/-! ## Confinement -/

section

variable [Arith W] {bound : List (Rule W)} {depth : Nat}

/-- The nonterminals of a derivation that have permanent rules are reachable, if those that its items mention are. -/
theorem Derives.confined (hg : g.WellStored) {items : Items} {forest : Forest W}
    (h : g.Derives bound depth items forest) (hbound : ∀ b ∈ bound, b.children = .nil)
    (hitems : ∀ s ∈ items.symbols, g.isNonterminal s = true → g.Reaches start s) :
    ∀ l ∈ forest.labels, g.isNonterminal l.nonterminal = true → g.Reaches start l.nonterminal := by
  induction h with
  | nil => intro l hl; cases hl
  | leaf _ _ ih => exact ih hbound fun s hs => hitems s (List.mem_cons_of_mem _ hs)
  | seq _ _ ihi ihr =>
    intro l hl
    rw [Forest.labels_seq] at hl
    rcases List.mem_append.mp hl with hl | hl
    · exact ihi hbound (fun s hs => hitems s (List.mem_append_left _ hs)) l hl
    · exact ihr hbound (fun s hs => hitems s (List.mem_append_right _ hs)) l hl
  | @node bound depth s items r l children forest _ hr _ _ ihc ihr =>
    -- a permanent rule is one of a reachable nonterminal, and the rule of a variable mentions nothing
    have hbelow : ∀ s' ∈ r.children.symbols, g.isNonterminal s' = true → g.Reaches start s' := by
      intro s' hs' hnt
      rcases List.mem_append.mp hr.visible with hrule | hrule
      · have hs := hitems s List.mem_cons_self (hg.isNonterminal_iff.mpr (List.ne_nil_of_mem hrule))
        exact .mention hs (List.mem_flatMap.mpr ⟨r, hrule, List.mem_append_left _ hs'⟩) hnt
      · rw [hbound r (List.mem_filter.mp hrule).1] at hs'
        cases hs'
    have hintroduced : ∀ b ∈ l.introduced, b.children = .nil := by
      obtain ⟨lowest, hi⟩ := hr.introduced
      intro b hb
      obtain ⟨_, _, rfl⟩ := mem_variableRules (hi ▸ hb)
      rfl
    intro l' hl'
    rw [Forest.labels_node] at hl'
    rcases List.mem_cons.mp hl' with rfl | hl'
    · rw [hr.nonterminal, hg.nonterminal_eq_of_visible hr.visible]
      exact hitems s List.mem_cons_self
    · rcases List.mem_append.mp hl' with hl' | hl'
      · refine ihc (fun b hb => ?_) hbelow l' hl'
        rcases List.mem_append.mp hb with hb | hb
        · exact hbound b hb
        · exact hintroduced b hb
      · exact ihr hbound (fun s hs => hitems s (List.mem_cons_of_mem _ hs)) l' hl'

/-- A derivation where no variable is in scope has only reachable nonterminals and such without permanent rules. -/
theorem DerivesNode.confined (hg : g.WellStored) {t : Node W} (h : g.DerivesNode [] depth start t) :
    ∀ n ∈ t.nodes, n.label.nonterminal ∈ g.reachableFrom start ∨ g.rules n.label.nonterminal = [] := by
  intro n hn
  have hstart : ∀ s ∈ (Items.symbol start .nil).symbols, g.isNonterminal s = true → g.Reaches start s := by
    intro s hs hnt
    obtain rfl := List.mem_singleton.mp hs
    exact .start hnt
  have hall := ((derives_alone_iff hg).mpr h).confined hg (by simp) hstart
  rw [Node.labels_alone] at hall
  by_cases hnt : g.rules n.label.nonterminal = []
  · exact Or.inr hnt
  · exact Or.inl (mem_reachableFrom_iff.mpr (hall _ (List.mem_map_of_mem hn) (hg.isNonterminal_iff.mpr hnt)))

/-- An unfolding brings no variable into scope and uses none. -/
theorem Unfolds.binds_nothing (hg : g.WellStored) {level : Nat} {items : Items} {forest : Forest W}
    (h : g.Unfolds level items forest) : ∀ l ∈ forest.labels, l.introduced = [] ∧ 0 ≤ l.ruleId := by
  induction h with
  | nil => intro l hl; cases hl
  | leaf _ _ ih => exact ih
  | seq _ _ ihi ihr =>
    intro l hl
    rw [Forest.labels_seq] at hl
    rcases List.mem_append.mp hl with hl | hl
    · exact ihi l hl
    · exact ihr l hl
  | node _ hr _ _ ihc ihr =>
    intro l hl
    rw [Forest.labels_node] at hl
    rcases List.mem_cons.mp hl with rfl | hl
    · exact ⟨rfl, hg.nonneg _ (hg.mem_allRules hr)⟩
    · rcases List.mem_append.mp hl with hl | hl
      · exact ihc l hl
      · exact ihr l hl

end

/-! ## Refusals -/

variable (g start) in
/-- A rule that binds variables is the first one of its nonterminal, and no reachable nonterminal before this one in
code point order has such a rule. -/
structure FirstBinder (nt : String) (r : Rule W) : Prop where
  reaches : g.Reaches start nt
  earlier : ∀ s, g.Reaches start s → s < nt → ∀ r' ∈ g.rules s, r'.binds = []
  first : ∃ before after, g.rules nt = before ++ r :: after ∧ ∀ r' ∈ before, r'.binds = []
  binds : r.binds ≠ []

/-- What lies before an element of an ascending list are the smaller elements. -/
theorem mem_left_iff_lt {before after : List String} {a b : String} (h : (before ++ a :: after).Pairwise (· < ·))
    (hb : b ∈ before ++ a :: after) : b ∈ before ↔ b < a := by
  obtain ⟨-, hright, hacross⟩ := List.pairwise_append.mp h
  refine ⟨fun hb => hacross b hb a List.mem_cons_self, fun hlt => ?_⟩
  rcases List.mem_append.mp hb with hb | hb
  · exact hb
  · rcases List.mem_cons.mp hb with rfl | hb
    · exact absurd hlt (lt_irrefl b)
    · exact absurd hlt ((List.pairwise_cons.mp hright).1 b hb).not_gt

theorem binder_eq_none_iff {s : String} : ((g.rules s).find? (·.bindsVariables)).map (fun r => (s, r)) = none ↔
    ∀ r ∈ g.rules s, r.binds = [] := by
  simp [Production.bindsVariables]

/-- No binder is found exactly if no rule of a reachable nonterminal binds variables. -/
theorem reachableBinder?_eq_none_iff :
    g.reachableBinder? start = none ↔ ∀ nt ∈ g.reachableFrom start, ∀ r ∈ g.rules nt, r.binds = [] := by
  simp only [reachableBinder?, List.findSome?_eq_none_iff, binder_eq_none_iff]

/-- Enumeration is refused for a binder exactly if one is found. -/
theorem enumerate_eq_binds_iff {depth : Nat} {nt name : String} [Arith W] :
    g.enumerate start depth = .error (.bindsVariables nt name) ↔
      ∃ r, g.reachableBinder? start = some (nt, r) ∧ r.name = name := by
  by_cases hstart : g.isNonterminal start = true
  · rw [enumerate, if_neg (by simp [hstart])]
    cases g.reachableBinder? start with
    | none => simp
    | some first => grind
  · rw [enumerate, if_pos (by simpa using hstart), reachableBinder?, reachableFrom_eq_nil hstart]
    simp

/-- Enumeration is refused for a binder exactly if a rule of a reachable nonterminal binds variables. -/
theorem exists_enumerate_eq_binds_iff {depth : Nat} [Arith W] :
    (∃ nt name, g.enumerate start depth = .error (.bindsVariables nt name)) ↔
      ∃ nt ∈ g.reachableFrom start, ∃ r ∈ g.rules nt, r.binds ≠ [] := by
  have hfound : (∃ nt name, g.enumerate start depth = .error (.bindsVariables nt name)) ↔
      g.reachableBinder? start ≠ none := by
    simp only [enumerate_eq_binds_iff, Option.ne_none_iff_exists']
    exact ⟨fun ⟨nt, _, r, h, _⟩ => ⟨(nt, r), h⟩, fun ⟨(nt, r), h⟩ => ⟨nt, r.name, r, h, rfl⟩⟩
  rw [hfound, Ne, reachableBinder?_eq_none_iff]
  push Not
  rfl

section

variable [Arith W] (hg : g.WellStored)
include hg

/-- The reachable nonterminals are listed in code point order. -/
theorem sorted_reachableFrom (start : String) : (g.reachableFrom start).Pairwise (· < ·) :=
  hg.grouped.ascending.sublist List.filter_sublist

/-- The first binder among the reachable nonterminals is found. -/
theorem reachableBinder?_eq_some_iff {nt : String} {r : Rule W} :
    g.reachableBinder? start = some (nt, r) ↔ g.FirstBinder start nt r := by
  have hsorted := sorted_reachableFrom hg start
  rw [reachableBinder?, List.findSome?_eq_some_iff]
  constructor
  · rintro ⟨before, s, after, hsplit, hs, hbefore⟩
    obtain ⟨r', hr', he⟩ := Option.map_eq_some_iff.mp hs
    cases he
    obtain ⟨hbinds, front, back, hrules, hfront⟩ := List.find?_eq_some_iff_append.mp hr'
    rw [hsplit] at hsorted
    refine ⟨mem_reachableFrom_iff.mp (hsplit ▸ by simp), fun s hs hlt => ?_, ⟨front, back, hrules, ?_⟩, ?_⟩
    · have hmem := mem_reachableFrom_iff.mpr hs
      rw [hsplit] at hmem
      exact binder_eq_none_iff.mp (hbefore s ((mem_left_iff_lt hsorted hmem).mpr hlt))
    · simpa [Production.bindsVariables] using hfront
    · simpa [Production.bindsVariables] using hbinds
  · rintro ⟨hreaches, hearlier, ⟨front, back, hrules, hfront⟩, hbinds⟩
    obtain ⟨before, after, hsplit⟩ := List.append_of_mem (mem_reachableFrom_iff.mpr hreaches)
    have hfirst : (g.rules nt).find? (·.bindsVariables) = some r :=
      List.find?_eq_some_iff_append.mpr ⟨by simpa [Production.bindsVariables] using hbinds, front, back, hrules,
        by simpa [Production.bindsVariables] using hfront⟩
    refine ⟨before, nt, after, hsplit, by rw [hfirst]; rfl, fun s hs => binder_eq_none_iff.mpr ?_⟩
    have hmem : s ∈ before ++ nt :: after := List.mem_append_left _ hs
    rw [hsplit] at hsorted
    exact hearlier s (mem_reachableFrom_iff.mp (hsplit ▸ hmem)) ((mem_left_iff_lt hsorted hmem).mp hs)

/-- A tree whose start is not refused for a binder introduces no variable and uses none. -/
theorem DerivesNode.binds_nothing {t : Node W} (h : g.DerivesNode [] depth start t)
    (hstart : g.reachableBinder? start = none) : ∀ n ∈ t.nodes, n.label.introduced = [] ∧ n.isVariable = false := by
  have hunfolds := ((derives_alone_iff hg).mpr h).unfolds hstart rfl fun s hs hnt => by
    obtain rfl := List.mem_singleton.mp hs
    exact .start hnt
  intro n hn
  have hl := hunfolds.binds_nothing hg n.label (Node.labels_alone t ▸ List.mem_map_of_mem hn)
  exact ⟨hl.1, decide_eq_false (not_lt.mpr hl.2)⟩

end

/-! ## The guard of enumeration -/

variable [Arith W]

/-- **The search is exact, and what it finds guards enumeration.** The search from a symbol ends, and has then found the
least set that has the symbol, if it is a nonterminal, and the nonterminals that the rules of a member mention. The
nodes of generated trees have their nonterminals there, if they are not without permanent rules. Enumeration is refused
for variables exactly if a rule of a member binds some, and names the first one; if it is not, no generated tree
introduces or uses a variable. -/
theorem reachability_guards (hg : g.Built) (start : String) :
    (g.search start).stack = [] ∧ (∀ s, s ∈ (g.search start).seen ↔ g.Reaches start s) ∧
      (g.isNonterminal start = false → g.reachableFrom start = []) ∧
      (g.reachableFrom start).Pairwise (· < ·) ∧ (∀ s, s ∈ g.reachableFrom start ↔ g.Reaches start s) ∧
      (∀ draws t, (g.generate start draws).result = .ok t →
        ∀ n ∈ t.nodes, n.label.nonterminal ∈ g.reachableFrom start ∨ g.rules n.label.nonterminal = []) ∧
      ∀ depth, ((∃ nt name, g.enumerate start depth = .error (.bindsVariables nt name)) ↔
          ∃ nt ∈ g.reachableFrom start, ∃ r ∈ g.rules nt, r.binds ≠ []) ∧
        (∀ nt name, g.enumerate start depth = .error (.bindsVariables nt name) ↔
          ∃ r, g.FirstBinder start nt r ∧ r.name = name) ∧
        ((∀ nt name, g.enumerate start depth ≠ .error (.bindsVariables nt name)) →
          ∀ draws t, (g.generate start draws).result = .ok t →
            ∀ n ∈ t.nodes, n.label.introduced = [] ∧ n.isVariable = false) := by
  have hderives : ∀ draws t, (g.generate start draws).result = .ok t → g.DerivesNode [] 0 start t :=
    fun _ _ ht => generateIn_derives ht
  refine ⟨g.stack_search start, fun s => mem_seen_search_iff, fun h => reachableFrom_eq_nil (by simp [h]),
    sorted_reachableFrom hg.wellStored start, fun s => mem_reachableFrom_iff,
    fun draws t ht => (hderives draws t ht).confined hg.wellStored,
    fun depth => ⟨exists_enumerate_eq_binds_iff, ?_, ?_⟩⟩
  · intro nt name
    simp only [enumerate_eq_binds_iff, reachableBinder?_eq_some_iff hg.wellStored]
  · intro haccepted draws t ht
    refine (hderives draws t ht).binds_nothing hg.wellStored (Option.eq_none_iff_forall_ne_some.mpr ?_)
    rintro ⟨nt, r⟩ hr
    exact haccepted nt r.name (enumerate_eq_binds_iff.mpr ⟨r, hr, rfl⟩)

/-- Pairs that come back to themselves inside a sequence, a binder of a symbol without rules, and numbers, to which
neither leads. -/
def knots : Grammar Float where
  table := [("NUM",
    [⟨⟨"NUM", "zero", .nil, 1.0, 1.0, []⟩, 3⟩,
      ⟨⟨"NUM", "succ", .symbol "NUM" .nil, 1.0, 1.0, []⟩, 4⟩]),
    ("PAIR",
    [⟨⟨"PAIR", "pair", .seq (.symbol "PAIR" (.symbol "USE" .nil)) .nil, 1.0, 1.0, []⟩, 0⟩,
      ⟨⟨"PAIR", "stop", .nil, 1.0, 1.0, []⟩, 1⟩]),
    ("USE",
    [⟨⟨"USE", "let", .symbol "VAR" (.symbol "PAIR" .nil), 1.0, 1.0, ["VAR", "PAIR"]⟩, 2⟩])]
  nextId := 5
  config := ⟨1.0, 1.0, "y"⟩

theorem built_knots : knots.Built :=
  have h := Built.empty (W := Float) ⟨1.0, 1.0, "y"⟩
  have h := h.add (p := ⟨"PAIR", "pair", .seq (.symbol "PAIR" (.symbol "USE" .nil)) .nil, 1.0, 1.0, []⟩) rfl
  have h := h.add (p := ⟨"PAIR", "stop", .nil, 1.0, 1.0, []⟩) rfl
  have h := h.add (p := ⟨"USE", "let", .symbol "VAR" (.symbol "PAIR" .nil), 1.0, 1.0, ["VAR", "PAIR"]⟩) rfl
  have h := h.add (p := ⟨"NUM", "zero", .nil, 1.0, 1.0, []⟩) rfl
  h.add (p := ⟨"NUM", "succ", .symbol "NUM" .nil, 1.0, 1.0, []⟩) rfl

/-- A pair where the rule of a variable builds the fourth node, whose nonterminal has no permanent rules. -/
def knotDraws : List (Draw Float) := [⟨0.25, 0.25⟩, ⟨0.75, 0.75⟩, ⟨0.5, 0.5⟩, ⟨0.5, 0.5⟩, ⟨0.75, 0.75⟩]

theorem nonterminals_knotDraws : (knots.generate "PAIR" knotDraws).result.toOption.map
    (·.nodes.map (·.label.nonterminal)) = some ["PAIR", "PAIR", "USE", "VAR", "PAIR"] := by
  decide +kernel

theorem knots_guarded : knots.reachableFrom "PAIR" = ["PAIR", "USE"] ∧
    (∃ t, (knots.generate "PAIR" knotDraws).result = .ok t ∧
      t.nodes.map (·.label.nonterminal) = ["PAIR", "PAIR", "USE", "VAR", "PAIR"] ∧
      ∀ n ∈ t.nodes, n.label.nonterminal ∈ knots.reachableFrom "PAIR" ∨ knots.rules n.label.nonterminal = []) ∧
    (∃ r, knots.FirstBinder "PAIR" "USE" r ∧ r.name = "let") ∧
    ∀ draws t, (knots.generate "NUM" draws).result = .ok t →
      ∀ n ∈ t.nodes, n.label.introduced = [] ∧ n.isVariable = false := by
  obtain ⟨-, -, -, -, -, hconfined, hpairs⟩ := reachability_guards built_knots "PAIR"
  obtain ⟨-, -, -, -, -, -, hnumbers⟩ := reachability_guards built_knots "NUM"
  obtain ⟨t, ht, hnodes⟩ := Option.map_eq_some_iff.mp nonterminals_knotDraws
  have hgenerated : (knots.generate "PAIR" knotDraws).result = .ok t := eq_ok_of_toOption ht
  refine ⟨by decide +kernel, ⟨t, hgenerated, hnodes, hconfined _ _ hgenerated⟩, ?_, ?_⟩
  · exact ((hpairs 3).2.1 "USE" "let").mp rfl
  · exact (hnumbers 3).2.2 fun nt name h => nomatch h

end ScopedGrammar.Grammar

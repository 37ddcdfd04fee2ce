import Mathlib.Data.List.Forall2
import ScopedGrammar.Arith.Binary64
import ScopedGrammar.Enumeration

/-!
# The order of enumeration

The plain definition of what is enumerated is a recursion on the depth that knows neither odometers nor laziness
(`Grammar.listing`): one tree for each rule without nonterminals, then, for each other rule, one tree for each element
of the product of the lists of its children. The product is taken in lexicographic order (`mem_product`,
`pairwise_product`). Trees are enumerated in exactly this order, whichever number of them is asked for
(`Grammar.enumerate_listing`).
-/

namespace ScopedGrammar

/-! ## Products -/

section

variable {α : Type}

theorem mem_product {row : List α} {ls : List (List α)} : row ∈ product ls ↔ List.Forall₂ (· ∈ ·) row ls := by
  induction ls generalizing row with
  | nil => simp [product]
  | cons l rest ih =>
    simp only [product, List.mem_flatMap, List.mem_map, ih]
    constructor
    · rintro ⟨a, ha, row, hrow, rfl⟩
      exact .cons ha hrow
    · rintro (_ | ⟨ha, hrow⟩)
      exact ⟨_, ha, _, hrow, rfl⟩

/-- The product of lists in order is in lexicographic order: what stands further left counts for more. -/
theorem pairwise_product {r : α → α → Prop} {ls : List (List α)} (h : ∀ l ∈ ls, l.Pairwise r) :
    (product ls).Pairwise (List.Lex r) := by
  induction ls with
  | nil => exact List.pairwise_singleton _ _
  | cons l rest ih =>
    obtain ⟨hl, hrest⟩ := List.forall_mem_cons.mp h
    refine List.pairwise_flatMap.mpr ⟨fun a _ => ?_, hl.imp fun {a b} hab => ?_⟩
    · exact List.pairwise_map.mpr ((ih hrest).imp .cons)
    · intro row hrow row' hrow'
      obtain ⟨_, _, rfl⟩ := List.mem_map.mp hrow
      obtain ⟨_, _, rfl⟩ := List.mem_map.mp hrow'
      exact .rel hab

end

namespace Grammar

variable {W : Type} [Arith W]

/-! ## The plain definition -/

/-- For each item the list of what can stand in its place: the trees of a nonterminal, the leaf of a terminal, or the
product of what can stand inside a sequence. -/
def childLists (g : Grammar W) (lists : String → List (Node W)) : Items → List (List (Child W))
  | .nil => []
  | .symbol s rest => (if g.isNonterminal s then (lists s).map .node else [.leaf s]) :: g.childLists lists rest
  | .seq inside rest =>
    (product (g.childLists lists inside)).map (fun row => .seq (Forest.ofList row)) :: g.childLists lists rest

/-- The trees of one rule, in the order of their children. -/
def ruleListing (g : Grammar W) (lists : String → List (Node W)) (level : Nat) (nonterminal : String) (r : Rule W) :
    List (Node W) :=
  (product (g.childLists lists r.children)).map fun row => g.plainNode level nonterminal r (Forest.ofList row)

/-- The trees of a nonterminal up to a depth. -/
def listing (g : Grammar W) : Nat → Nat → String → List (Node W)
  | 0, level, nonterminal => g.terminalTrees level nonterminal
  | depth + 1, level, nonterminal =>
    g.terminalTrees level nonterminal ++
      ((g.rules nonterminal).filter (!g.producesTerminals ·.toProduction)).flatMap
        (g.ruleListing (g.listing depth (level + 1)) level nonterminal)

variable {g : Grammar W}

/-- A rule with an item that nothing can stand for has no trees. -/
theorem ruleListing_eq_nil {lists : String → List (Node W)} {level : Nat} {nonterminal : String} {r : Rule W}
    (h : [] ∈ g.childLists lists r.children) : g.ruleListing lists level nonterminal r = [] := by
  rw [ruleListing, product_eq_nil h, List.map_nil]

/-! ## What the odometers show -/

omit [Arith W] in
/-- The sources of an odometer are the lists of what can stand for the items. -/
theorem toList_choices (g : Grammar W) (expansions : String → LazyList (Node W)) (items : Items) :
    ((g.choices expansions items).map fun source => (source ()).toList) =
      g.childLists (fun s => (expansions s).toList) items := by
  induction items with
  | nil => rfl
  | symbol s rest ih =>
    rw [choices, childLists, List.map_cons, ih]
    split
    · rw [LazyList.toList_map]
    · rfl
  | seq inside rest ihi ihr =>
    rw [choices, childLists, List.map_cons, LazyList.toList_map, Odometer.toList_rows_start, ihi, ihr]

theorem toList_treesFrom (g : Grammar W) (budget level : Nat) (nonterminal : String) :
    (g.treesFrom budget level nonterminal).toList = g.listing budget level nonterminal := by
  induction budget generalizing level nonterminal with
  | zero => rw [treesFrom, LazyList.toList_ofList, listing]
  | succ budget ih =>
    simp only [treesFrom, listing, LazyList.toList_append, LazyList.toList_ofList, LazyList.toList_flatMap,
      LazyList.toList_map, Odometer.toList_rows_start, toList_choices, ih]
    rfl

/-- **Trees are enumerated in the order of the plain definition.** All of them together are its list, and the first
ones that are asked for are the first ones of this list. A rule with an item that nothing can stand for adds none. -/
theorem enumerate_listing {start : String} {depth : Nat} {trees : Unit → LazyList (Node W)}
    (h : g.enumerate start depth = .ok trees) :
    (trees ()).toList = g.listing depth 0 start ∧
      (∀ n, LazyList.firsts n trees = (g.listing depth 0 start).take n) ∧
      ∀ budget level nonterminal (r : Rule W), [] ∈ g.childLists (g.listing budget (level + 1)) r.children →
        g.ruleListing (g.listing budget (level + 1)) level nonterminal r = [] := by
  have hlist : (trees ()).toList = g.listing depth 0 start := by
    unfold enumerate at h
    split at h
    · cases h
    · split at h
      · cases h
      · cases h
        exact toList_treesFrom g depth 0 start
  refine ⟨hlist, fun n => ?_, fun _ _ _ _ => ruleListing_eq_nil⟩
  rw [LazyList.firsts_eq_take, hlist]

/-- Lists in brackets, with a rule that never comes to an end. -/
def brackets : Grammar Float where
  table := [("CYCLE", [⟨⟨"CYCLE", "again", .symbol "CYCLE" .nil, 1.0, 1.0, []⟩, 3⟩]),
    ("LIST",
      [⟨⟨"LIST", "empty", .nil, 1.0, 1.0, []⟩, 0⟩,
        ⟨⟨"LIST", "pair", .symbol "LIST" (.seq (.symbol "comma" (.symbol "LIST" .nil)) .nil), 1.0, 1.0, []⟩, 1⟩,
        ⟨⟨"LIST", "cycle", .seq (.symbol "CYCLE" .nil) .nil, 1.0, 1.0, []⟩, 2⟩])]
  nextId := 4
  config := ⟨10.0, 1.0, "y"⟩

theorem brackets_enumerate_listing : ∃ trees, brackets.enumerate "LIST" 3 = .ok trees ∧
    [] ∈ brackets.childLists (brackets.listing 2 1) (.seq (.symbol "CYCLE" .nil) .nil) ∧
    (brackets.listing 3 0 "LIST").length = 26 ∧ (trees ()).toList = brackets.listing 3 0 "LIST" ∧
      (∀ n, LazyList.firsts n trees = (brackets.listing 3 0 "LIST").take n) ∧
      ∀ budget level nonterminal (r : Rule Float),
        [] ∈ brackets.childLists (brackets.listing budget (level + 1)) r.children →
          brackets.ruleListing (brackets.listing budget (level + 1)) level nonterminal r = [] := by
  have h : brackets.enumerate "LIST" 3 = .ok fun _ => brackets.treesFrom 3 0 "LIST" := rfl
  refine ⟨_, h, ?_, ?_, enumerate_listing h⟩
  · exact List.mem_cons_self
  · decide +kernel

end Grammar

end ScopedGrammar

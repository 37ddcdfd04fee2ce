import Mathlib.Logic.Function.Basic
import ScopedGrammar.Enumeration

/-!
# Enumeration as nested loops

What the odometers enumerate, told without them: the trees of a nonterminal (`Grammar.trees`) by a recursion that
combines the trees for the first symbol of a right-hand side with everything that can stand for the rest of it
(`Grammar.fillings`). The two are equal as lists made on demand (`Grammar.treesFrom_eq`), since such a list is no more
than the list of its elements.
-/

namespace ScopedGrammar

variable {W : Type} [Arith W]

namespace LazyList

variable {α β : Type}

/-- Every combination of an element of one list with an element of another, the second changing faster. The first list
is made only if the second has an element. -/
def combine {γ : Type} (f : α → β → γ) (xs : Unit → LazyList α) : LazyList β → LazyList γ
  | nil => nil
  | cons b tail => flatMap (fun a => map (f a) (cons b tail)) (xs ())

@[simp] theorem toList_combine {γ : Type} (f : α → β → γ) (xs : Unit → LazyList α) (ys : LazyList β) :
    (combine f xs ys).toList = (xs ()).toList.flatMap fun a => ys.toList.map (f a) := by
  cases ys with
  | nil => simp [combine, toList]
  | cons b tail => simp only [combine, toList_flatMap, toList_map]

/-- A list made on demand is told by its elements. -/
theorem toList_injective : Function.Injective (toList (α := α)) := by
  intro xs ys h
  induction xs generalizing ys with
  | nil =>
    cases ys with
    | nil => rfl
    | cons b tail => cases h
  | cons a tail ih =>
    cases ys with
    | nil => cases h
    | cons b tail' =>
      obtain ⟨rfl, ht⟩ := List.cons.inj h
      rw [funext fun u => ih u ht]

end LazyList

namespace Grammar

/-- Every list of children for a right-hand side, given the trees of the nonterminals on it. -/
def fillings (g : Grammar W) (expansions : String → LazyList (Node W)) : Items → LazyList (Forest W)
  | .nil => .cons .nil fun _ => .nil
  | .symbol s rest =>
    if g.isNonterminal s then
      LazyList.combine (fun (n : Node W) rest => .node n.label n.children rest) (fun _ => expansions s)
        (g.fillings expansions rest)
    else (g.fillings expansions rest).map (.leaf s)
  | .seq inside rest =>
    LazyList.combine .seq (fun _ => g.fillings expansions inside) (g.fillings expansions rest)

/-- The trees of a nonterminal at a level, with nonterminals nested below it as deep as the budget. -/
def trees (g : Grammar W) : Nat → Nat → String → LazyList (Node W)
  | 0, level, nonterminal => .ofList (g.terminalTrees level nonterminal)
  | budget + 1, level, nonterminal =>
    let others := (g.rules nonterminal).filter (!g.producesTerminals ·.toProduction)
    LazyList.append (.ofList (g.terminalTrees level nonterminal)) fun _ =>
      (LazyList.ofList others).flatMap fun r =>
        (g.fillings (g.trees budget (level + 1)) r.children).map (g.plainNode level nonterminal r)

omit [Arith W] in
/-- The rows that an odometer shows for a right-hand side are the lists of children for it. -/
theorem toList_fillings (g : Grammar W) (expansions : String → LazyList (Node W)) (items : Items) :
    (g.fillings expansions items).toList =
      (Odometer.start (g.choices expansions items)).rows.toList.map Forest.ofList := by
  rw [Odometer.toList_rows_start]
  induction items with
  | nil => rfl
  | symbol s rest ih =>
    rw [fillings, choices, List.map_cons, product]
    split
    · simp only [LazyList.toList_combine, ih, LazyList.toList_map, List.map_flatMap, List.flatMap_map, List.map_map]
      rfl
    · simp only [LazyList.toList_map, ih, LazyList.toList, List.flatMap_cons, List.flatMap_nil, List.append_nil,
        List.map_map]
      rfl
  | seq inside rest ihi ihr =>
    rw [fillings, choices, List.map_cons, product]
    simp only [LazyList.toList_combine, ihi, ihr, LazyList.toList_map, Odometer.toList_rows_start, List.map_flatMap,
      List.flatMap_map, List.map_map]
    rfl

/-- **What the odometers enumerate is what the nested loops give.** -/
theorem treesFrom_eq (g : Grammar W) : g.treesFrom = g.trees := by
  funext budget
  induction budget with
  | zero => rfl
  | succ budget ih =>
    funext level nonterminal
    refine LazyList.toList_injective ?_
    simp only [treesFrom, trees, LazyList.toList_append, LazyList.toList_ofList, LazyList.toList_flatMap,
      LazyList.toList_map, toList_fillings, ih, List.map_map]
    rfl

/-- All trees up to a depth, as the nested loops give them. -/
theorem enumerate_eq (g : Grammar W) (nonterminal : String) (depth : Nat) :
    g.enumerate nonterminal depth =
      if !g.isNonterminal nonterminal then .error (.notANonterminal nonterminal)
      else
        match g.reachableBinder? nonterminal with
        | some (nt, r) => .error (.bindsVariables nt r.name)
        | none => .ok fun _ => g.trees depth 0 nonterminal := by
  rw [← treesFrom_eq]
  rfl

end Grammar

end ScopedGrammar

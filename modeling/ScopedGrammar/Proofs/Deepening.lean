import Mathlib.Data.List.Flatten
import ScopedGrammar.Proofs.Listing

/-!
# Deeper enumerations

A greater depth leaves the trees of a smaller one in their order and puts others between them, in front of them and
behind them (`Grammar.enumerate_sublist`). The lists of what can stand for the items of a right-hand side grow in this
way (`Grammar.childLists_sublist`), and so do their products (`product_sublist`) and the listing of a nonterminal from
one depth to the next (`Grammar.listing_sublist_succ`).
-/

namespace ScopedGrammar

/-- A product keeps its rows and their order when elements are put into the lists. -/
theorem product_sublist {α : Type} {ls ls' : List (List α)} (h : List.Forall₂ List.Sublist ls ls') :
    (product ls).Sublist (product ls') := by
  induction h with
  | nil => exact .refl _
  | @cons l l' rest rest' hl _ ih =>
    have hrows : (product (l :: rest)).Sublist (l.flatMap fun a => (product rest').map (a :: ·)) :=
      .flatMap_right l fun a _ => ih.map (a :: ·)
    exact hrows.trans (hl.flatMap _)

namespace Grammar

variable {W : Type} [Arith W] {g : Grammar W}

omit [Arith W] in
/-- What can stand for each item grows with the trees of the nonterminals. The inside of a sequence is a product of its
own. -/
theorem childLists_sublist {lists lists' : String → List (Node W)} (h : ∀ s, (lists s).Sublist (lists' s)) :
    ∀ items : Items, List.Forall₂ List.Sublist (g.childLists lists items) (g.childLists lists' items)
  | .nil => .nil
  | .symbol s rest => by
    refine .cons ?_ (childLists_sublist h rest)
    split
    · exact (h s).map _
    · exact .refl _
  | .seq inside rest => .cons ((product_sublist (childLists_sublist h inside)).map _) (childLists_sublist h rest)

theorem ruleListing_sublist {lists lists' : String → List (Node W)} (h : ∀ s, (lists s).Sublist (lists' s))
    (level : Nat) (nonterminal : String) (r : Rule W) :
    (g.ruleListing lists level nonterminal r).Sublist (g.ruleListing lists' level nonterminal r) :=
  (product_sublist (childLists_sublist h r.children)).map _

/-- One more step of depth keeps the trees that were listed. The trees without nonterminals below them come first at
every depth, so only the others have to be compared. -/
theorem listing_sublist_succ : ∀ (depth level : Nat) (nonterminal : String),
    (g.listing depth level nonterminal).Sublist (g.listing (depth + 1) level nonterminal)
  | 0, _, _ => List.sublist_append_left _ _
  | depth + 1, level, nonterminal => by
    have hbelow : ∀ s, (g.listing depth (level + 1) s).Sublist (g.listing (depth + 1) (level + 1) s) :=
      listing_sublist_succ depth (level + 1)
    exact List.Sublist.append (.refl _) (.flatMap_right _ fun r _ => ruleListing_sublist hbelow level nonterminal r)

theorem listing_sublist {depth depth' : Nat} (h : depth ≤ depth') (level : Nat) (nonterminal : String) :
    (g.listing depth level nonterminal).Sublist (g.listing depth' level nonterminal) := by
  induction h with
  | refl => exact .refl _
  | step _ ih => exact ih.trans (listing_sublist_succ _ level nonterminal)

/-- **A greater depth drops no tree and keeps their order.** Whether a nonterminal is refused does not depend on the
depth, and the trees up to a smaller depth are found among those up to a greater one in the same order. -/
theorem enumerate_sublist {start : String} {depth depth' : Nat} (hle : depth ≤ depth')
    {trees : Unit → LazyList (Node W)} (h : g.enumerate start depth = .ok trees) :
    ∃ trees', g.enumerate start depth' = .ok trees' ∧ (trees ()).toList.Sublist (trees' ()).toList := by
  unfold enumerate at h ⊢
  split at h
  · cases h
  · rename_i hstart
    split at h
    · cases h
    · cases h
      refine ⟨fun _ => g.treesFrom depth' 0 start, if_neg hstart, ?_⟩
      rw [toList_treesFrom, toList_treesFrom]
      exact listing_sublist hle 0 start

theorem brackets_enumerate_sublist : ∃ trees trees', brackets.enumerate "LIST" 2 = .ok trees ∧
    brackets.enumerate "LIST" 3 = .ok trees' ∧ (trees ()).toList.map Node.size = [1, 3, 5, 5, 7] ∧
      (trees' ()).toList.length = 26 ∧ ((trees' ()).toList.take 5).map Node.size = [1, 3, 5, 7, 7] ∧
        (trees ()).toList.Sublist (trees' ()).toList := by
  have h : brackets.enumerate "LIST" 2 = .ok fun _ => brackets.treesFrom 2 0 "LIST" := rfl
  have h' : brackets.enumerate "LIST" 3 = .ok fun _ => brackets.treesFrom 3 0 "LIST" := rfl
  obtain ⟨trees', htrees', hsublist⟩ := enumerate_sublist (Nat.le_succ 2) h
  cases h'.symm.trans htrees'
  exact ⟨_, _, h, h', by decide +kernel, by decide +kernel, by decide +kernel, hsublist⟩

end Grammar

end ScopedGrammar

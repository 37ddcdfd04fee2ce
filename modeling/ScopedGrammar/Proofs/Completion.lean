import ScopedGrammar.Proofs.Drawing
import ScopedGrammar.Proofs.Progress
import ScopedGrammar.Proofs.Signs.Binary64

/-!
# Generation from a valid grammar runs through

In a scope that holds variables only, generation is refused exactly for a symbol without visible rules. For any other
symbol it ends with a tree as soon as the draws have picked the rules of one, and asks for more draws until then
(`generateIn_completes`). It stops for no other reason, unless weights overflow.

`Grammar.OverflowsFrom` says that in a scope that generation comes to, the visible weights have no finite total.
-/

namespace ScopedGrammar

variable {W : Type}

namespace Grammar

/-! ## What a run comes to -/

variable [Arith W] {g : Grammar W} {scope : Scope W} {base bound : List (Rule W)} {s : String}

variable (g base) in
/-- In a scope that generation comes to where some rules are bound, the visible weights of a nonterminal add up to no
finite number. -/
def OverflowsFrom : Prop := ∃ bound s, g.Deepens base bound ∧ g.isNonterminalIn bound s = true ∧
  Arith.isFinite (g.visibleTotal bound s) = false

/-- Nonterminals are the symbols with a visible rule. -/
theorem visible_eq_nil_iff (hg : g.WellStored) : g.visible bound s = [] ↔ g.isNonterminalIn bound s = false := by
  constructor
  · intro h
    exact Bool.eq_false_iff.mpr fun hs => visible_ne_nil hg hs h
  · intro h
    refine List.eq_nil_iff_forall_not_mem.mpr fun r hr => ?_
    rw [isNonterminalIn_of_visible hg hr] at h
    cases h

/-- Nothing is drawn, and no id is used up, for a symbol without visible rules. -/
theorem generateIn_terminal (hs : g.isNonterminalIn scope.rules s = false) (depth : Nat) (draws : List (Draw W)) :
    g.generateIn s depth scope draws = ⟨.error (.error (.notANonterminal s)), scope, draws⟩ := by
  rw [generateIn_eq, expand_terminal hs]
  rfl

/-! ## Runs of generation -/

variable [Arith.Signed W]

/-- **Generation from a valid grammar runs through.** In a scope that holds variables only, it is refused exactly for a
symbol without visible rules. Otherwise it gives a tree, unless the draws are used up or visible weights overflow. It
gives a tree exactly if this is a derivation with variables that are numbered on, and the first draws pick, node by
node in preorder, the indices of its rules among the visible ones. -/
theorem generateIn_completes (hg : g.Built) (hw : Arith.isPositive g.config.weight = true)
    (hscope : ∀ r ∈ scope.rules, g.IsVariable r) (s : String) (depth : Nat) :
    (g.visible scope.rules s = [] → ∀ draws,
      g.generateIn s depth scope draws = ⟨.error (.error (.notANonterminal s)), scope, draws⟩) ∧
    (g.visible scope.rules s ≠ [] → ∀ draws, let run := g.generateIn s depth scope draws
      ((∃ t, run.result = .ok t) ∨ (run.result = .error .noDraw ∧ run.draws = []) ∨
        (run.result = .error .infiniteTotal ∧ g.OverflowsFrom scope.rules)) ∧
      ∀ t, run.result = .ok t ↔ g.DerivesNode scope.rules depth s t ∧
        t.variableIds = countdown scope.lowest t.variableIds.length ∧
          ∃ used rest, draws = used ++ rest ∧ List.Forall₂ (g.PicksIndex scope.rules depth) used t.places) := by
  have hstored := hg.wellStored
  refine ⟨fun h => generateIn_terminal ((visible_eq_nil_iff hstored).mp h) depth, fun h draws => ⟨?_, fun t => ?_⟩⟩
  · have hs : g.isNonterminalIn scope.rules s = true :=
      Bool.not_eq_false _ ▸ fun hs => h ((visible_eq_nil_iff hstored).mpr hs)
    rcases generateIn_cases hstored hw hscope hs depth draws with hok | ⟨e, he, hstops⟩
    · exact .inl hok
    · rw [he]
      generalize (g.generateIn s depth scope draws).draws = left at hstops ⊢
      cases hstops with
      | noDraw => exact .inr (.inl ⟨rfl, rfl⟩)
      | infiniteTotal hbound hs hinfinite => exact .inr (.inr ⟨rfl, _, _, hbound, hs, hinfinite⟩)
  · exact generateIn_eq_ok_iff hstored

/-- Two variables were bound, and the inner one was dropped again. -/
def abstractionsScope : Scope Float :=
  (abstractions.bindVariable (abstractions.bindVariable Scope.empty "EXPR" 1) "EXPR" 2).truncate 1

theorem stocks_abstractionsScope : abstractions.Stocks abstractionsScope :=
  ((Stocks.empty.bind "EXPR" 1 (by decide)).bind "EXPR" 2 (by decide)).truncate 1

theorem ruleIds_generateIn_abstractionsScope :
    ((abstractions.generateIn "EXPR" 1 abstractionsScope [⟨0.25, 0.25⟩, ⟨0.875, 0.875⟩]).result.toOption).map
      (·.nodes.map (·.label.ruleId)) = some [0, -3] := by
  decide +kernel

/-- The third id is that of the variable of the abstraction, which is the last of four rules at its use. -/
theorem abstractions_completes : (∀ r ∈ abstractionsScope.rules, abstractions.IsVariable r) ∧
    abstractions.generateIn "INT" 1 abstractionsScope [⟨0.25, 0.25⟩] =
      ⟨.error (.error (.notANonterminal "INT")), abstractionsScope, [⟨0.25, 0.25⟩]⟩ ∧
    ∃ t used rest, abstractions.DerivesNode abstractionsScope.rules 1 "EXPR" t ∧
      t.nodes.map (·.label.ruleId) = [0, -3] ∧ [⟨0.25, 0.25⟩, ⟨0.875, 0.875⟩] = used ++ rest ∧
        List.Forall₂ (abstractions.PicksIndex abstractionsScope.rules 1) used t.places := by
  have hall := generateIn_completes built_abstractions (by decide +kernel) stocks_abstractionsScope.isVariable
  have hno : abstractions.visible abstractionsScope.rules "INT" = [] := by decide +kernel
  have hyes : abstractions.visible abstractionsScope.rules "EXPR" ≠ [] := by decide +kernel
  obtain ⟨t, ht, hids⟩ := Option.map_eq_some_iff.mp ruleIds_generateIn_abstractionsScope
  obtain ⟨hderives, -, used, rest, hdraws, hpicks⟩ := (((hall "EXPR" 1).2 hyes _).2 t).mp (eq_ok_of_toOption ht)
  exact ⟨stocks_abstractionsScope.isVariable, (hall "INT" 1).1 hno _, t, used, rest, hderives, hids, hdraws, hpicks⟩

end Grammar

end ScopedGrammar

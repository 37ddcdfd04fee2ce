import ScopedGrammar.Proofs.Derivation
import ScopedGrammar.Proofs.Signs

/-!
# Generation meets no error

Where all weights are positive, generation from a nonterminal meets no error of the grammar: it always has rules to draw
from (`ofList_visible`), and the children that are expanded are nonterminals in the scope they stand in. It stops for two
reasons only (`Grammar.Stops`). The draws are used up, or in a scope that it comes to (`Grammar.Deepens`) the visible
weights add up to no finite number. `Generator.Proceeds` says this of a generator, is kept by sequences
(`Proceeds.bind`), and so goes from the choice of a rule to whole trees (`Grammar.proceeds_expand`).
-/

namespace ScopedGrammar

variable {W α β : Type}

/-! ## Generators that proceed -/

namespace Generator

/-- From a supply of at most so many draws, a generator gives a result or stops for certain reasons, each of which may
depend on the draws that are left. It gives no draw back. -/
def Proceeds (stops : Failure W → List (Draw W) → Prop) (fuel : Nat) (gen : Generator W α) : Prop :=
  ∀ supply : Supply W, supply.draws.length ≤ fuel →
    match gen.run.run supply with
    | (.ok _, left) => left.draws.length ≤ fuel
    | (.error e, left) => stops e left.draws

variable {stops : Failure W → List (Draw W) → Prop} {fuel : Nat}

theorem proceeds_pure (a : α) : Proceeds stops fuel (pure a : Generator W α) := fun _ hdraws => hdraws

theorem Proceeds.bind {gen : Generator W α} {f : α → Generator W β} (hgen : gen.Proceeds stops fuel)
    (hf : ∀ a, (f a).Proceeds stops fuel) : (gen >>= f).Proceeds stops fuel := by
  intro supply hdraws
  have h := hgen supply hdraws
  rcases hrun : gen.run.run supply with ⟨e | a, left⟩
  · rw [run_bind_error hrun]
    rwa [hrun] at h
  · rw [hrun] at h
    rw [run_bind_ok hrun]
    exact hf a left h

end Generator

namespace Grammar

open Generator

variable [Arith W]

/-! ## Why generation stops -/

/-- The scopes that generation comes to where some rules are bound: below every node, the variables of a visible rule
come to those in scope. -/
inductive Deepens (g : Grammar W) (base : List (Rule W)) : List (Rule W) → Prop
  | here : Deepens g base base
  | deeper {bound : List (Rule W)} {s : String} {r : Rule W} {depth : Nat} {lowest : Int} : Deepens g base bound →
      r ∈ g.visible bound s → Deepens g base (bound ++ g.variableRules depth r.binds lowest)

/-- Why generation stops where some rules are bound, and with which draws left: the draws are used up, or the weights
that are visible in a scope below add up to no finite number. -/
inductive Stops (g : Grammar W) (base : List (Rule W)) : Failure W → List (Draw W) → Prop
  | noDraw : Stops g base .noDraw []
  | infiniteTotal {bound : List (Rule W)} {s : String} {left : List (Draw W)} : g.Deepens base bound →
      g.isNonterminalIn bound s = true → Arith.isFinite (g.visibleTotal bound s) = false →
        Stops g base .infiniteTotal left

variable {g : Grammar W} {base bound : List (Rule W)} {s : String} {fuel : Nat}

omit [Arith W] in
/-- In every scope below are only rules for variables, if there are only such rules around. -/
theorem Deepens.isVariable (h : g.Deepens base bound) (hbase : ∀ b ∈ base, g.IsVariable b) :
    ∀ b ∈ bound, g.IsVariable b := by
  induction h with
  | here => exact hbase
  | deeper _ _ ih =>
    intro b hb
    rcases List.mem_append.mp hb with hb | hb
    · exact ih b hb
    · exact isVariable_of_mem_variableRules hb

/-- A nonterminal has visible rules. -/
theorem visible_ne_nil (hg : g.WellStored) (hs : g.isNonterminalIn bound s = true) : g.visible bound s ≠ [] := by
  unfold isNonterminalIn at hs
  rcases Bool.or_eq_true_iff.mp hs with hs | hs
  · exact List.append_ne_nil_of_left_ne_nil (hg.isNonterminal_iff.mp hs) _
  · obtain ⟨r, hr, hnt⟩ := List.any_eq_true.mp hs
    exact List.ne_nil_of_mem (List.mem_append_right _ (List.mem_filter.mpr ⟨hr, hnt⟩))

/-! ## Generation proceeds -/

variable [Arith.Signed W]

/-- The visible rules of a nonterminal are a distribution, or their weights overflow. -/
theorem ofList_visible (hg : g.WellStored) (hw : Arith.isPositive g.config.weight = true)
    (hbound : ∀ b ∈ bound, g.IsVariable b) (hs : g.isNonterminalIn bound s = true) :
    (∃ c, Categorical.ofList (·.weight) (g.visible bound s) = .ok c) ∨
      Categorical.ofList (·.weight) (g.visible bound s) = .error .infiniteTotal ∧
        Arith.isFinite (g.visibleTotal bound s) = false :=
  Categorical.ofList_positive (visible_ne_nil hg hs) fun _ hr =>
    Arith.pos_of_isPositive (isPositive_of_visible hg hw hbound hr)

/-- Drawing a rule uses a draw, after which the rest proceeds with one draw less. -/
theorem proceeds_drawRule_bind (hg : g.WellStored) (hw : Arith.isPositive g.config.weight = true)
    (hbase : ∀ b ∈ base, g.IsVariable b) (hbound : g.Deepens base bound) (hs : g.isNonterminalIn bound s = true)
    {f : Rule W × W → Generator W α}
    (hf : ∀ fuel', fuel = fuel' + 1 → ∀ drawn : Rule W × W, drawn.1 ∈ g.visible bound s →
      (f drawn).Proceeds (g.Stops base) fuel') :
    (g.drawRule bound s >>= f).Proceeds (g.Stops base) fuel := by
  rintro ⟨lowest, draws⟩ hdraws
  rcases ofList_visible hg hw (hbound.isVariable hbase) hs with ⟨c, hc⟩ | ⟨hc, hinfinite⟩
  · cases draws with
    | nil =>
      have hrun : (g.drawRule bound s).run.run ⟨lowest, []⟩ = (.error .noDraw, ⟨lowest, []⟩) := by
        unfold drawRule
        rw [hc]
        rfl
      rw [run_bind_error hrun]
      exact .noDraw
    | cons d rest =>
      obtain ⟨drawn, hgives, hvisible⟩ : ∃ drawn : Rule W × W,
          (g.drawRule bound s).Gives ⟨lowest, d :: rest⟩ drawn ⟨lowest, rest⟩ ∧ drawn.1 ∈ g.visible bound s :=
        have hgives := gives_drawRule_of_eq_ok hc lowest d rest
        ⟨_, hgives, (gives_drawRule_visible hgives).1⟩
      obtain ⟨fuel', rfl⟩ : ∃ fuel', fuel = fuel' + 1 := ⟨fuel - 1, by simp at hdraws; omega⟩
      have h := hf fuel' rfl drawn hvisible ⟨lowest, rest⟩ (by simpa using hdraws)
      rw [run_bind_ok hgives]
      split
      · rename_i hrun
        rw [hrun] at h
        exact Nat.le_succ_of_le h
      · rename_i hrun
        rwa [hrun] at h
  · have hrun : (g.drawRule bound s).run.run ⟨lowest, draws⟩ = (.error .infiniteTotal, ⟨lowest, draws⟩) := by
      unfold drawRule
      rw [hc]
      rfl
    rw [run_bind_error hrun]
    exact .infiniteTotal hbound hs hinfinite

omit [Arith W] [Arith.Signed W] in
/-- The variables of a rule always get ids. -/
theorem proceeds_introduce_bind {stops : Failure W → List (Draw W) → Prop} {binds : List String} {depth : Nat}
    {f : List (Rule W) → Generator W α}
    (hf : ∀ lowest, (f (g.variableRules depth binds lowest)).Proceeds stops fuel) :
    (g.introduce binds depth >>= f).Proceeds stops fuel := by
  intro supply hdraws
  rw [run_bind_ok (gives_introduce binds supply)]
  exact hf supply.lowest ⟨lowestAfter supply.lowest binds.length, supply.draws⟩ hdraws

omit [Arith W] [Arith.Signed W] in
/-- Filling a right-hand side proceeds, if expanding the nonterminals on it does. -/
theorem proceeds_fill {stops : Failure W → List (Draw W) → Prop} {expandSymbol : String → Generator W (Node W)}
    (hexp : ∀ s, g.isNonterminalIn bound s = true → (expandSymbol s).Proceeds stops fuel) (items : Items) :
    (g.fill bound expandSymbol items).Proceeds stops fuel := by
  induction items with
  | nil => exact proceeds_pure _
  | symbol s rest ih =>
    rw [fill]
    split
    · rename_i hs
      exact (hexp s hs).bind fun _ => ih.bind fun _ => proceeds_pure _
    · exact ih.bind fun _ => proceeds_pure _
  | seq inside rest ihi ihr => exact ihi.bind fun _ => ihr.bind fun _ => proceeds_pure _

/-- **Generation from a nonterminal meets no error.** The induction is on the fuel, which bounds the draws. -/
theorem proceeds_expand (hg : g.WellStored) (hw : Arith.isPositive g.config.weight = true)
    (hbase : ∀ b ∈ base, g.IsVariable b) (fuel : Nat) : ∀ {bound : List (Rule W)} {s : String} (depth : Nat),
      g.Deepens base bound → g.isNonterminalIn bound s = true →
        (g.expand fuel bound s depth).Proceeds (g.Stops base) fuel := by
  induction fuel with
  | zero =>
    intro bound s depth hbound hs
    rw [expand_zero hs]
    exact proceeds_drawRule_bind hg hw hbase hbound hs fun _ h => by cases h
  | succ fuel ih =>
    intro bound s depth hbound hs
    rw [expand_succ hs]
    refine proceeds_drawRule_bind hg hw hbase hbound hs fun fuel' hfuel drawn hr => ?_
    obtain rfl := Nat.succ.inj hfuel
    refine proceeds_introduce_bind fun lowest => ?_
    have hdeeper : g.Deepens base (bound ++ g.variableRules (depth + 1) drawn.1.binds lowest) := hbound.deeper hr
    exact (proceeds_fill (fun s hs => ih (depth + 1) hdeeper hs) drawn.1.children).bind fun _ => proceeds_pure _

/-- What a run of generation in a scope comes to. -/
theorem generateIn_cases (hg : g.WellStored) (hw : Arith.isPositive g.config.weight = true) {scope : Scope W}
    (hscope : ∀ b ∈ scope.rules, g.IsVariable b) (hs : g.isNonterminalIn scope.rules s = true) (depth : Nat)
    (draws : List (Draw W)) :
    (∃ n, (g.generateIn s depth scope draws).result = .ok n) ∨
      ∃ e, (g.generateIn s depth scope draws).result = .error e ∧
        g.Stops scope.rules e (g.generateIn s depth scope draws).draws := by
  have h := proceeds_expand hg hw hscope draws.length depth .here hs ⟨scope.lowest, draws⟩ (Nat.le_refl _)
  rw [generateIn_eq]
  unfold Outcome.ofRun
  split at h
  · rename_i n left hrun
    rw [hrun]
    exact .inl ⟨n, rfl⟩
  · rename_i e left hrun
    rw [hrun]
    exact .inr ⟨e, rfl, h⟩

end Grammar

end ScopedGrammar

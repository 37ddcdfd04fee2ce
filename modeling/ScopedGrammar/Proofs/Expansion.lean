import ScopedGrammar.Generation
import ScopedGrammar.Proofs.Countdown

/-!
# Generation with the rules in scope handed down

`Grammar.expand` generates as `Grammar.grow` does, but keeps no scope: every call is handed the rules that are bound
where it stands, and only ids and draws are used up. The two are the same (`grow_eq`), as a computation that works on
the scope (`Growth.handing`) leaves its rules as they were, and a node drops what it has bound
(`releasing_bindVariables`). So a run in a scope can be read as one that is handed the rules of that scope
(`generateIn_eq`, `generateItem_eq`).
-/

namespace ScopedGrammar

variable {W : Type}

namespace Grammar

/-! ## Generators -/

/-- The rules for variables that are bound together, with the ids that are handed out next. -/
def variableRules (g : Grammar W) (depth : Nat) : List String → Int → List (Rule W)
  | [], _ => []
  | nt :: rest, lowest => g.variableRule nt depth (idBelow lowest) :: g.variableRules depth rest (idBelow lowest)

/-- Uses up the ids for the variables of a rule, for children at `depth`. -/
def introduce (g : Grammar W) (binds : List String) (depth : Nat) : Generator W (List (Rule W)) := do
  let supply ← get
  set { supply with lowest := lowestAfter supply.lowest binds.length }
  return g.variableRules depth binds supply.lowest

/-- Generates the children for a right-hand side, given how the nonterminals on it are expanded. -/
def fill (g : Grammar W) (bound : List (Rule W)) (expandSymbol : String → Generator W (Node W)) :
    Items → Generator W (Forest W)
  | .nil => return .nil
  | .symbol s rest => do
    if g.isNonterminalIn bound s then
      let n ← expandSymbol s
      return .node n.label n.children (← g.fill bound expandSymbol rest)
    else return .leaf s (← g.fill bound expandSymbol rest)
  | .seq inside rest => do
    let forest ← g.fill bound expandSymbol inside
    return .seq forest (← g.fill bound expandSymbol rest)

/-- Generates the child for an item. -/
def fillItem (g : Grammar W) (bound : List (Rule W)) (expandSymbol : String → Generator W (Node W)) :
    Item → Generator W (Child W)
  | .symbol s => if g.isNonterminalIn bound s then Child.node <$> expandSymbol s else pure (.leaf s)
  | .seq inside => Child.seq <$> g.fill bound expandSymbol inside

/-- Generates a tree from a nonterminal. The fuel is a bound on its height; the draws run out first if it is their
number. -/
def expand [Arith W] (g : Grammar W) : Nat → List (Rule W) → String → Nat → Generator W (Node W)
  | fuel, bound, nonterminal, depth => do
    if !g.isNonterminalIn bound nonterminal then throw (.error (.notANonterminal nonterminal))
    let (r, logProb) ← g.drawRule bound nonterminal
    match fuel with
    | 0 => throw .noDraw
    | fuel + 1 =>
      let introduced ← g.introduce r.binds (depth + 1)
      let bound' := bound ++ introduced
      let children ← g.fill bound' (fun s => g.expand fuel bound' s (depth + 1)) r.children
      return Node.ofRule r children logProb introduced depth

section

variable [Arith W] {g : Grammar W} {bound : List (Rule W)} {s : String}

/-- Nothing is drawn for a terminal. -/
theorem expand_terminal (h : g.isNonterminalIn bound s = false) (fuel depth : Nat) :
    g.expand fuel bound s depth = throw (.error (.notANonterminal s)) := by
  unfold expand
  rw [h]
  rfl

theorem expand_zero (h : g.isNonterminalIn bound s = true) (depth : Nat) :
    g.expand 0 bound s depth = g.drawRule bound s >>= fun _ => throw .noDraw := by
  unfold expand
  rw [h]
  rfl

/-- A rule is drawn for a nonterminal, its variables are bound, and its children are filled in. -/
theorem expand_succ (h : g.isNonterminalIn bound s = true) (fuel depth : Nat) :
    g.expand (fuel + 1) bound s depth = g.drawRule bound s >>= fun drawn =>
      g.introduce drawn.1.binds (depth + 1) >>= fun introduced =>
        g.fill (bound ++ introduced) (fun s => g.expand fuel (bound ++ introduced) s (depth + 1)) drawn.1.children >>=
          fun children => pure (Node.ofRule drawn.1 children drawn.2 introduced depth) := by
  conv => lhs; unfold expand
  rw [h]
  rfl

end

end Grammar

/-- Runs a generator on the ids of a scope. -/
def Outcome.ofRun {α : Type} (scope : Scope W) (draws : List (Draw W)) (gen : Generator W α) : Outcome W α :=
  let (result, left) := gen.run.run ⟨scope.lowest, draws⟩
  { result, scope := { scope with lowest := left.lowest }, draws := left.draws }

/-! ## Runs of computations that can fail -/

section

variable {σ α β : Type} {s s' : σ} {comp : ExceptT (Failure W) (StateM σ) α} {f : α → ExceptT (Failure W) (StateM σ) β}

theorem run_bind_ok {a : α} (h : comp.run.run s = (.ok a, s')) : (comp >>= f).run.run s = (f a).run.run s' := by
  simp only [ExceptT.run_bind, StateT.run_bind]
  rw [show comp.run.run s = (Except.ok a, s') from h]
  rfl

theorem run_bind_error {e : Failure W} (h : comp.run.run s = (.error e, s')) :
    (comp >>= f).run.run s = (.error e, s') := by
  simp only [ExceptT.run_bind, StateT.run_bind]
  rw [show comp.run.run s = (Except.error e, s') from h]
  rfl

end

/-! ## Computations that are handed the rules in scope -/

namespace Growth

variable {α β : Type}

theorem handing_pure (a : α) : handing (fun _ => pure a : List (Rule W) → Generator W α) = pure a := rfl

theorem handing_throw (e : Failure W) : handing (fun _ => throw e : List (Rule W) → Generator W α) = throw e := rfl

theorem bound_eq : (bound : Growth W (List (Rule W))) = handing pure := rfl

/-- What a generator does to a supply, it does to the supply in the surroundings. -/
theorem run_handing (gen : List (Rule W) → Generator W α) {rules : List (Rule W)} {supply left : Supply W}
    {result : Except (Failure W) α} (h : (gen rules).run.run supply = (result, left)) :
    (handing gen).run.run ⟨⟨rules, supply.lowest⟩, supply.draws⟩ = (result, ⟨⟨rules, left.lowest⟩, left.draws⟩) := by
  unfold handing
  simp only [ExceptT.run_mk, StateT.run] at h ⊢
  rw [h]

/-- One computation after another is handed the same rules. -/
theorem handing_bind (gen : List (Rule W) → Generator W α) (f : α → List (Rule W) → Generator W β) :
    (handing gen >>= fun a => handing (f a)) = handing fun rules => gen rules >>= fun a => f a rules := by
  let both := fun rules => gen rules >>= fun a => f a rules
  refine ExceptT.ext (StateT.ext fun ⟨⟨rules, lowest⟩, draws⟩ => ?_)
  rcases hgen : (gen rules).run.run ⟨lowest, draws⟩ with ⟨e | a, left⟩
  · have hboth : (both rules).run.run ⟨lowest, draws⟩ = (.error e, left) := run_bind_error hgen
    exact (run_bind_error (run_handing gen hgen)).trans (run_handing both hboth).symm
  · rcases hf : (f a rules).run.run left with ⟨result, left'⟩
    have hboth : (both rules).run.run ⟨lowest, draws⟩ = (result, left') := (run_bind_ok hgen).trans hf
    exact ((run_bind_ok (run_handing gen hgen)).trans (run_handing (f a) hf)).trans (run_handing both hboth).symm

/-- A choice by the rules in scope is one by the rules that are handed down. -/
theorem bound_bind_ite (p : List (Rule W) → Bool) (gen gen' : List (Rule W) → Generator W α) :
    (bound >>= fun rules => if p rules then handing gen else handing gen') =
      handing fun rules => if p rules then gen rules else gen' rules := by
  have hchoice : ∀ rules, (if p rules then handing gen else handing gen') =
      handing fun rules' => if p rules then gen rules' else gen' rules' := by
    intro rules
    split <;> rfl
  simp only [bound_eq, hchoice, handing_bind]
  rfl

end Growth

namespace Grammar

open Growth

/-! ## Growing is expanding -/

variable (g : Grammar W)

/-- A variable that is bound gets the next id, which is the lowest one then. -/
theorem bindVariable_eq (scope : Scope W) (nt : String) (depth : Nat) : g.bindVariable scope nt depth =
    ⟨scope.rules ++ [g.variableRule nt depth (idBelow scope.lowest)], idBelow scope.lowest⟩ := by
  show (⟨_, min (idBelow scope.lowest) (idBelow scope.lowest)⟩ : Scope W) = _
  rw [Int.min_self]
  rfl

/-- Binding the variables of a rule pushes their rules. -/
theorem run_bindVariables (depth : Nat) : ∀ (binds : List String) (rules : List (Rule W)) (lowest : Int)
    (draws : List (Draw W)), (g.bindVariables depth binds).run.run ⟨⟨rules, lowest⟩, draws⟩ =
      (.ok (g.variableRules depth binds lowest),
        ⟨⟨rules ++ g.variableRules depth binds lowest, lowestAfter lowest binds.length⟩, draws⟩)
  | [], rules, lowest, draws => by
    rw [variableRules, List.append_nil]
    rfl
  | nt :: rest, rules, lowest, draws => by
    have ih := run_bindVariables depth rest (rules ++ [g.variableRule nt depth (idBelow lowest)]) (idBelow lowest) draws
    rw [← g.bindVariable_eq ⟨rules, lowest⟩ nt depth] at ih
    rw [variableRules, List.append_cons]
    exact run_bind_ok ih

/-- A node drops what it has bound: its children are generated as if they were handed the rules of its variables. -/
theorem releasing_bindVariables {α : Type} (depth : Nat) (binds : List String)
    (gen : List (Rule W) → List (Rule W) → Generator W α) :
    releasing (g.bindVariables depth binds >>= fun introduced => handing (gen introduced)) =
      handing fun rules => g.introduce binds depth >>= fun introduced => gen introduced (rules ++ introduced) := by
  let whole := fun rules => g.introduce binds depth >>= fun introduced => gen introduced (rules ++ introduced)
  refine ExceptT.ext (StateT.ext fun ⟨⟨rules, lowest⟩, draws⟩ => ?_)
  let introduced := g.variableRules depth binds lowest
  rcases hgen : (gen introduced (rules ++ introduced)).run.run ⟨lowestAfter lowest binds.length, draws⟩
    with ⟨result, left⟩
  have hwhole : (whole rules).run.run ⟨lowest, draws⟩ = (result, left) := hgen
  have hgrown : (g.bindVariables depth binds >>= fun introduced => handing (gen introduced)).run.run
      ⟨⟨rules, lowest⟩, draws⟩ = (result, ⟨⟨rules ++ introduced, left.lowest⟩, left.draws⟩) :=
    (run_bind_ok (g.run_bindVariables depth binds rules lowest draws)).trans (run_handing (gen introduced) hgen)
  refine Eq.trans ?_ (run_handing whole hwhole).symm
  unfold releasing
  simp only [ExceptT.run_mk, StateT.run] at hgrown ⊢
  rw [hgrown]
  simp [Scope.truncate, Scope.mark]

/-- A right-hand side is filled with what its nonterminals are expanded to, if they are grown so. -/
theorem growAll_eq {growSymbol : String → Growth W (Node W)}
    {expandSymbol : List (Rule W) → String → Generator W (Node W)}
    (hgrow : ∀ s, growSymbol s = handing fun rules => expandSymbol rules s) (items : Items) :
    g.growAll growSymbol items = handing fun rules => g.fill rules (expandSymbol rules) items := by
  induction items with
  | nil => rfl
  | symbol s rest ih =>
    simp only [growAll, ih, hgrow, ← handing_pure, handing_bind, bound_bind_ite, fill]
  | seq inside rest ihi ihr =>
    simp only [growAll, ihi, ihr, ← handing_pure, handing_bind, fill]

theorem growItem_eq {growSymbol : String → Growth W (Node W)}
    {expandSymbol : List (Rule W) → String → Generator W (Node W)}
    (hgrow : ∀ s, growSymbol s = handing fun rules => expandSymbol rules s) (item : Item) :
    g.growItem growSymbol item = handing fun rules => g.fillItem rules (expandSymbol rules) item := by
  cases item with
  | symbol s =>
    simp only [growItem, hgrow, map_eq_pure_bind, ← handing_pure, handing_bind, bound_bind_ite, fillItem]
  | seq inside =>
    simp only [growItem, g.growAll_eq hgrow, map_eq_pure_bind, ← handing_pure, handing_bind, fillItem]

/-- **Growing a tree is expanding it with the rules in scope.** The induction is on the fuel, and below a node the rules
in scope are those around it with the ones that it introduces (`releasing_bindVariables`). -/
theorem grow_eq [Arith W] (fuel : Nat) : ∀ (s : String) (depth : Nat),
    g.grow fuel s depth = handing fun rules => g.expand fuel rules s depth := by
  induction fuel with
  | zero =>
    intro s depth
    unfold grow expand
    simp only [← handing_throw, handing_bind, bound_bind_ite]
  | succ fuel ih =>
    intro s depth
    unfold grow expand
    simp only [g.growAll_eq fun s => ih s (depth + 1), ← handing_pure, ← handing_throw, handing_bind,
      releasing_bindVariables, bound_bind_ite]

/-! ## Runs in a scope -/

variable [Arith W] (depth : Nat) (scope : Scope W) (draws : List (Draw W))

/-- A run in a scope is one that is handed the rules of that scope. -/
theorem generateIn_eq (s : String) : g.generateIn s depth scope draws =
    Outcome.ofRun scope draws (g.expand draws.length scope.rules s depth) := by
  rw [generateIn, grow_eq]
  rfl

theorem generateItem_eq (item : Item) : g.generateItem item depth scope draws =
    Outcome.ofRun scope draws
      (g.fillItem scope.rules (fun s => g.expand draws.length scope.rules s depth) item) := by
  rw [generateItem, growItem_eq g (fun s => g.grow_eq draws.length s depth)]
  rfl

end Grammar

end ScopedGrammar

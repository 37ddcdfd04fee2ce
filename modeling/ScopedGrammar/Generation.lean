import ScopedGrammar.Categorical
import ScopedGrammar.Grammar
import ScopedGrammar.Tree

/-!
# Generation

A tree is generated from the top down: a rule is drawn from those visible for the nonterminal, its variables are bound
for its children only, and the children are generated from left to right. All calls work on one scope. A node pushes
the variables that it binds, and they are dropped when its children are done or one of them has failed
(`Growth.releasing`); their ids are not given back.

- `Grammar.grow` generates from a nonterminal. Every node uses a draw, so the number of draws bounds the depth;
- `Grammar.generateIn` and `Grammar.generateItem` run it in a scope and give what is left with the result (`Outcome`);
- `Grammar.generate` starts where no variable is bound.
-/

namespace ScopedGrammar

/-- What generation uses up: the lowest id that is in use, and the draws to come. -/
structure Supply (W : Type) where
  lowest : Int
  draws : List (Draw W)

/-- A computation that uses up a supply. A failure keeps what was used up before it. -/
abbrev Generator (W : Type) := ExceptT (Failure W) (StateM (Supply W))

/-- What generation works with: the scope at hand, and the draws to come. -/
structure Surroundings (W : Type) where
  scope : Scope W
  draws : List (Draw W)

/-- A computation that changes its surroundings. A failure keeps what was changed before it. -/
abbrev Growth (W : Type) := ExceptT (Failure W) (StateM (Surroundings W))

/-- The result of a random operation in a scope, with the scope and the draws that it leaves. -/
structure Outcome (W α : Type) where
  result : Except (Failure W) α
  scope : Scope W
  draws : List (Draw W)

variable {W : Type}

/-- The next draw. -/
def Generator.nextDraw : Generator W (Draw W) := do
  let supply ← get
  match supply.draws with
  | [] => throw .noDraw
  | d :: rest =>
    set { supply with draws := rest }
    return d

namespace Growth

variable {α : Type}

/-- The rules in scope. -/
def bound : Growth W (List (Rule W)) := return (← get).scope.rules

/-- Runs a generator that is handed the rules in scope, on the supply in the surroundings. -/
def handing (gen : List (Rule W) → Generator W α) : Growth W α := ExceptT.mk fun surroundings =>
  let (result, left) := (gen surroundings.scope.rules).run.run ⟨surroundings.scope.lowest, surroundings.draws⟩
  (result, ⟨{ surroundings.scope with lowest := left.lowest }, left.draws⟩)

/-- Drops what a computation has brought into scope when it ends, with a result or with a failure. -/
def releasing (growth : Growth W α) : Growth W α := ExceptT.mk fun surroundings =>
  let (result, left) := growth.run.run surroundings
  (result, { left with scope := left.scope.truncate surroundings.scope.mark })

end Growth

namespace Grammar

/-! ## One node -/

/-- Brings the variables of a rule into scope for children at `depth`, and gives their rules. -/
def bindVariables (g : Grammar W) (depth : Nat) : List String → Growth W (List (Rule W))
  | [] => return []
  | nt :: rest => do
    let surroundings ← get
    set { surroundings with scope := g.bindVariable surroundings.scope nt depth }
    return g.variableRule nt depth surroundings.scope.handOut.lowest :: (← g.bindVariables depth rest)

/-- Draws one of the visible rules of a nonterminal, with its log-probability. -/
def drawRule [Arith W] (g : Grammar W) (bound : List (Rule W)) (nonterminal : String) : Generator W (Rule W × W) := do
  match Categorical.ofList (·.weight) (g.visible bound nonterminal) with
  | .error e => throw e
  | .ok c =>
    let d ← Generator.nextDraw
    match g.visibleAtIndex bound nonterminal (c.index d) with
    | some r => return (r, c.logProb (c.index d))
    | none => throw (.error (.notANonterminal nonterminal))

/-! ## Trees -/

/-- Generates the children for a right-hand side, given how the nonterminals on it are grown. -/
def growAll (g : Grammar W) (growSymbol : String → Growth W (Node W)) : Items → Growth W (Forest W)
  | .nil => return .nil
  | .symbol s rest => do
    if g.isNonterminalIn (← Growth.bound) s then
      let n ← growSymbol s
      return .node n.label n.children (← g.growAll growSymbol rest)
    else return .leaf s (← g.growAll growSymbol rest)
  | .seq inside rest => do
    let forest ← g.growAll growSymbol inside
    return .seq forest (← g.growAll growSymbol rest)

/-- Generates the child for an item. -/
def growItem (g : Grammar W) (growSymbol : String → Growth W (Node W)) : Item → Growth W (Child W)
  | .symbol s => do
    if g.isNonterminalIn (← Growth.bound) s then Child.node <$> growSymbol s else return .leaf s
  | .seq inside => Child.seq <$> g.growAll growSymbol inside

/-- Generates a tree from a nonterminal. The fuel is a bound on its height; the draws run out first if it is their
number. -/
def grow [Arith W] (g : Grammar W) : Nat → String → Nat → Growth W (Node W)
  | fuel, nonterminal, depth => do
    if !g.isNonterminalIn (← Growth.bound) nonterminal then throw (.error (.notANonterminal nonterminal))
    let (r, logProb) ← Growth.handing fun bound => g.drawRule bound nonterminal
    match fuel with
    | 0 => throw .noDraw
    | fuel + 1 => Growth.releasing do
      let introduced ← g.bindVariables (depth + 1) r.binds
      let children ← g.growAll (fun s => g.grow fuel s (depth + 1)) r.children
      return Node.ofRule r children logProb introduced depth

/-! ## Runs -/

/-- Runs a computation in a scope. -/
def Outcome.ofGrowth {α : Type} (scope : Scope W) (draws : List (Draw W)) (growth : Growth W α) : Outcome W α :=
  let (result, left) := growth.run.run ⟨scope, draws⟩
  { result, scope := left.scope, draws := left.draws }

/-- Generates a tree from a nonterminal at a depth, with the variables of a scope. The depth of a child is one more, also
where a machine word would wrap around. -/
def generateIn [Arith W] (g : Grammar W) (nonterminal : String) (depth : Nat) (scope : Scope W)
    (draws : List (Draw W)) : Outcome W (Node W) :=
  Outcome.ofGrowth scope draws (g.grow draws.length nonterminal depth)

/-- Generates the child for an item at a depth, with the variables of a scope. -/
def generateItem [Arith W] (g : Grammar W) (item : Item) (depth : Nat) (scope : Scope W)
    (draws : List (Draw W)) : Outcome W (Child W) :=
  Outcome.ofGrowth scope draws (g.growItem (fun s => g.grow draws.length s depth) item)

/-- Generates a tree from a nonterminal where no variable is bound. -/
def generate [Arith W] (g : Grammar W) (nonterminal : String) (draws : List (Draw W)) : Outcome W (Node W) :=
  g.generateIn nonterminal 0 Scope.empty draws

/-- The logarithm of the total weight of the visible rules of a nonterminal. -/
def logNormalizer [Arith W] (g : Grammar W) (bound : List (Rule W)) (nonterminal : String) : W :=
  Arith.ln (Arith.total ((g.visible bound nonterminal).map (·.weight)))

end Grammar

end ScopedGrammar

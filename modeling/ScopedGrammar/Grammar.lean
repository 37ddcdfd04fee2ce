import ScopedGrammar.RuleTable
import ScopedGrammar.Scope

/-!
# Grammars

A grammar holds its permanent rules, the id of the next one, and how rules for bound variables are made. Ids count up
from zero and are never given twice, also not after a removal. The rules of a derivation are the permanent ones followed
by those bound in the scope at hand (`Grammar.visible`); a symbol with no visible rule is a terminal.
-/

namespace ScopedGrammar

variable {W : Type}

/-- How rules for bound variables are made. -/
structure Config (W : Type) where
  /-- Their generation weight. -/
  weight : W
  /-- Their resample weight. -/
  resampleWeight : W
  /-- What their names start with; the depth of the binder's children follows. -/
  stem : String

/-- Variables of weight ten and resample weight one, named `y`. -/
def Config.standard [Arith W] [Numeral W] : Config W := ⟨Numeral.ofDecimal ⟨false, 10, 0⟩, Arith.one, "y"⟩

/-- A weighted grammar. -/
structure Grammar (W : Type) where
  table : RuleTable W
  /-- The id of the rule that is added next. It counts additions, of which there are never as many as ids. -/
  nextId : Nat
  config : Config W

namespace Grammar

/-- A grammar without rules. -/
def empty (config : Config W) : Grammar W := ⟨[], 0, config⟩

/-! ## Looking rules up -/

/-- The permanent rules of a nonterminal, in the order in which they were added. -/
def rules (g : Grammar W) (nonterminal : String) : List (Rule W) := g.table.rules nonterminal

/-- All permanent rules, by nonterminal in code point order. -/
def allRules (g : Grammar W) : List (Rule W) := g.table.toList

/-- The permanent rule with an id. -/
def rule? (g : Grammar W) (id : Int) : Option (Rule W) := g.allRules.find? (·.id == id)

/-- The symbols that have permanent rules, in code point order. -/
def nonterminals (g : Grammar W) : List String := g.table.map (·.1)

/-- Whether a symbol has permanent rules. -/
def isNonterminal (g : Grammar W) (s : String) : Bool := g.nonterminals.contains s

/-- The number of permanent rules. -/
def ruleCount (g : Grammar W) : Nat := g.allRules.length

/-- Whether the grammar has no rules. -/
def isEmpty (g : Grammar W) : Bool := g.table.isEmpty

/-! ## Changing the rules -/

/-- Adds a valid production under the next id. -/
def add [Arith W] (g : Grammar W) (p : Production W) : Except (GrammarError W) (Rule W × Grammar W) := do
  p.validate
  let r : Rule W := { p with id := g.nextId }
  return (r, { g with table := g.table.insert r, nextId := g.nextId + 1 })

/-- Removes the rule of a nonterminal with an id. A nonterminal whose last rule goes is one no longer. -/
def remove? (g : Grammar W) (nonterminal : String) (id : Int) : Option (Rule W × Grammar W) :=
  ((g.rules nonterminal).find? (·.id == id)).map fun r => (r, { g with table := g.table.erase nonterminal id })

/-- Changes the weight of the permanent rule with an id. -/
def setWeight [Arith W] (g : Grammar W) (id : Int) (weight : W) : Except (GrammarError W) (Grammar W) :=
  match g.rule? id with
  | none => .error (.unknownRule id)
  | some r =>
    if Arith.isPositive weight then .ok { g with table := g.table.setWeight id weight }
    else .error (.invalidWeight .generation weight r.name r.nonterminal)

/-! ## Bound variables -/

/-- The rule for a variable of a nonterminal that is bound for children at `depth`. -/
def variableRule (g : Grammar W) (nonterminal : String) (depth : Nat) (id : Int) : Rule W where
  nonterminal := nonterminal
  name := g.config.stem ++ toString depth
  children := .nil
  weight := g.config.weight
  resampleWeight := g.config.resampleWeight
  binds := []
  id := id

/-- Brings a new variable into scope, under the next id downwards. -/
def bindVariable (g : Grammar W) (scope : Scope W) (nonterminal : String) (depth : Nat) : Scope W :=
  scope.handOut.push (g.variableRule nonterminal depth scope.handOut.lowest)

/-- The permanent rules of a nonterminal, followed by the bound ones. -/
def visible (g : Grammar W) (bound : List (Rule W)) (nonterminal : String) : List (Rule W) :=
  g.rules nonterminal ++ bound.filter fun r => r.nonterminal == nonterminal

/-- The rule that an index into the visible rules stands for: a permanent one, or, counted on from these, a bound
one. -/
def visibleAtIndex (g : Grammar W) (bound : List (Rule W)) (nonterminal : String) (i : Nat) : Option (Rule W) :=
  let base := g.rules nonterminal
  match base[i]? with
  | some r => some r
  | none => (bound.filter fun r => r.nonterminal == nonterminal)[i - base.length]?

theorem visibleAtIndex_eq (g : Grammar W) (bound : List (Rule W)) (nonterminal : String) (i : Nat) :
    g.visibleAtIndex bound nonterminal i = (g.visible bound nonterminal)[i]? := by
  cases h : (g.rules nonterminal)[i]? with
  | some r =>
    rw [visible, List.getElem?_append_left (List.getElem?_eq_some_iff.mp h).1, h]
    simp only [visibleAtIndex, h]
  | none =>
    rw [visible, List.getElem?_append_right (List.getElem?_eq_none_iff.mp h)]
    simp only [visibleAtIndex, h]

/-! ## Terminals -/

/-- Whether a symbol has permanent or bound rules. -/
def isNonterminalIn (g : Grammar W) (bound : List (Rule W)) (s : String) : Bool :=
  g.isNonterminal s || bound.any fun r => r.nonterminal == s

/-- Whether an item holds no symbol that has permanent or bound rules. -/
def isTerminalIn (g : Grammar W) (bound : List (Rule W)) (item : Item) : Bool :=
  item.symbols.all fun s => !g.isNonterminalIn bound s

/-- Whether all children of a production are terminal where no variable is bound. -/
def producesTerminals (g : Grammar W) (p : Production W) : Bool :=
  p.children.symbols.all fun s => !g.isNonterminal s

/-! ## Text -/

/-- The grammar text: one clause a line. -/
def print [Arith W] [Numeral W] (g : Grammar W) : List Char := g.allRules.flatMap fun r => r.print ++ ['\n']

end Grammar

end ScopedGrammar

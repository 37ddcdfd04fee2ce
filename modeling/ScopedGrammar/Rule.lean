import ScopedGrammar.Arith
import ScopedGrammar.Error
import ScopedGrammar.Item

/-!
# Productions and rules

A `Production` says how a nonterminal can be rewritten: the name of the node it builds, its right-hand side, its weight
among the productions of the nonterminal, the weight of its nodes when a node is picked for regeneration, and the
nonterminals of the variables it binds for its children. A `Rule` is a production with an id; permanent rules have ids
from zero up, and rules for bound variables have negative ids. Two rules are the same alternative when nonterminal and
id agree.

- `Production.validate` states what a production must satisfy to be added to a grammar;
- `Production.print` is its clause in the grammar text.
-/

namespace ScopedGrammar

/-- A weighted production `nonterminal -> name(children)`. -/
structure Production (W : Type) where
  nonterminal : String
  name : String
  children : Items
  weight : W
  resampleWeight : W
  /-- The nonterminals of the variables that the production binds for its children. -/
  binds : List String

/-- A production with its id. -/
structure Rule (W : Type) extends Production W where
  /-- A number of 64 bits: those of a grammar count upwards from zero, those of variables downwards. -/
  id : Int

variable {W : Type}

namespace Production

/-- Whether a production is named as the introduction of a function, in letters of either case. -/
def isLambda (p : Production W) : Bool := p.name.toList.map Char.toLower == "lambda".toList

/-- Whether expanding the production binds variables. -/
def bindsVariables (p : Production W) : Bool := !p.binds.isEmpty

/-- What a production must satisfy, in the order in which faults are reported: a lambda has exactly one child, the
weight is positive and finite, and the resample weight is finite and not negative. -/
def validate [Arith W] (p : Production W) : Except (GrammarError W) Unit :=
  if p.isLambda && p.children.length != 1 then .error (.malformedLambda p.nonterminal p.children.length)
  else if !Arith.isPositive p.weight then .error (.invalidWeight .generation p.weight p.name p.nonterminal)
  else if !Arith.isNonnegative p.resampleWeight then
    .error (.invalidWeight .resample p.resampleWeight p.name p.nonterminal)
  else .ok ()

/-- The name and the right-hand side; a production without children needs no parentheses unless it has no name. -/
def printBody (p : Production W) : List Char :=
  (if p.name.isEmpty then [] else Symbol.print p.name) ++
    if p.children == .nil && !p.name.isEmpty then []
    else Symbol.parenthesized p.children.texts

/-- The options that differ from their defaults. -/
def printOptions [Arith W] [Numeral W] (p : Production W) : List Char :=
  (if p.resampleWeight == Arith.one then [] else " resample=".toList ++ Numeral.print p.resampleWeight) ++
    if p.binds.isEmpty then [] else " bind=".toList ++ Symbol.bracketed (p.binds.map Symbol.print)

/-- The clause of a production. -/
def print [Arith W] [Numeral W] (p : Production W) : List Char :=
  Symbol.print p.nonterminal ++ " -> ".toList ++ p.printBody ++ ' ' :: (Numeral.print p.weight ++ p.printOptions)
    ++ ['.']

end Production

namespace Rule

/-- Whether a rule stands for a bound variable. -/
def isVariable (r : Rule W) : Bool := decide (r.id < 0)

/-- Rules are compared as alternatives, by nonterminal and id. -/
instance : BEq (Rule W) := ⟨fun a b => a.id == b.id && a.nonterminal == b.nonterminal⟩

end Rule

end ScopedGrammar

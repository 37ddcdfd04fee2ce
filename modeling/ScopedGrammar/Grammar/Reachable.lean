import ScopedGrammar.Grammar

/-!
# Reachability

The nonterminals that a derivation can come to through permanent rules: from a nonterminal to those among the symbols on
its right-hand sides and among the variables that its rules bind. They are searched for with a stack of nonterminals
that are still to be looked at (`Grammar.searchStep`). A nonterminal that is looked at puts on the stack what its rules
mention, so it can lie there several times, and is passed over when it comes up again.
-/

namespace ScopedGrammar

/-- A search at some point of its way: the nonterminals that were looked at, and those that are still to be looked at,
from the top of the stack down. -/
structure Search where
  seen : List String
  stack : List String

namespace Grammar

variable {W : Type}

/-- The symbols that the rules of a nonterminal mention. -/
def mentions (g : Grammar W) (nonterminal : String) : List String :=
  (g.rules nonterminal).flatMap fun r => r.children.symbols ++ r.binds

/-- Puts a symbol on the stack if it is a nonterminal that was not looked at. -/
def pushUnseen (g : Grammar W) (s : Search) (symbol : String) : Search :=
  if g.isNonterminal symbol && !s.seen.contains symbol then { s with stack := symbol :: s.stack } else s

/-- Takes the topmost nonterminal off the stack and looks at its rules, unless that was done before. -/
def searchStep (g : Grammar W) : Search → Search
  | ⟨seen, []⟩ => ⟨seen, []⟩
  | ⟨seen, nt :: stack⟩ =>
    if seen.contains nt then ⟨seen, stack⟩ else (g.mentions nt).foldl g.pushUnseen ⟨nt :: seen, stack⟩

/-- The search from a symbol before its first step. -/
def searchStart (g : Grammar W) (start : String) : Search := ⟨[], if g.isNonterminal start then [start] else []⟩

/-- The search from a symbol at its end. But for the first one, what is taken off the stack was put there for a mention
by a nonterminal that was looked at, so there are no more steps to take than there are mentions. -/
def search (g : Grammar W) (start : String) : Search :=
  ((g.nonterminals.flatMap g.mentions).length + 1).repeat g.searchStep (g.searchStart start)

/-- The nonterminals reachable from a symbol, itself included, in code point order. None are where the symbol is no
nonterminal. -/
def reachableFrom (g : Grammar W) (start : String) : List String :=
  g.nonterminals.filter (g.search start).seen.contains

end Grammar

end ScopedGrammar

import ScopedGrammar.Numeral

/-!
# Errors of the grammar engine

`GrammarError` lists the ways in which an operation on a grammar or a tree is refused, each with what its message names
(`GrammarError.message`). A random operation can also stop for two reasons that are no fault of the grammar: a total
that overflows, and the end of the supply of draws (`Failure`).
-/

namespace ScopedGrammar

/-- Which of a rule's two weights. -/
inductive WeightKind where
  | generation
  | resample
deriving DecidableEq

/-- Why a list of weights is no distribution. -/
inductive SamplingError where
  /-- There are no weights. -/
  | noWeights
  /-- A weight is negative or undefined. -/
  | invalidWeight
  /-- The weights add up to zero. -/
  | allZero
deriving DecidableEq

/-- Why an operation on a grammar or a tree is refused. -/
inductive GrammarError (W : Type) where
  /-- A lambda rule has another number of children than one. -/
  | malformedLambda (nonterminal : String) (found : Nat)
  /-- A rule's weight is outside its range. -/
  | invalidWeight (kind : WeightKind) (value : W) (name nonterminal : String)
  /-- A symbol to be expanded has no rules. -/
  | notANonterminal (symbol : String)
  /-- No permanent rule has the id. -/
  | unknownRule (id : Int)
  /-- Enumeration would meet a rule that binds variables. -/
  | bindsVariables (nonterminal name : String)
  /-- The resample weights do not add up to a positive number. -/
  | nothingToResample (normalizer : W)
  /-- A tree is too small for a position. -/
  | invalidIndex (index : Nat)
  /-- A rule cannot be drawn by the visible weights. -/
  | sampling (cause : SamplingError)

/-- Why a random operation gave no result. -/
inductive Failure (W : Type) where
  | error (e : GrammarError W)
  /-- The weights add up to more than the arithmetic can hold. -/
  | infiniteTotal
  /-- The supply of draws is used up. -/
  | noDraw

/-- The word for a kind of weight. -/
def WeightKind.word : WeightKind → String
  | generation => "generation"
  | resample => "resample"

/-- The message of a sampling error. -/
def SamplingError.message : SamplingError → String
  | noWeights => "No weights provided in distribution"
  | invalidWeight => "A weight is invalid in distribution"
  | allZero => "All weights are zero in distribution"

/-- The text of a rule id. -/
def idText (id : Int) : String := "#" ++ toString id

/-- The message of a grammar error. -/
def GrammarError.message {W : Type} [Numeral W] : GrammarError W → String
  | malformedLambda nonterminal found =>
    "lambda rule for " ++ nonterminal ++ " must have exactly one child, found " ++ toString found
  | invalidWeight kind value name nonterminal =>
    "invalid " ++ kind.word ++ " weight " ++ String.ofList (Numeral.print value) ++ " for rule " ++ name ++ " of "
      ++ nonterminal
  | notANonterminal symbol => symbol ++ " is not a nonterminal"
  | unknownRule id => "no rule with id " ++ idText id
  | bindsVariables nonterminal name =>
    "enumeration from " ++ nonterminal ++ " reaches rule " ++ name ++ " which binds variables"
  | nothingToResample z =>
    "resample normalizer is " ++ String.ofList (Numeral.print z) ++ "; no node can be selected"
  | invalidIndex index => "tree has no node at pre-order index " ++ toString index
  | sampling cause => "categorical draw failed: " ++ cause.message

end ScopedGrammar

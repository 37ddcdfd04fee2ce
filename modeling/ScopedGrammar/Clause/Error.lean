import ScopedGrammar.Clause.Token
import ScopedGrammar.Error

/-!
# Errors of the grammar text

Three of them come from splitting the text into tokens, two from the form of a clause, and the last one says that a
clause of the right form is refused by the grammar.
-/

namespace ScopedGrammar

/-- What a clause would have to go on with. -/
inductive Wanted where
  | symbol
  | number
  | mark (m : Mark)

/-- Why a grammar text cannot be read. -/
inductive ClauseError (W : Type) where
  /-- A character that no token starts with, or a hyphen with neither a digit nor an arrowhead after it. -/
  | unexpectedChar (c : Char)
  /-- A number with an exponent mark and no exponent. -/
  | invalidNumber (text : List Char)
  /-- A string whose closing quote is missing. -/
  | unterminatedString
  /-- Another token than the one found would have to stand there. -/
  | expected (wanted : Wanted) (found : Token W)
  /-- An option that does not exist. -/
  | unknownOption (name : List Char)
  /-- A production that the grammar does not take. -/
  | refused (e : GrammarError W)

/-- The text for what is wanted. -/
def Wanted.describe : Wanted → List Char
  | symbol => "symbol".toList
  | number => "number".toList
  | mark m => m.describe

/-- The message of an error in the grammar text. -/
def ClauseError.message {W : Type} [Numeral W] : ClauseError W → String
  | unexpectedChar c => "unexpected character: " ++ String.ofList [c]
  | invalidNumber text => "invalid number: " ++ String.ofList text
  | unterminatedString => "unterminated string"
  | expected wanted found =>
    "expected " ++ String.ofList wanted.describe ++ ", found " ++ String.ofList found.describe
  | unknownOption name => "unknown rule option: " ++ String.ofList name
  | refused e => e.message

end ScopedGrammar

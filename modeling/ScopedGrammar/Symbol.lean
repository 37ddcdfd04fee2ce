import ScopedGrammar.Character

/-!
# Symbols

Nonterminals, rule names and terminal literals are all symbols, and a symbol is any string. In text a symbol that has
the form of an identifier stands bare (`isBare`); any other is put in quotes, with a backslash before a quote and before
a backslash (`quote`).
-/

namespace ScopedGrammar.Symbol

/-- Whether a symbol has the form of an identifier: an opening character and then only continuing ones. -/
def isBare : List Char → Bool
  | [] => false
  | c :: cs => Character.opensName c && cs.all Character.continuesName

/-- A character inside quotes. -/
def escape (c : Char) : List Char := if c == '"' || c == '\\' then ['\\', c] else [c]

/-- A symbol in quotes. -/
def quote (cs : List Char) : List Char := '"' :: (cs.flatMap escape ++ ['"'])

/-- The text of a symbol. -/
def print (s : String) : List Char := if isBare s.toList then s.toList else quote s.toList

/-- Texts with a comma and a space between them. -/
def commas (texts : List (List Char)) : List Char := List.intercalate [',', ' '] texts

/-- The texts of the parts of a sequence, in brackets. -/
def bracketed (texts : List (List Char)) : List Char := '[' :: (commas texts ++ [']'])

/-- The texts of the parts of an application, in parentheses. -/
def parenthesized (texts : List (List Char)) : List Char := '(' :: (commas texts ++ [')'])

end ScopedGrammar.Symbol

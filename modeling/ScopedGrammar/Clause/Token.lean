import ScopedGrammar.Character
import ScopedGrammar.Numeral

/-!
# Tokens of the grammar text

A grammar text is made of names, quoted strings, numbers and marks. Diagnostics name a token by its kind, and write its
content with escapes for the characters that cannot be seen.
-/

namespace ScopedGrammar

/-- The punctuation of the grammar text. -/
inductive Mark where
  | openParen
  | closeParen
  | openBracket
  | closeBracket
  | comma
  | dot
  | arrow
  | equals
deriving DecidableEq

/-- A token of the grammar text. -/
inductive Token (W : Type) where
  /-- A bare symbol. -/
  | name (content : List Char)
  /-- A string in quotes, without its escapes. -/
  | quoted (content : List Char)
  | number (value : W)
  | mark (m : Mark)
  /-- The end of the text. -/
  | eof

/-- How a mark is called in diagnostics. -/
def Mark.describe : Mark → List Char
  | openParen => "LParen".toList
  | closeParen => "RParen".toList
  | openBracket => "LBracket".toList
  | closeBracket => "RBracket".toList
  | comma => "Comma".toList
  | dot => "Dot".toList
  | arrow => "Arrow".toList
  | equals => "Eq".toList

/-- A character in a diagnostic. -/
def Character.describe (c : Char) : List Char :=
  if c == '\n' then ['\\', 'n']
  else if c == '\t' then ['\\', 't']
  else if c == '\r' then ['\\', 'r']
  else if c == '\x00' then ['\\', '0']
  else if c == '"' || c == '\\' then ['\\', c]
  else if Character.isHidden c then '\\' :: 'u' :: '\x7b' :: (Nat.toDigits 16 c.toNat ++ ['\x7d'])
  else [c]

/-- A string in a diagnostic. -/
def Character.describeAll (cs : List Char) : List Char := '"' :: (cs.flatMap Character.describe ++ ['"'])

/-- How a token is called in diagnostics. -/
def Token.describe {W : Type} [Numeral W] : Token W → List Char
  | name cs => "Ident(".toList ++ Character.describeAll cs ++ [')']
  | quoted cs => "Quoted(".toList ++ Character.describeAll cs ++ [')']
  | number w => "Number(".toList ++ Numeral.describe w ++ [')']
  | mark m => m.describe
  | eof => "Eof".toList

end ScopedGrammar

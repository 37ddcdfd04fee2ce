import ScopedGrammar.Clause.Error

/-!
# Splitting the grammar text into tokens

Tokens are read one by one (`Lexer.next`), also beyond an error. Between them may stand blanks, and comments from a
percent sign to the end of the line. A point right after the digits of a number belongs to the number if a digit
follows; else it closes the clause and is the next token, and the number has no exponent.
-/

namespace ScopedGrammar

/-- The text that is left to read. -/
structure Lexer where
  chars : List Char
  /-- A point was read together with the number before it and is the next token. -/
  heldDot : Bool

namespace Lexer

/-! ## Layout -/

/-- Drops blanks and comments; `inComment` says that a comment has begun. -/
def skipLayout : Bool → List Char → List Char
  | _, [] => []
  | true, c :: cs => skipLayout (c != '\n') cs
  | false, c :: cs =>
    if Character.isBlank c then skipLayout false cs
    else if c == '%' then skipLayout true cs
    else c :: cs

/-! ## Strings -/

/-- The character that a backslash and another character stand for. -/
def unescape (c : Char) : Char := if c == 'n' then '\n' else if c == 't' then '\t' else c

/-- The content of a string after its opening quote, and the text after the closing one. -/
def readQuoted? : List Char → Option (List Char × List Char)
  | [] => none
  | ['\\'] => none
  | '\\' :: c :: cs => (readQuoted? cs).map fun (content, rest) => (unescape c :: content, rest)
  | c :: cs => if c == '"' then some ([], cs) else (readQuoted? cs).map fun (content, rest) => (c :: content, rest)

/-! ## Numbers -/

/-- An exponent mark with its sign and digits if there is one, and the text after it. -/
def spanExponent : List Char → List Char × List Char
  | [] => ([], [])
  | e :: cs =>
    if e == 'e' || e == 'E' then
      let (sign, digits) := match cs with
        | c :: rest => if c == '+' || c == '-' then ([c], rest) else ([], cs)
        | [] => ([], [])
      (e :: (sign ++ digits.takeWhile Char.isDigit), digits.dropWhile Char.isDigit)
    else ([], e :: cs)

/-- The text of an unsigned number, with what is left to read after it. -/
def spanNumber (cs : List Char) : List Char × Lexer :=
  let whole := cs.takeWhile Char.isDigit
  match cs.dropWhile Char.isDigit with
  | '.' :: rest =>
    if rest.head?.any Char.isDigit then
      let (exponent, left) := spanExponent (rest.dropWhile Char.isDigit)
      (whole ++ '.' :: (rest.takeWhile Char.isDigit ++ exponent), ⟨left, false⟩)
    else (whole, ⟨rest, true⟩)
  | rest =>
    let (exponent, left) := spanExponent rest
    (whole ++ exponent, ⟨left, false⟩)

variable {W : Type} [Numeral W]

/-- Reads a number with its sign. -/
def readNumber (sign cs : List Char) : Except (ClauseError W) (Token W) × Lexer :=
  let (text, left) := spanNumber cs
  match Decimal.read? (sign ++ text) with
  | none => (.error (.invalidNumber (sign ++ text)), left)
  | some d => (.ok (.number (Numeral.ofDecimal d)), left)

/-! ## Tokens -/

/-- The mark that a character is on its own. -/
def mark? (c : Char) : Option Mark :=
  match c with
  | '(' => some .openParen
  | ')' => some .closeParen
  | '[' => some .openBracket
  | ']' => some .closeBracket
  | ',' => some .comma
  | '.' => some .dot
  | '=' => some .equals
  | _ => none

/-- Reads the token that a text without layout in front starts with. A character that no token starts with is left
there. -/
def readToken : List Char → Except (ClauseError W) (Token W) × Lexer
  | [] => (.ok .eof, ⟨[], false⟩)
  | '-' :: '>' :: cs => (.ok (.mark .arrow), ⟨cs, false⟩)
  | '-' :: cs => if cs.head?.any Char.isDigit then readNumber ['-'] cs else (.error (.unexpectedChar '-'), ⟨cs, false⟩)
  | c :: cs =>
    match mark? c with
    | some m => (.ok (.mark m), ⟨cs, false⟩)
    | none =>
      if c == '"' then
        match readQuoted? cs with
        | none => (.error .unterminatedString, ⟨[], false⟩)
        | some (content, rest) => (.ok (.quoted content), ⟨rest, false⟩)
      else if c.isDigit then readNumber [] (c :: cs)
      else if Character.opensName c then
        (.ok (.name (c :: cs.takeWhile Character.continuesName)), ⟨cs.dropWhile Character.continuesName, false⟩)
      else (.error (.unexpectedChar c), ⟨c :: cs, false⟩)

/-- The next token, or why there is none, with what is left to read. -/
def next (l : Lexer) : Except (ClauseError W) (Token W) × Lexer :=
  if l.heldDot then (.ok (.mark .dot), { l with heldDot := false }) else readToken (skipLayout false l.chars)

end Lexer

end ScopedGrammar

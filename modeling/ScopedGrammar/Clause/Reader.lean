import ScopedGrammar.Clause.Lexer
import ScopedGrammar.Grammar

/-!
# Reading clauses

A clause is `symbol -> name (items) number option ... .`, where everything between the arrow and the closing point may
be missing except that there is a name or a list of items. An item is a symbol or a list of items in brackets. An
option is `resample = number`, of which the last counts, or `bind = [symbols]`, of which all count.

- `Reader.production` reads one clause, and can be called again after an error;
- `Grammar.readClauses` adds the productions of a text to a grammar up to the first error;
- `Grammar.ofText` is the grammar of a text.

The recursion on nested items and the loops over lists and options go by fuel. Each of them reads a token in every
round, so the length of the text that is left is enough.
-/

namespace ScopedGrammar

/-- The token at hand and the text after it. -/
structure Reader (W : Type) where
  lexer : Lexer
  current : Token W

/-- A computation that reads tokens. An error keeps what was read before it. -/
abbrev ClauseReader (W : Type) := ExceptT (ClauseError W) (StateM (Reader W))

variable {W : Type} [Numeral W]

namespace Reader

/-- A reader at the first token of a text. -/
def ofText (text : List Char) : Except (ClauseError W) (Reader W) :=
  match Lexer.next ⟨text, false⟩ with
  | (.error e, _) => .error e
  | (.ok token, lexer) => .ok ⟨lexer, token⟩

/-! ## Tokens -/

/-- Goes on to the next token. If there is none the token at hand stays, but the text is read. -/
def advance : ClauseReader W Unit := do
  let r ← get
  let (token, lexer) := r.lexer.next
  set { r with lexer }
  match token with
  | .error e => throw e
  | .ok token => set { lexer, current := token : Reader W }

/-- Refuses the token at hand. -/
def refuse {α : Type} (wanted : Wanted) : ClauseReader W α := do throw (.expected wanted (← get).current)

/-- Whether the token at hand is a mark. -/
def isAt (m : Mark) : ClauseReader W Bool := do
  match (← get).current with
  | .mark m' => return m' == m
  | _ => return false

/-- Goes past a mark. -/
def expect (m : Mark) : ClauseReader W Unit := do
  if ← isAt m then advance else refuse (.mark m)

/-- Reads a symbol, bare or in quotes. -/
def symbol : ClauseReader W String := do
  match (← get).current with
  | .name cs | .quoted cs =>
    advance
    return String.ofList cs
  | _ => refuse .symbol

/-- Reads a number. -/
def number : ClauseReader W W := do
  match (← get).current with
  | .number w =>
    advance
    return w
  | _ => refuse .number

/-- The fuel for the text that is left. -/
def fuel : ClauseReader W Nat := do return (← get).lexer.chars.length + 2

/-! ## Lists -/

/-- Reads elements as long as there is a comma before them. -/
def afterCommas {α : Type} (element : ClauseReader W α) : Nat → ClauseReader W (List α)
  | 0 => return []
  | fuel + 1 => do
    if ← isAt .comma then
      advance
      let a ← element
      return a :: (← afterCommas element fuel)
    else return []

/-- Reads elements with commas between them, up to a closing mark and past it. -/
def commaList {α : Type} (element : ClauseReader W α) (close : Mark) (fuel : Nat) : ClauseReader W (List α) := do
  let elements ←
    if ← isAt close then pure []
    else do
      let a ← element
      pure (a :: (← afterCommas element fuel))
  expect close
  return elements

/-- Reads an item. -/
def item : Nat → ClauseReader W Item
  | 0 => Item.symbol <$> symbol
  | fuel + 1 => do
    if ← isAt .openBracket then
      advance
      return .seq (.ofList (← commaList (item fuel) .closeBracket fuel))
    else Item.symbol <$> symbol

/-! ## Clauses -/

/-- Reads the value of an option into a production. -/
def option (name : List Char) (p : Production W) : ClauseReader W (Production W) := do
  if name == "resample".toList then
    return { p with resampleWeight := ← number }
  else if name == "bind".toList then
    expect .openBracket
    return { p with binds := p.binds ++ (← commaList symbol .closeBracket (← fuel)) }
  else throw (.unknownOption name)

/-- Reads options as long as there is a name. -/
def options : Nat → Production W → ClauseReader W (Production W)
  | 0, p => return p
  | fuel + 1, p => do
    match (← get).current with
    | .name cs =>
      advance
      expect .equals
      options fuel (← option cs p)
    | _ => return p

/-- Reads a clause. -/
def production [Arith W] : ClauseReader W (Production W) := do
  let nonterminal ← symbol
  expect .arrow
  let name ← if ← isAt .openParen then pure "" else symbol
  let children ←
    if ← isAt .openParen then do
      advance
      let fuel ← fuel
      Items.ofList <$> commaList (item fuel) .closeParen fuel
    else pure .nil
  let weight ← match (← get).current with
    | .number _ => number
    | _ => pure Arith.one
  let p ← options (← fuel) { nonterminal, name, children, weight, resampleWeight := Arith.one, binds := [] }
  expect .dot
  return p

end Reader

/-! ## Grammars -/

namespace Grammar

variable [Arith W]

/-- Adds the productions of all clauses up to the first error, with a bound on their number. -/
def addClauses : Nat → Grammar W → Reader W → Except (ClauseError W) Unit × Grammar W
  | 0, g, _ => (.ok (), g)
  | fuel + 1, g, r =>
    match r.current with
    | .eof => (.ok (), g)
    | _ =>
      match Reader.production.run.run r with
      | (.error e, _) => (.error e, g)
      | (.ok p, r') =>
        match g.add p with
        | .error e => (.error (.refused e), g)
        | .ok (_, g') => addClauses fuel g' r'

/-- Adds the productions of a text. Those before an error stay. -/
def readClauses (g : Grammar W) (text : List Char) : Except (ClauseError W) Unit × Grammar W :=
  match Reader.ofText text with
  | .error e => (.error e, g)
  | .ok r => addClauses (text.length + 1) g r

/-- The grammar of a text. -/
def ofText (config : Config W) (text : List Char) : Except (ClauseError W) (Grammar W) :=
  match (Grammar.empty config).readClauses text with
  | (.error e, _) => .error e
  | (.ok (), g) => .ok g

end Grammar

end ScopedGrammar

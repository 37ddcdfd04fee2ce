import ScopedGrammar.Symbol

/-!
# Right-hand sides

A right-hand side is a list of items: symbols, and sequences of items, which give structured literals such as argument
lists. `Items` is such a list, with a sequence in front of the rest or a symbol in front of the rest, so that functions
on it are recursive in the inside of a sequence and in the rest alike. Whether a symbol is a nonterminal depends on the
rules that are visible where the item is expanded, so an item does not say it.
-/

namespace ScopedGrammar

/-- A list of symbols and sequences. -/
inductive Items where
  | nil
  | symbol (name : String) (rest : Items)
  | seq (inside rest : Items)
deriving DecidableEq

/-- One entry of a right-hand side. -/
inductive Item where
  | symbol (name : String)
  | seq (inside : Items)
deriving DecidableEq

namespace Items

/-! ## As a list -/

/-- An item in front of others. -/
def cons : Item → Items → Items
  | .symbol s, rest => symbol s rest
  | .seq inside, rest => seq inside rest

/-- The items of a list. -/
def ofList (items : List Item) : Items := items.foldr cons nil

/-- The items one by one. -/
def toList : Items → List Item
  | nil => []
  | symbol s rest => .symbol s :: toList rest
  | seq inside rest => .seq inside :: toList rest

/-- The number of items; a sequence counts as one. -/
def length : Items → Nat
  | nil => 0
  | symbol _ rest => length rest + 1
  | seq _ rest => length rest + 1

@[simp] theorem toList_cons (item : Item) (rest : Items) : (cons item rest).toList = item :: rest.toList := by
  cases item <;> rfl

@[simp] theorem toList_ofList (items : List Item) : (ofList items).toList = items := by
  induction items with
  | nil => rfl
  | cons item rest ih => rw [ofList, List.foldr_cons, toList_cons, ← ofList, ih]

@[simp] theorem ofList_toList (items : Items) : ofList items.toList = items := by
  induction items with
  | nil => rfl
  | symbol s rest ih => rw [toList, ofList, List.foldr_cons, ← ofList, ih, cons]
  | seq inside rest _ ih => rw [toList, ofList, List.foldr_cons, ← ofList, ih, cons]

/-! ## Contents -/

/-- All symbols, from left to right. -/
def symbols : Items → List String
  | nil => []
  | symbol s rest => s :: symbols rest
  | seq inside rest => symbols inside ++ symbols rest

/-- The text of every item: a symbol, or a sequence in brackets. -/
def texts : Items → List (List Char)
  | nil => []
  | symbol s rest => Symbol.print s :: texts rest
  | seq inside rest => Symbol.bracketed (texts inside) :: texts rest

end Items

namespace Item

/-- All symbols of an item, from left to right. -/
def symbols : Item → List String
  | symbol s => [s]
  | seq inside => inside.symbols

/-- The symbol of an item that is a bare symbol. -/
def symbol? : Item → Option String
  | symbol s => some s
  | seq _ => none

/-- The text of an item. -/
def print : Item → List Char
  | symbol s => Symbol.print s
  | seq inside => Symbol.bracketed inside.texts

end Item

end ScopedGrammar

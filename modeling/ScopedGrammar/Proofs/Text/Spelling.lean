import Mathlib.Data.List.Forall2
import ScopedGrammar.Clause.Reader

/-!
# Clauses as tokens

The grammar of the grammar text. A `Clause` is what a clause says, with the parts that it leaves out, and `Spelling`
relates symbols, items, options and clauses to the tokens that may stand for them:

- a clause is `symbol -> rhs number? option* .`;
- a right-hand side is `symbol` or `symbol? ( items )`;
- an item is `symbol` or `[ items ]`, and items have commas between them;
- an option is `resample = number` or `bind = [ symbols ]`;
- a symbol is a name or a quoted string.

`Clause.production` gives the parts that are left out their defaults. The options set the production one after another
(`Production.setAll_eq`).
-/

namespace ScopedGrammar

variable {W : Type}

/-! ## Symbols and items -/

/-- A symbol is spelled bare or in quotes. -/
inductive Symbol.Spelling : String → Token W → Prop
  | name (cs : List Char) : Spelling (String.ofList cs) (.name cs)
  | quoted (cs : List Char) : Spelling (String.ofList cs) (.quoted cs)

/-- Lists of tokens with commas between them. -/
def Token.commas : List (List (Token W)) → List (Token W)
  | [] => []
  | ts :: tss => ts ++ tss.flatMap (.mark .comma :: ·)

/-- The tokens of every item: those of a symbol, or those of a sequence in brackets. -/
inductive Items.Spelling : Items → List (List (Token W)) → Prop
  | nil : Spelling .nil []
  | symbol {s : String} {rest : Items} {t : Token W} {tss : List (List (Token W))} :
      Symbol.Spelling s t → Spelling rest tss → Spelling (.symbol s rest) ([t] :: tss)
  | seq {inside rest : Items} {inner tss : List (List (Token W))} :
      Spelling inside inner → Spelling rest tss →
        Spelling (.seq inside rest) ((.mark .openBracket :: (Token.commas inner ++ [.mark .closeBracket])) :: tss)

/-- The tokens of symbols, one by one. -/
abbrev Symbol.Spellings (ss : List String) (tss : List (List (Token W))) : Prop :=
  List.Forall₂ (fun s ts => ∃ t : Token W, Spelling s t ∧ ts = [t]) ss tss

/-! ## Clauses -/

/-- The right-hand side of a clause. -/
inductive RightSide where
  /-- A name alone. -/
  | name (name : String)
  /-- Items in parentheses, with or without a name in front of them. -/
  | apply (name : Option String) (items : Items)

/-- An option of a clause. -/
inductive Setting (W : Type) where
  | resample (weight : W)
  | bind (nonterminals : List String)

/-- What a clause says. -/
structure Clause (W : Type) where
  nonterminal : String
  rhs : RightSide
  weight : Option W
  settings : List (Setting W)

namespace RightSide

/-- The name of the nodes; without a name it is empty. -/
def nodeName : RightSide → String
  | name s => s
  | apply s _ => s.getD ""

/-- The items; without parentheses there are none. -/
def items : RightSide → Items
  | name _ => .nil
  | apply _ items => items

/-- The tokens of a right-hand side. -/
inductive Spelling : RightSide → List (Token W) → Prop
  | name {s : String} {t : Token W} : Symbol.Spelling s t → Spelling (.name s) [t]
  | apply {s : Option String} {ts : List (Token W)} {items : Items} {tss : List (List (Token W))} :
      List.Forall₂ Symbol.Spelling s.toList ts → Items.Spelling items tss →
        Spelling (.apply s items) (ts ++ .mark .openParen :: (Token.commas tss ++ [.mark .closeParen]))

end RightSide

namespace Setting

/-- The resample weight that an option gives. -/
def weight? : Setting W → Option W
  | resample w => some w
  | bind _ => none

/-- The nonterminals of the variables that an option binds. -/
def bound : Setting W → List String
  | resample _ => []
  | bind ss => ss

/-- The tokens of an option. Its name is never in quotes. -/
inductive Spelling : Setting W → List (Token W) → Prop
  | resample (w : W) : Spelling (.resample w) [.name "resample".toList, .mark .equals, .number w]
  | bind {ss : List String} {tss : List (List (Token W))} : Symbol.Spellings ss tss →
      Spelling (.bind ss) (.name "bind".toList :: .mark .equals :: .mark .openBracket ::
        (Token.commas tss ++ [.mark .closeBracket]))

end Setting

namespace Clause

/-- The production that a clause adds. Weights that are left out are one; of the resample weights the last one counts,
and the bound variables of all options are put together. -/
def production [Arith W] (c : Clause W) : Production W where
  nonterminal := c.nonterminal
  name := c.rhs.nodeName
  children := c.rhs.items
  weight := c.weight.getD Arith.one
  resampleWeight := (c.settings.filterMap Setting.weight?).getLastD Arith.one
  binds := c.settings.flatMap Setting.bound

/-- The tokens of a clause. -/
inductive Spelling : Clause W → List (Token W) → Prop
  | intro {nonterminal : String} {rhs : RightSide} {weight : Option W} {settings : List (Setting W)} {t : Token W}
      {ts : List (Token W)} {tss : List (List (Token W))} :
      Symbol.Spelling nonterminal t → rhs.Spelling ts → List.Forall₂ Setting.Spelling settings tss →
        Spelling ⟨nonterminal, rhs, weight, settings⟩
          (t :: .mark .arrow :: (ts ++ (weight.toList.map .number ++ (tss.flatten ++ [.mark .dot]))))

theorem Spelling.ne_nil {c : Clause W} {ts : List (Token W)} (h : c.Spelling ts) : ts ≠ [] := by
  cases h
  exact List.cons_ne_nil _ _

end Clause

/-- The tokens of clauses, one after another. -/
def Clause.Spellings (cs : List (Clause W)) (ts : List (Token W)) : Prop :=
  ∃ tss, List.Forall₂ Clause.Spelling cs tss ∧ ts = tss.flatten

/-! ## Options of a production -/

namespace Production

/-- What an option does to a production. -/
def set (p : Production W) : Setting W → Production W
  | .resample w => { p with resampleWeight := w }
  | .bind ss => { p with binds := p.binds ++ ss }

/-- Options that come one after another: the last resample weight counts, and all bound variables do. -/
theorem setAll_eq (settings : List (Setting W)) (p : Production W) : settings.foldl set p =
    { p with
      resampleWeight := (settings.filterMap Setting.weight?).getLastD p.resampleWeight
      binds := p.binds ++ settings.flatMap Setting.bound } := by
  induction settings generalizing p with
  | nil => simp
  | cons s settings ih =>
    rw [List.foldl_cons, ih]
    cases s with
    | resample w =>
      simp only [set, List.filterMap_cons, Setting.weight?, List.getLastD_cons, List.flatMap_cons, Setting.bound,
        List.nil_append]
    | bind ss =>
      simp only [set, List.filterMap_cons, Setting.weight?, List.flatMap_cons, Setting.bound, List.append_assoc]

end Production

end ScopedGrammar

import ScopedGrammar.Proofs.Text.Parsing

/-!
# Printed text as tokens

The text of an item, of an option and of a whole production is read as the tokens that stand for it (`spells_items`,
`yields_options`, `yields_production`), and these spell a clause that says the production (`spelling_tokens`,
`production_clause`). A text is read together with what follows it, and so what follows has to end a symbol or a number
(`isSeparated`, `endsNumber`). That weights can be read back is an assumption on their type (`Numeral.ReadsBack`).
-/

namespace ScopedGrammar

variable {W : Type}

/-! ## Tokens of printed clauses -/

/-- The tokens of every item. -/
def Items.tokens : Items → List (List (Token W))
  | nil => []
  | symbol s rest => [Symbol.token s] :: tokens rest
  | seq inside rest => (.mark .openBracket :: (Token.commas (tokens inside) ++ [.mark .closeBracket])) :: tokens rest

namespace Production

variable [Arith W] (p : Production W)

/-- The tokens of the name. -/
def nameTokens : List (Token W) := if p.name.isEmpty then [] else [Symbol.token p.name]

/-- The tokens of the right-hand side. -/
def childTokens : List (Token W) :=
  if p.children == .nil && !p.name.isEmpty then []
  else .mark .openParen :: (Token.commas p.children.tokens ++ [.mark .closeParen])

/-- The tokens of the resample weight, if it is not the default. -/
def resampleTokens : List (Token W) :=
  if p.resampleWeight == Arith.one then [] else [.name "resample".toList, .mark .equals, .number p.resampleWeight]

/-- The tokens of the bound variables, if there are any. -/
def bindTokens : List (Token W) :=
  if p.binds.isEmpty then []
  else .name "bind".toList :: .mark .equals :: .mark .openBracket ::
    (Token.commas (p.binds.map fun s => [Symbol.token s]) ++ [.mark .closeBracket])

/-- The tokens of the clause of a production. -/
def tokens : List (Token W) :=
  Symbol.token p.nonterminal :: .mark .arrow :: (p.nameTokens ++ (p.childTokens ++
    .number p.weight :: (p.resampleTokens ++ (p.bindTokens ++ [.mark .dot]))))

/-- The clause that is printed for a production. -/
def clause : Clause W where
  nonterminal := p.nonterminal
  rhs := if p.children == .nil && !p.name.isEmpty then .name p.name
    else .apply (if p.name.isEmpty then none else some p.name) p.children
  weight := some p.weight
  settings := (if p.resampleWeight == Arith.one then [] else [.resample p.resampleWeight]) ++
    if p.binds.isEmpty then [] else [.bind p.binds]

end Production

/-! ## Clauses of productions -/

theorem Symbol.spelling_token (s : String) : Spelling s (token s : Token W) := by
  unfold token
  split
  · simpa using Spelling.name (W := W) s.toList
  · simpa using Spelling.quoted (W := W) s.toList

theorem Symbol.spellings_tokens (ss : List String) : Spellings ss (ss.map fun s => [(token s : Token W)]) := by
  induction ss with
  | nil => exact .nil
  | cons s ss ih => exact .cons ⟨_, spelling_token s, rfl⟩ ih

theorem Items.spelling_tokens (items : Items) : items.Spelling (items.tokens : List (List (Token W))) := by
  induction items with
  | nil => exact .nil
  | symbol s rest ih => exact .symbol (Symbol.spelling_token s) ih
  | seq inside rest ihInside ih => exact .seq ihInside ih

namespace Production

variable [Arith W] (p : Production W)

theorem spelling_rhs : p.clause.rhs.Spelling (p.nameTokens ++ p.childTokens) := by
  unfold clause nameTokens childTokens
  by_cases hnil : (p.children == .nil && !p.name.isEmpty) = true
  · have hname : p.name.isEmpty = false := by simp_all
    rw [if_pos hnil, if_pos hnil, hname]
    exact .name (Symbol.spelling_token p.name)
  · rw [if_neg hnil, if_neg hnil]
    refine .apply ?_ (Items.spelling_tokens p.children)
    cases p.name.isEmpty with
    | true => exact .nil
    | false => exact .cons (Symbol.spelling_token p.name) .nil

theorem spelling_settings : ∃ tss, List.Forall₂ Setting.Spelling p.clause.settings tss ∧
    tss.flatten = p.resampleTokens ++ p.bindTokens := by
  have hbind := Setting.Spelling.bind (Symbol.spellings_tokens (W := W) p.binds)
  have hresample := Setting.Spelling.resample p.resampleWeight
  unfold clause resampleTokens bindTokens
  cases p.resampleWeight == Arith.one <;> cases p.binds.isEmpty
  · exact ⟨_, .cons hresample (.cons hbind .nil), by simp⟩
  · exact ⟨_, .cons hresample .nil, by simp⟩
  · exact ⟨_, .cons hbind .nil, by simp⟩
  · exact ⟨_, .nil, rfl⟩

/-- The tokens of a production spell its clause. -/
theorem spelling_tokens : p.clause.Spelling p.tokens := by
  obtain ⟨tss, hsettings, hflatten⟩ := p.spelling_settings
  have h : p.clause.Spelling _ :=
    .intro (Symbol.spelling_token p.nonterminal) p.spelling_rhs hsettings
  simpa [tokens, hflatten] using h

/-- The printed clause says the production, if weights that count as one are left out for one only. -/
theorem production_clause (hone : (p.resampleWeight == Arith.one) = true → p.resampleWeight = Arith.one) :
    p.clause.production = p := by
  have hname : p.clause.rhs.nodeName = p.name := by
    unfold clause
    cases hempty : p.name.isEmpty with
    | true => simp_all [RightSide.nodeName]
    | false => cases p.children == .nil <;> rfl
  have hitems : p.clause.rhs.items = p.children := by
    unfold clause
    by_cases hnil : (p.children == .nil && !p.name.isEmpty) = true
    · simp_all [RightSide.items]
    · simp [hnil, RightSide.items]
  have hresample : (p.clause.settings.filterMap Setting.weight?).getLastD Arith.one = p.resampleWeight := by
    unfold clause
    cases hw : p.resampleWeight == Arith.one with
    | true => cases p.binds.isEmpty <;> simp [Setting.weight?, hone hw]
    | false => cases p.binds.isEmpty <;> rfl
  have hbinds : p.clause.settings.flatMap Setting.bound = p.binds := by
    unfold clause
    cases hempty : p.binds with
    | nil => cases p.resampleWeight == Arith.one <;> rfl
    | cons s ss => cases p.resampleWeight == Arith.one <;> simp [Setting.bound]
  unfold Clause.production
  rw [hname, hitems, hresample, hbinds]
  rfl

end Production

/-- Weights are written as plain numbers and read back unchanged, and what counts as one is one. -/
class Numeral.ReadsBack (W : Type) [Arith W] [Numeral W] : Prop where
  exists_plain : ∀ w : W, Arith.isFinite w = true →
    ∃ p : Plain, Numeral.print w = p.text ∧ Numeral.ofDecimal p.value = w
  eq_one : ∀ w : W, (w == Arith.one) = true → w = Arith.one

namespace Lexer

variable [Numeral W] {ts more : List (Token W)} {rest : List Char}

/-! ## Items -/

/-- In front of anything that ends a symbol a text is read as some tokens. -/
def Spells (text : List Char) (ts : List (Token W)) : Prop :=
  ∀ (rest : List Char) (more : List (Token W)), isSeparated rest = true → Yields ⟨rest, false⟩ more →
    Yields ⟨text ++ rest, false⟩ (ts ++ more)

theorem spells_symbol (s : String) : Spells (Symbol.print s) [(Symbol.token s : Token W)] := fun _ _ hrest h =>
  yields_symbol s hrest h

section

variable {texts : List (List Char)} {tss : List (List (Token W))}

theorem yields_afterCommas (ht : List.Forall₂ Spells texts tss) (hrest : isSeparated rest = true)
    (h : Yields ⟨rest, false⟩ more) :
    isSeparated (texts.flatMap ([',', ' '] ++ ·) ++ rest) = true ∧
      Yields ⟨texts.flatMap ([',', ' '] ++ ·) ++ rest, false⟩ (tss.flatMap (.mark .comma :: ·) ++ more) := by
  induction ht with
  | nil => exact ⟨hrest, h⟩
  | @cons text ts texts tss hs _ ih =>
    refine ⟨rfl, ?_⟩
    simp only [List.flatMap_cons, List.cons_append, List.append_assoc, List.nil_append]
    exact yields_mark .comma (yields_blank (by decide) (hs _ _ ih.1 ih.2))

theorem commas_cons (text : List Char) (texts : List (List Char)) :
    Symbol.commas (text :: texts) = text ++ texts.flatMap ([',', ' '] ++ ·) := by
  induction texts generalizing text with
  | nil => simp [Symbol.commas]
  | cons text' texts ih =>
    have := ih text'
    simp only [Symbol.commas, List.intercalate_cons_cons] at this ⊢
    rw [this]
    simp

theorem spells_commas (ht : List.Forall₂ Spells texts tss) : Spells (Symbol.commas texts) (Token.commas tss) := by
  intro rest more hrest h
  cases ht with
  | nil => exact h
  | cons hs htail =>
    obtain ⟨hsep, htokens⟩ := yields_afterCommas htail hrest h
    rw [commas_cons, Token.commas, List.append_assoc, List.append_assoc]
    exact hs _ _ hsep htokens

end

/-- The text of a right-hand side is read item by item. -/
theorem spells_items (items : Items) : List.Forall₂ Spells items.texts (items.tokens : List (List (Token W))) := by
  induction items with
  | nil => exact .nil
  | symbol s rest ih => exact .cons (spells_symbol s) ih
  | seq inside rest ihInside ih =>
    refine .cons (fun rest more hrest h => ?_) ih
    simp only [Symbol.bracketed, List.cons_append, List.append_assoc, List.nil_append]
    exact yields_mark .openBracket (spells_commas ihInside _ _ rfl (yields_mark .closeBracket h))

theorem spells_symbols (ss : List String) :
    List.Forall₂ Spells (ss.map Symbol.print) (ss.map fun s => [(Symbol.token s : Token W)]) := by
  induction ss with
  | nil => exact .nil
  | cons s ss ih => exact .cons (spells_symbol s) ih

/-! ## Productions -/

theorem yields_option (name : List Char) (hname : Symbol.isBare name = true) (h : Yields ⟨rest, false⟩ ts) :
    Yields ⟨' ' :: (name ++ '=' :: rest), false⟩ (.name name :: .mark .equals :: ts) :=
  yields_blank (by decide) (yields_name hname rfl (yields_mark .equals h))

section

variable (p : Production W)

theorem yields_nameTokens (hrest : isSeparated rest = true) (h : Yields ⟨rest, false⟩ ts) :
    Yields ⟨(if p.name.isEmpty then [] else Symbol.print p.name) ++ rest, false⟩ (p.nameTokens ++ ts) := by
  unfold Production.nameTokens
  by_cases hname : p.name.isEmpty = true
  · rw [if_pos hname, if_pos hname]
    exact h
  · rw [if_neg hname, if_neg hname]
    exact yields_symbol p.name hrest h

theorem yields_childTokens (hrest : isSeparated rest = true) (h : Yields ⟨rest, false⟩ ts) :
    isSeparated ((if p.children == .nil && !p.name.isEmpty then []
      else Symbol.parenthesized p.children.texts) ++ rest) = true ∧
    Yields ⟨(if p.children == .nil && !p.name.isEmpty then []
      else Symbol.parenthesized p.children.texts) ++ rest, false⟩ (p.childTokens ++ ts) := by
  unfold Production.childTokens
  by_cases hnil : (p.children == .nil && !p.name.isEmpty) = true
  · rw [if_pos hnil, if_pos hnil]
    exact ⟨hrest, h⟩
  · rw [if_neg hnil, if_neg hnil]
    refine ⟨rfl, ?_⟩
    simp only [Symbol.parenthesized, List.cons_append, List.append_assoc, List.nil_append]
    exact yields_mark .openParen (spells_commas (spells_items _) _ _ rfl (yields_mark .closeParen h))

theorem yields_bindTokens (hrest : endsNumber rest = true) (h : Yields ⟨rest, false⟩ ts) :
    endsNumber ((if p.binds.isEmpty then []
      else " bind=".toList ++ Symbol.bracketed (p.binds.map Symbol.print)) ++ rest) = true ∧
    Yields ⟨(if p.binds.isEmpty then []
      else " bind=".toList ++ Symbol.bracketed (p.binds.map Symbol.print)) ++ rest, false⟩ (p.bindTokens ++ ts) := by
  unfold Production.bindTokens
  by_cases hempty : p.binds.isEmpty = true
  · rw [if_pos hempty, if_pos hempty]
    exact ⟨hrest, h⟩
  · rw [if_neg hempty, if_neg hempty]
    refine ⟨rfl, ?_⟩
    have hlist := spells_commas (spells_symbols (W := W) p.binds) _ _ rfl (yields_mark .closeBracket h)
    have hoption := yields_option "bind".toList (by decide +kernel) (yields_mark .openBracket hlist)
    have htext : " bind=".toList = ' ' :: ("bind".toList ++ ['=']) := rfl
    simpa only [htext, Symbol.bracketed, Mark.text, List.cons_append, List.append_assoc, List.nil_append] using hoption

variable [Arith W] [Numeral.ReadsBack W]

theorem yields_weight {w : W} (hw : Arith.isFinite w = true) (hrest : endsNumber rest = true)
    (h : Yields ⟨rest, false⟩ ts) : Yields ⟨Numeral.print w ++ rest, false⟩ (.number w :: ts) := by
  obtain ⟨p, htext, hvalue⟩ := Numeral.ReadsBack.exists_plain w hw
  have := yields_number p hrest h
  rwa [hvalue, ← htext] at this

theorem yields_options (hw : Arith.isFinite p.resampleWeight = true) (hrest : endsNumber rest = true)
    (h : Yields ⟨rest, false⟩ ts) :
    endsNumber (p.printOptions ++ rest) = true ∧
      Yields ⟨p.printOptions ++ rest, false⟩ (p.resampleTokens ++ (p.bindTokens ++ ts)) := by
  obtain ⟨hends, hbinds⟩ := yields_bindTokens p hrest h
  unfold Production.printOptions Production.resampleTokens
  by_cases hone : (p.resampleWeight == Arith.one) = true
  · rw [if_pos hone, if_pos hone]
    exact ⟨hends, hbinds⟩
  · rw [if_neg hone, if_neg hone, List.append_assoc]
    have hoption := yields_option "resample".toList (by decide +kernel) (yields_weight hw hends hbinds)
    have htext : " resample=".toList = ' ' :: ("resample".toList ++ ['=']) := rfl
    refine ⟨rfl, ?_⟩
    simpa only [htext, List.cons_append, List.append_assoc, List.nil_append] using hoption

/-- The clause of a production is read as the tokens that stand for it. -/
theorem yields_production (hw : Arith.isFinite p.weight = true) (hr : Arith.isFinite p.resampleWeight = true)
    (hrest : rest.head?.any Char.isDigit = false) (h : Yields ⟨rest, false⟩ ts) :
    Yields ⟨p.print ++ rest, false⟩ (p.tokens ++ ts) := by
  have hdot : endsNumber ('.' :: rest) = true := by simpa [endsNumber] using hrest
  obtain ⟨hends, hoptions⟩ := yields_options p hr hdot (yields_mark .dot h)
  have hweight := yields_blank (by decide : Character.isBlank ' ' = true) (yields_weight hw hends hoptions)
  obtain ⟨hsep, hchildren⟩ := yields_childTokens p (rfl : isSeparated (' ' :: _) = true) hweight
  have hname := yields_nameTokens p hsep hchildren
  have harrow := yields_blank (by decide : Character.isBlank ' ' = true)
    (yields_mark .arrow (yields_blank (by decide : Character.isBlank ' ' = true) hname))
  have hall := yields_symbol p.nonterminal rfl harrow
  simpa [Production.print, Production.printBody, Production.tokens, Mark.text] using hall

end

end Lexer

end ScopedGrammar

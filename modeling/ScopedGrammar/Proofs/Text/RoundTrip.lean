import ScopedGrammar.Proofs.Text.Acceptance
import ScopedGrammar.Proofs.Text.Binary64

/-!
# Grammars from their own text

The text of a grammar is read back as the grammar itself, with ids that count up from zero (`Built.ofText_eq`,
`Built.ofText_print`). Its tokens spell the clauses of its rules (`spellings_clauses`), and these come group by group,
so that the same table comes about.
-/

namespace ScopedGrammar

variable {W : Type}

/-! ## Clauses -/

namespace Grammar

section

variable [Arith W]

theorem spellings_clauses (ps : List (Production W)) :
    Clause.Spellings (ps.map (·.clause)) (ps.flatMap (·.tokens)) := by
  refine ⟨ps.map (·.tokens), ?_, rfl⟩
  rw [List.forall₂_map_left_iff, List.forall₂_map_right_iff]
  exact List.forall₂_same.mpr fun p _ => p.spelling_tokens

variable [Numeral W]

theorem print_eq (g : Grammar W) :
    g.print = (g.allRules.map (·.toProduction)).flatMap fun p => p.print ++ ['\n'] := by
  rw [List.flatMap_map]
  rfl

variable [Numeral.ReadsBack W]

theorem map_production_clause (ps : List (Production W)) :
    (ps.map (·.clause)).map (·.production) = ps := by
  rw [List.map_map]
  exact List.map_id'' (fun p : Production W => p.production_clause (Numeral.ReadsBack.eq_one p.resampleWeight)) ps

/-- The clauses of productions, one a line, are read as their tokens. -/
theorem yields_clauses : ∀ {ps : List (Production W)},
    (∀ p ∈ ps, Arith.isFinite p.weight = true ∧ Arith.isFinite p.resampleWeight = true) →
    Lexer.Yields ⟨ps.flatMap fun p => p.print ++ ['\n'], false⟩ (ps.flatMap (·.tokens))
  | [], _ => Lexer.yields_nil
  | p :: ps, h => by
    obtain ⟨hw, hr⟩ := h p List.mem_cons_self
    have hline := Lexer.yields_blank (by decide : Character.isBlank '\n' = true)
      (yields_clauses fun q hq => h q (List.mem_cons_of_mem _ hq))
    rw [List.flatMap_cons, List.flatMap_cons, List.append_assoc]
    exact Lexer.yields_production p hw hr rfl hline

/-- The text of a grammar is read back as the same grammar with other ids. -/
theorem Built.ofText_eq {g : Grammar W} (hg : g.Built) : Grammar.ofText g.config g.print =
    .ok { table := RuleTable.renumber 0 g.table, nextId := g.ruleCount, config := g.config } := by
  have hstored := hg.wellStored
  have hvalid : ∀ p ∈ g.allRules.map (·.toProduction), p.validate = .ok () := by
    intro p hp
    obtain ⟨r, hr, rfl⟩ := List.mem_map.mp hp
    exact hstored.valid r hr
  have hfinite : ∀ p ∈ g.allRules.map (·.toProduction),
      Arith.isFinite p.weight = true ∧ Arith.isFinite p.resampleWeight = true := by
    intro p hp
    obtain ⟨_, hw, hr⟩ := Production.validate_eq_ok_iff.mp (hvalid p hp)
    simp only [Arith.isPositive, Arith.isNonnegative, Bool.and_eq_true] at hw hr
    exact ⟨hw.1, hr.1⟩
  have hproductions := map_production_clause (g.allRules.map (·.toProduction))
  have htable : RuleTable.insertAll 0 (g.allRules.map (·.toProduction)) [] = RuleTable.renumber 0 g.table :=
    RuleTable.insertAll_eq 0 hstored.grouped (by simp)
  rw [print_eq, ofText_eq_ok_iff (yields_clauses hfinite) (spellings_clauses _), hproductions, htable]
  refine ⟨fun c hc => ?_, by simp [ruleCount]⟩
  exact hvalid _ (hproductions ▸ List.mem_map_of_mem hc)

end

/-- Printing a grammar of doubles and reading the text loses nothing but the ids, which count up from zero. -/
theorem Built.ofText_print {g : Grammar Float} (hg : g.Built) : ∃ g' : Grammar Float,
    Grammar.ofText g.config g.print = .ok g' ∧ g'.nonterminals = g.nonterminals ∧
      (∀ nt, (g'.rules nt).map (·.toProduction) = (g.rules nt).map (·.toProduction)) ∧
      g'.allRules.map (·.toProduction) = g.allRules.map (·.toProduction) ∧
      g'.allRules.map (·.id) = (List.range g.ruleCount).map Int.ofNat ∧ g'.print = g.print := by
  refine ⟨_, hg.ofText_eq, RuleTable.keys_renumber 0 g.table, fun nt => RuleTable.rules_renumber nt 0 g.table,
    RuleTable.map_toProduction_renumber 0 g.table, ?_, ?_⟩
  · rw [List.range_eq_range']
    exact RuleTable.map_id_renumber 0 g.table
  · rw [print_eq, print_eq]
    exact congrArg _ (RuleTable.map_toProduction_renumber 0 g.table)

/-- Symbols that are not bare and weights at the ends of the range, after a removal. -/
def oddities : Grammar Float where
  table := [("", [⟨⟨"", "resample", .seq (.symbol "%\n\"\\" .nil) .nil, Float.ofBits 1, -0.0, ["", "bind"]⟩, 1⟩]),
    ("S", [⟨⟨"S", "", .nil, Float.ofBits 0x7FEFFFFFFFFFFFFF, 0.5, []⟩, 2⟩])]
  nextId := 3
  config := ⟨1.0, 1.0, "y"⟩

theorem built_oddities : oddities.Built :=
  have h := Built.empty (W := Float) ⟨1.0, 1.0, "y"⟩
  have h := h.add (p := ⟨"S", "unit", .nil, 1.0, 1.0, []⟩) rfl
  have h := h.add (p := ⟨"", "resample", .seq (.symbol "%\n\"\\" .nil) .nil, Float.ofBits 1, -0.0, ["", "bind"]⟩) rfl
  have h := h.add (p := ⟨"S", "", .nil, Float.ofBits 0x7FEFFFFFFFFFFFFF, 0.5, []⟩) rfl
  h.remove (rfl : remove? _ "S" 0 = _)

theorem oddities_ofText_print : oddities.ruleCount = 2 ∧ ∃ g' : Grammar Float,
    Grammar.ofText oddities.config oddities.print = .ok g' ∧ g'.nonterminals = oddities.nonterminals ∧
      (∀ nt, (g'.rules nt).map (·.toProduction) = (oddities.rules nt).map (·.toProduction)) ∧
      g'.allRules.map (·.toProduction) = oddities.allRules.map (·.toProduction) ∧
      g'.allRules.map (·.id) = (List.range oddities.ruleCount).map Int.ofNat ∧ g'.print = oddities.print :=
  ⟨rfl, built_oddities.ofText_print⟩

end Grammar

end ScopedGrammar

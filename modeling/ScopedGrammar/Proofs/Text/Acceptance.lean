import ScopedGrammar.Arith.Binary64
import ScopedGrammar.Decimal.Binary64
import ScopedGrammar.Proofs.Insertion
import ScopedGrammar.Proofs.Text.Recognition

/-!
# Which texts are grammars

A text is read as a grammar if and only if it splits into tokens that spell clauses whose productions are all valid, and
the grammar then holds the productions of the clauses under the ids 0, 1, 2, ... (`Grammar.ofText_exact`). That clauses
that are spelled are added is `addClauses_eq_ok_iff`; that nothing else is read is `exists_of_addClauses`.
-/

namespace ScopedGrammar

variable {W : Type} [Numeral W]

theorem Reader.next_of_ofText {text : List Char} {r : Reader W} (h : ofText text = .ok r) :
    Lexer.next ⟨text, false⟩ = (.ok r.current, r.lexer) := by
  unfold ofText at h
  split at h
  · cases h
  · rename_i hnext
    cases h
    exact hnext

/-- The text that is left behind its first token is shorter. -/
theorem Reader.size_lt_of_ofText {text : List Char} {r : Reader W} (h : ofText text = .ok r) (hr : r.current ≠ .eof) :
    r.lexer.size < text.length + 1 := by
  have hlt := Lexer.size_next (next_of_ofText h) hr
  simp only [Lexer.size, Bool.false_eq_true, if_false] at hlt ⊢
  omega

namespace Grammar

variable [Arith W]

/-! ## Clauses -/

/-- In front of a token clauses are read if a first one is read, its production is valid and the others are read. -/
theorem addClauses_succ_eq_ok_iff {fuel : Nat} {g g' : Grammar W} {r : Reader W} (hr : r.current ≠ .eof) :
    addClauses (fuel + 1) g r = (.ok (), g') ↔ ∃ p r', Reader.production.run.run r = (.ok p, r') ∧
      p.validate = .ok () ∧
      addClauses fuel { g with table := g.table.insert { p with id := g.nextId }, nextId := g.nextId + 1 } r' =
        (.ok (), g') := by
  rw [addClauses]
  split
  · rename_i heof
    exact absurd heof hr
  · constructor
    · intro h
      split at h
      · cases h
      · rename_i p r' hrun
        split at h
        · cases h
        · rename_i hadd
          obtain ⟨hvalid, rfl, rfl⟩ := add_eq_ok hadd
          exact ⟨p, r', hrun, hvalid, h⟩
    · rintro ⟨p, r', hrun, hvalid, h⟩
      rw [hrun]
      simp only [add_of_validate hvalid]
      exact h

/-- Clauses that are spelled are all added in their order, if and only if their productions are valid. -/
theorem addClauses_eq_ok_iff {cs : List (Clause W)} {tss : List (List (Token W))}
    (h : List.Forall₂ Clause.Spelling cs tss) {fuel : Nat} {g g' : Grammar W} {r : Reader W} {l : Lexer}
    (hfuel : cs.length ≤ fuel) (hr : r.Passes tss.flatten ⟨l, .eof⟩) : addClauses fuel g r = (.ok (), g') ↔
      (∀ c ∈ cs, c.production.validate = .ok ()) ∧ g' =
        { g with
          table := RuleTable.insertAll g.nextId (cs.map (·.production)) g.table
          nextId := g.nextId + cs.length } := by
  induction h generalizing fuel g r with
  | nil =>
    have hrun : addClauses fuel g r = (.ok (), g) := by
      cases hr
      cases fuel <;> rfl
    rw [hrun]
    simp only [Prod.mk.injEq, true_and, List.not_mem_nil, false_imp_iff, implies_true]
    exact eq_comm
  | @cons c ts cs tss hc _ ih =>
    obtain ⟨fuel, rfl⟩ : ∃ k, fuel = k + 1 := ⟨fuel - 1, by rw [List.length_cons] at hfuel; omega⟩
    rw [List.flatten_cons] at hr
    obtain ⟨r', hrun, hr'⟩ := Reader.reads_production hc r _ hr
    have hcurrent : r.current ≠ .eof := hr.current_ne_eof (by simp [hc.ne_nil])
    have hothers := fun g => ih (g := g) (Nat.le_of_succ_le_succ hfuel) hr'
    rw [addClauses_succ_eq_ok_iff hcurrent, List.forall_mem_cons, List.map_cons, RuleTable.insertAll, List.length_cons,
      Nat.add_comm cs.length 1, ← Nat.add_assoc]
    constructor
    · rintro ⟨p, r'', hrun', hvalid, h⟩
      obtain ⟨hp, rfl⟩ := Prod.mk.inj (hrun.symm.trans hrun')
      obtain rfl := Except.ok.inj hp
      obtain ⟨hall, rfl⟩ := (hothers _).mp h
      exact ⟨⟨hvalid, hall⟩, rfl⟩
    · rintro ⟨⟨hvalid, hall⟩, rfl⟩
      exact ⟨_, _, hrun, hvalid, (hothers _).mpr ⟨hall, rfl⟩⟩

/-- Where reading clauses succeeds, the text goes on with clauses to its end. Each of them shortens the text, and so
the fuel is not used up before. -/
theorem exists_of_addClauses : ∀ {fuel : Nat} {g g' : Grammar W} {r : Reader W},
    (r.current ≠ .eof → r.lexer.size < fuel) → addClauses fuel g r = (.ok (), g') →
    ∃ (cs : List (Clause W)) (tss : List (List (Token W))),
      List.Forall₂ Clause.Spelling cs tss ∧ r.Holds tss.flatten := by
  intro fuel
  induction fuel with
  | zero =>
    intro g g' r hfuel _
    obtain ⟨l, t⟩ := r
    obtain rfl : t = .eof := by
      by_contra ht
      exact Nat.not_lt_zero _ (hfuel ht)
    exact ⟨[], [], .nil, .eof⟩
  | succ fuel ih =>
    intro g g' r hfuel h
    by_cases hcurrent : r.current = .eof
    · obtain ⟨l, t⟩ := r
      obtain rfl : t = .eof := hcurrent
      exact ⟨[], [], .nil, .eof⟩
    obtain ⟨p, r', hrun, -, hothers⟩ := (addClauses_succ_eq_ok_iff hcurrent).mp h
    obtain ⟨c, ts, hc, hpasses, rfl⟩ := Reader.exists_of_production hrun
    have hfuel' : r'.current ≠ .eof → r'.lexer.size < fuel := fun hr' => by
      have hlt := Reader.size_lt_of_production hrun hr'
      have := hfuel hcurrent
      omega
    obtain ⟨cs, tss, hcs, hr'⟩ := ih hfuel' hothers
    exact ⟨c :: cs, ts :: tss, .cons hc hcs, hpasses.holds hr'⟩

/-! ## Texts -/

theorem ofText_eq_ok {config : Config W} {text : List Char} {g : Grammar W} : ofText config text = .ok g ↔
    ∃ r, Reader.ofText text = .ok r ∧ addClauses (text.length + 1) (Grammar.empty config) r = (.ok (), g) := by
  rw [ofText, readClauses]
  cases Reader.ofText (W := W) text with
  | error e => simp
  | ok r =>
    simp only [Except.ok.injEq, exists_eq_left']
    cases addClauses (text.length + 1) (Grammar.empty config) r with
    | mk result g' => cases result <;> simp

/-- Reading a text is reading the clauses that its tokens spell. -/
theorem ofText_eq_ok_iff {config : Config W} {text : List Char} {g : Grammar W} {cs : List (Clause W)}
    {ts : List (Token W)} (hts : Lexer.Yields ⟨text, false⟩ ts) (hcs : Clause.Spellings cs ts) :
    ofText config text = .ok g ↔ (∀ c ∈ cs, c.production.validate = .ok ()) ∧ g =
      ⟨RuleTable.insertAll 0 (cs.map (·.production)) [], cs.length, config⟩ := by
  obtain ⟨tss, hspelling, rfl⟩ := hcs
  obtain ⟨r, hr, hholds⟩ := Reader.holds_ofText hts
  obtain ⟨l, hpasses⟩ := hholds.exists_passes
  have hfuel : cs.length ≤ text.length + 1 := by
    have hclauses := Clause.length_le_of_spelling hspelling
    have htokens := hts.length_le
    simp only [Lexer.size, Bool.false_eq_true, if_false] at htokens
    omega
  have hiff : addClauses _ (Grammar.empty config) r = (.ok (), g) ↔ _ := addClauses_eq_ok_iff hspelling hfuel hpasses
  simp only [Grammar.empty, Nat.zero_add] at hiff
  rw [← hiff, ofText_eq_ok, hr]
  simp only [Except.ok.injEq, exists_eq_left']
  rfl

/-- A text that is read is made of clauses. -/
theorem exists_of_ofText {config : Config W} {text : List Char} {g : Grammar W} (h : ofText config text = .ok g) :
    ∃ (cs : List (Clause W)) (ts : List (Token W)), Lexer.Yields ⟨text, false⟩ ts ∧ Clause.Spellings cs ts := by
  obtain ⟨r, hr, hclauses⟩ := ofText_eq_ok.mp h
  obtain ⟨cs, tss, hspelling, hholds⟩ := exists_of_addClauses (Reader.size_lt_of_ofText hr) hclauses
  exact ⟨cs, tss.flatten, hholds.yields (Reader.next_of_ofText hr), tss, hspelling, rfl⟩

/-- **A text is a grammar if and only if it is made of clauses whose productions are valid**, and then the grammar has
the productions of the clauses in their order. -/
theorem ofText_exact (config : Config W) (text : List Char) :
    ((∃ g, ofText config text = .ok g) ↔ ∃ (cs : List (Clause W)) (ts : List (Token W)),
      Lexer.Yields ⟨text, false⟩ ts ∧ Clause.Spellings cs ts ∧ ∀ c ∈ cs, c.production.validate = .ok ()) ∧
    ∀ g, ofText config text = .ok g → ∀ (cs : List (Clause W)) (ts : List (Token W)),
      Lexer.Yields ⟨text, false⟩ ts → Clause.Spellings cs ts →
        g.config = config ∧ g.nextId = cs.length ∧
        g.allRules.Perm (RuleTable.numbered 0 (cs.map (·.production))) ∧
        ∀ nt, g.rules nt = (RuleTable.numbered 0 (cs.map (·.production))).filter fun r => r.nonterminal == nt := by
  refine ⟨⟨fun ⟨g, h⟩ => ?_, fun ⟨cs, ts, hts, hcs, hvalid⟩ => ?_⟩, fun g h cs ts hts hcs => ?_⟩
  · obtain ⟨cs, ts, hts, hcs⟩ := exists_of_ofText h
    exact ⟨cs, ts, hts, hcs, ((ofText_eq_ok_iff hts hcs).mp h).1⟩
  · exact ⟨_, (ofText_eq_ok_iff hts hcs).mpr ⟨hvalid, rfl⟩⟩
  · obtain ⟨-, rfl⟩ := (ofText_eq_ok_iff hts hcs).mp h
    refine ⟨rfl, rfl, ?_, fun nt => ?_⟩
    · simpa [allRules, RuleTable.toList] using RuleTable.toList_insertAll_perm 0 (cs.map (·.production)) []
    · exact RuleTable.rules_insertAll nt 0 (cs.map (·.production)) (t := []) .nil

/-- Two clauses without a blank where none is needed: the first leaves out the name and the weight and binds twice, the
second leaves out the parentheses and gives two resample weights. -/
def terse : List Char :=
  ['S', '-', '>', '(', '[', 'x', ']', ')', 'b', 'i', 'n', 'd', '=', '[', 'S', ']', 'b', 'i', 'n', 'd', '=', '[', 'x',
   ']', '.', 'S', '-', '>', 'y', ' ', '2', 'r', 'e', 's', 'a', 'm', 'p', 'l', 'e', '=', '3', 'r', 'e', 's', 'a', 'm',
   'p', 'l', 'e', '=', '0', '.']

/-- What `terse` says. -/
def terseClauses : List (Clause Float) :=
  [⟨"S", .apply none (.seq (.symbol "x" .nil) .nil), none, [.bind ["S"], .bind ["x"]]⟩,
   ⟨"S", .name "y", some 2.0, [.resample 3.0, .resample 0.0]⟩]

theorem spellings_terse : ∃ ts, Lexer.Yields ⟨terse, false⟩ ts ∧ Clause.Spellings terseClauses ts := by
  refine ⟨_, ?_, _, .cons (.intro (.name ['S']) (.apply .nil (.seq (.symbol (.name ['x']) .nil) .nil))
    (.cons (.bind (.cons ⟨_, .name ['S'], rfl⟩ .nil)) (.cons (.bind (.cons ⟨_, .name ['x'], rfl⟩ .nil)) .nil)))
    (.cons (.intro (.name ['S']) (.name (.name ['y'])) (.cons (.resample _) (.cons (.resample _) .nil))) .nil), rfl⟩
  repeat first | exact .eof rfl | refine .token rfl nofun ?_

theorem terse_ofText_exact : ∃ g : Grammar Float, ofText ⟨1.0, 1.0, "y"⟩ terse = .ok g ∧ g.rules "S" =
    [⟨⟨"S", "", .seq (.symbol "x" .nil) .nil, 1.0, 1.0, ["S", "x"]⟩, 0⟩, ⟨⟨"S", "y", .nil, 2.0, 0.0, []⟩, 1⟩] := by
  obtain ⟨ts, hts, hcs⟩ := spellings_terse
  have hvalid : ∀ c ∈ terseClauses, c.production.validate = .ok () := by
    intro c hc
    rcases List.mem_cons.mp hc with rfl | hc
    · rfl
    · rw [List.mem_singleton.mp hc]
      rfl
  obtain ⟨g, hg⟩ := (ofText_exact ⟨1.0, 1.0, "y"⟩ terse).1.mpr ⟨_, ts, hts, hcs, hvalid⟩
  obtain ⟨-, -, -, hrules⟩ := (ofText_exact ⟨1.0, 1.0, "y"⟩ terse).2 g hg _ ts hts hcs
  exact ⟨g, hg, (hrules "S").trans rfl⟩

end Grammar

end ScopedGrammar

import ScopedGrammar.Proofs.Ledger
import ScopedGrammar.Proofs.Text.Acceptance

/-!
# What a text adds before an error

A text that is no grammar adds the productions of its leading clauses all the same. `Leads text cs` says that clauses
are the first ones of a text: its first tokens spell them, what comes behind them is another token or the end, and their
productions are valid. What is read at a point of the text does not depend on what comes after it, so one row of leading
clauses goes on where a shorter one ends (`Reader.Takes.isPrefix`), and there is a longest one, at whose end reading
stops (`Reader.takes_accepted`). Its productions are added one by one, and nothing else is
(`Grammar.readClauses_exact`).
-/

namespace ScopedGrammar

variable {W : Type} [Numeral W]

/-! ## The first tokens of a text -/

/-- The first tokens of a text, and what is left behind them. -/
inductive Lexer.Gives : Lexer → List (Token W) → Lexer → Prop
  | nil {l : Lexer} : Gives l [] l
  | token {l l' l'' : Lexer} {t : Token W} {ts : List (Token W)} : l.next = (.ok t, l') → t ≠ .eof → Gives l' ts l'' →
      Gives l (t :: ts) l''

namespace Reader

variable {r r' : Reader W} {ts : List (Token W)}

/-- First tokens are gone past if there is a token behind them. -/
theorem exists_passes_of_gives {l l₁ l₂ : Lexer} {t' : Token W} (h : l.Gives ts l₁) (hnext : l₁.next = (.ok t', l₂)) :
    ∃ t l', l.next = (.ok t, l') ∧ Passes ⟨l', t⟩ ts ⟨l₂, t'⟩ := by
  induction h with
  | nil => exact ⟨t', l₂, hnext, .nil⟩
  | token hn ht _ ih =>
    obtain ⟨t, l', hn', hpasses⟩ := ih hnext
    exact ⟨_, _, hn, .cons ht hn' hpasses⟩

theorem Passes.exists_gives (h : r.Passes ts r') {l : Lexer} (hl : l.next = (.ok r.current, r.lexer)) :
    ∃ l', l.Gives ts l' ∧ l'.next = (.ok r'.current, r'.lexer) := by
  induction h generalizing l with
  | nil => exact ⟨l, .nil, hl⟩
  | cons ht hnext _ ih =>
    obtain ⟨l', hgives, hl'⟩ := ih hnext
    exact ⟨l', .token hl ht hgives, hl'⟩

/-! ## Productions one after another -/

variable [Arith W] {ps ps' : List (Production W)} {r'' : Reader W}

/-- Going on from one reader to another reads productions, all of them valid. -/
inductive Takes : Reader W → List (Production W) → Reader W → Prop
  | nil {r : Reader W} : Takes r [] r
  | cons {r r₁ r' : Reader W} {p : Production W} {ps : List (Production W)} : production.run.run r = (.ok p, r₁) →
      p.validate = .ok () → Takes r₁ ps r' → Takes r (p :: ps) r'

/-- No valid production can be read. -/
def Stops (r : Reader W) : Prop := ∀ p r', production.run.run r = (.ok p, r') → p.validate ≠ .ok ()

theorem stops_of_eof (h : r.current = .eof) : r.Stops := by
  intro p r' hrun
  obtain ⟨c, ts, hc, hpasses, -⟩ := exists_of_production hrun
  exact absurd h (hpasses.current_ne_eof hc.ne_nil)

/-- Where reading stops, all productions that can be taken have been. -/
theorem Takes.isPrefix (h : r.Takes ps r') (hstops : r'.Stops) (h' : r.Takes ps' r'') : ps' <+: ps := by
  induction h' generalizing ps with
  | nil => exact List.nil_prefix
  | cons hrun hvalid _ ih =>
    cases h with
    | nil => exact absurd hvalid (hstops _ _ hrun)
    | cons hrun' _ hothers =>
      obtain ⟨hp, rfl⟩ := Prod.mk.inj (hrun.symm.trans hrun')
      obtain rfl := Except.ok.inj hp
      exact List.prefix_cons_inj _ |>.mpr (ih hothers)

theorem Takes.eq_of_takes (h : r.Takes ps r') (h' : r.Takes ps r'') : r' = r'' := by
  induction h with
  | nil =>
    cases h'
    rfl
  | cons hrun _ _ ih =>
    cases h' with
    | cons hrun' _ hothers =>
      obtain ⟨-, rfl⟩ := Prod.mk.inj (hrun.symm.trans hrun')
      exact ih hothers

/-- Going past clauses takes their productions. -/
theorem takes_of_passes {cs : List (Clause W)} {tss : List (List (Token W))} (h : List.Forall₂ Clause.Spelling cs tss)
    (hvalid : ∀ c ∈ cs, c.production.validate = .ok ()) (hr : r.Passes tss.flatten r') :
    r.Takes (cs.map (·.production)) r' := by
  induction h generalizing r with
  | nil =>
    cases hr
    exact .nil
  | cons hc _ ih =>
    obtain ⟨hfirst, hvalid⟩ := List.forall_mem_cons.mp hvalid
    obtain ⟨r₁, hrun, hr₁⟩ := reads_production hc r r' hr
    exact .cons hrun hfirst (ih hvalid hr₁)

/-- Productions that are taken are those of clauses that are gone past. -/
theorem Takes.exists_clauses (h : r.Takes ps r') : ∃ (cs : List (Clause W)) (tss : List (List (Token W))),
    List.Forall₂ Clause.Spelling cs tss ∧ r.Passes tss.flatten r' ∧ (∀ c ∈ cs, c.production.validate = .ok ()) ∧
      cs.map (·.production) = ps := by
  induction h with
  | nil => exact ⟨[], [], .nil, .nil, List.forall_mem_nil _, rfl⟩
  | cons hrun hvalid _ ih =>
    obtain ⟨c, ts, hc, hpasses, rfl⟩ := exists_of_production hrun
    obtain ⟨cs, tss, hcs, hothers, hvalids, rfl⟩ := ih
    exact ⟨c :: cs, ts :: tss, .cons hc hcs, hpasses.append hothers, List.forall_mem_cons.mpr ⟨hvalid, hvalids⟩, rfl⟩

/-- One round of reading clauses is over at the end of the text, stops with an error, or adds a production. -/
theorem round_cases (fuel : Nat) (r : Reader W) :
    (r.current = .eof ∧ accepted (fuel + 1) r = (.ok (), []) ∧
      ∀ g : Grammar W, g.addClauses (fuel + 1) r = (.ok (), g)) ∨
    (r.current ≠ .eof ∧ r.Stops ∧ ∃ e, accepted (fuel + 1) r = (.error e, []) ∧
      ∀ g : Grammar W, g.addClauses (fuel + 1) r = (.error e, g)) ∨
    (r.current ≠ .eof ∧ ∃ p r₁, production.run.run r = (.ok p, r₁) ∧ p.validate = .ok () ∧
      accepted (fuel + 1) r = ((accepted fuel r₁).1, p :: (accepted fuel r₁).2) ∧
      ∀ g : Grammar W, g.addClauses (fuel + 1) r = Grammar.addClauses fuel (g.perform (.add p)).2 r₁) := by
  by_cases hcurrent : r.current = .eof
  · refine Or.inl ⟨hcurrent, ?_, fun g => ?_⟩
    · simp only [accepted, hcurrent]
    · simp only [Grammar.addClauses, hcurrent]
  refine Or.inr ?_
  rcases hrun : production.run.run r with ⟨e | p, r₁⟩
  · refine Or.inl ⟨hcurrent, fun p r' hrun' => ?_, e, ?_, fun g => ?_⟩
    · cases hrun.symm.trans hrun'
    · simp only [accepted, hrun]
    · simp only [Grammar.addClauses, hrun]
  cases hvalid : p.validate with
  | error e =>
    refine Or.inl ⟨hcurrent, fun p' r' hrun' hvalid' => ?_, .refused e, ?_, fun g => ?_⟩
    · cases hrun.symm.trans hrun'
      cases hvalid.symm.trans hvalid'
    · simp only [accepted, hrun, hvalid]
    · simp only [Grammar.addClauses, hrun, Grammar.add_of_validate_error hvalid]
  | ok u =>
    refine Or.inr ⟨hcurrent, p, r₁, rfl, hvalid, ?_, fun g => ?_⟩
    · simp only [accepted, hrun, hvalid]
    · simp only [Grammar.addClauses, hrun, Grammar.perform, Grammar.add_of_validate hvalid]

/-- **The productions that are accepted are taken, and then reading stops**, without an error if it is at the end of the
text. Each clause shortens the text, and so the fuel is not used up before. -/
theorem takes_accepted : ∀ {fuel : Nat} {r : Reader W}, (r.current ≠ .eof → r.lexer.size < fuel) →
    ∃ r', r.Takes (accepted fuel r).2 r' ∧ r'.Stops ∧ ((accepted fuel r).1 = .ok () ↔ r'.current = .eof) := by
  intro fuel
  induction fuel with
  | zero =>
    intro r hfuel
    have heof : r.current = .eof := by
      by_contra hne
      exact Nat.not_lt_zero _ (hfuel hne)
    exact ⟨r, .nil, stops_of_eof heof, iff_of_true rfl heof⟩
  | succ fuel ih =>
    intro r hfuel
    rcases round_cases fuel r with ⟨heof, haccepted, -⟩ | ⟨hne, hstops, e, haccepted, -⟩ |
      ⟨hne, p, r₁, hrun, hvalid, haccepted, -⟩ <;> rw [haccepted]
    · exact ⟨r, .nil, stops_of_eof heof, iff_of_true rfl heof⟩
    · exact ⟨r, .nil, hstops, iff_of_false (by simp) hne⟩
    · have hfuel' : r₁.current ≠ .eof → r₁.lexer.size < fuel := by
        intro hne'
        have hlt := size_lt_of_production hrun hne'
        have := hfuel hne
        omega
      obtain ⟨r', htakes, hstops, hresult⟩ := ih hfuel'
      exact ⟨r', .cons hrun hvalid htakes, hstops, hresult⟩

end Reader

/-! ## Leading clauses -/

variable [Arith W] {text : List Char} {cs : List (Clause W)}

/-- Clauses are the first ones of a text: the text begins with their tokens, another token or the end of the text comes
behind them, and their productions are valid. -/
structure Leads (text : List Char) (cs : List (Clause W)) : Prop where
  spelled : ∃ (tss : List (List (Token W))) (l : Lexer), List.Forall₂ Clause.Spelling cs tss ∧
    Lexer.Gives ⟨text, false⟩ tss.flatten l ∧ (cs ≠ [] → ∃ (t : Token W) (l' : Lexer), l.next = (.ok t, l'))
  valid : ∀ c ∈ cs, c.production.validate = .ok ()

theorem leads_nil (text : List Char) : Leads text ([] : List (Clause W)) :=
  ⟨⟨[], _, .nil, .nil, fun h => absurd rfl h⟩, List.forall_mem_nil _⟩

/-- The productions of leading clauses are taken from the first token on. -/
theorem Leads.exists_takes (h : Leads text cs) (hcs : cs ≠ []) : ∃ r r' : Reader W, Reader.ofText text = .ok r ∧
    r.Takes (cs.map (·.production)) r' := by
  obtain ⟨tss, l, hspelling, hgives, hbehind⟩ := h.spelled
  obtain ⟨t', l', hnext⟩ := hbehind hcs
  obtain ⟨t, l₁, hfirst, hpasses⟩ := Reader.exists_passes_of_gives hgives hnext
  refine ⟨⟨l₁, t⟩, _, ?_, Reader.takes_of_passes hspelling h.valid hpasses⟩
  rw [Reader.ofText, hfirst]

/-- **The productions that a text adds are those of its longest row of leading clauses**, and there is no error if these
are all clauses and the text ends there. -/
theorem exists_leads (text : List Char) : ∃ cs : List (Clause W), Leads text cs ∧
    cs.map (·.production) = (acceptedProductions text).2 ∧
    (∀ cs', Leads text cs' → cs'.map (·.production) <+: cs.map (·.production)) ∧
    ((acceptedProductions (W := W) text).1 = .ok () ↔
      ∃ ts : List (Token W), Lexer.Yields ⟨text, false⟩ ts ∧ Clause.Spellings cs ts) := by
  unfold acceptedProductions
  cases hr : Reader.ofText (W := W) text with
  | error e =>
    refine ⟨[], leads_nil text, rfl, fun cs' hcs' => ?_, iff_of_false (by simp) ?_⟩
    · by_contra hne
      obtain ⟨r, -, hr', -⟩ := hcs'.exists_takes (by rintro rfl; exact hne List.nil_prefix)
      cases hr.symm.trans hr'
    · rintro ⟨ts, hts, -⟩
      obtain ⟨r, hr', -⟩ := Reader.holds_ofText hts
      cases hr.symm.trans hr'
  | ok r =>
    have hfirst := Reader.next_of_ofText hr
    obtain ⟨r', htakes, hstops, hresult⟩ := Reader.takes_accepted (Reader.size_lt_of_ofText hr)
    obtain ⟨cs, tss, hspelling, hpasses, hvalid, hcs⟩ := htakes.exists_clauses
    obtain ⟨l, hgives, hbehind⟩ := hpasses.exists_gives hfirst
    refine ⟨cs, ⟨⟨tss, l, hspelling, hgives, fun _ => ⟨_, _, hbehind⟩⟩, hvalid⟩, hcs, fun cs' hcs' => ?_,
      hresult.trans ⟨fun heof => ?_, ?_⟩⟩
    · cases cs' with
      | nil => exact List.nil_prefix
      | cons c cs' =>
        obtain ⟨r₀, r'', hr₀, htakes'⟩ := hcs'.exists_takes (List.cons_ne_nil _ _)
        cases hr.symm.trans hr₀
        rw [hcs]
        exact htakes.isPrefix hstops htakes'
    · obtain ⟨l', t⟩ := r'
      obtain rfl : t = .eof := heof
      have hholds : r.Holds tss.flatten := List.append_nil tss.flatten ▸ hpasses.holds .eof
      exact ⟨tss.flatten, hholds.yields hfirst, tss, hspelling, rfl⟩
    · rintro ⟨ts, hts, tss', hspelling', rfl⟩
      obtain ⟨r₀, hr₀, hholds⟩ := Reader.holds_ofText hts
      cases hr.symm.trans hr₀
      obtain ⟨l', hpasses'⟩ := hholds.exists_passes
      have hend := (hcs ▸ htakes).eq_of_takes (Reader.takes_of_passes hspelling' hvalid hpasses')
      rw [hend]

/-! ## What is added -/

namespace Grammar

/-- Clauses are added as by single additions, up to the error. -/
theorem addClauses_eq_run : ∀ (fuel : Nat) (g : Grammar W) (r : Reader W), g.addClauses fuel r =
    ((Reader.accepted fuel r).1, (StoreOp.run perform g ((Reader.accepted fuel r).2.map .add)).2)
  | 0, _, _ => rfl
  | fuel + 1, g, r => by
    rcases Reader.round_cases fuel r with ⟨-, haccepted, hadd⟩ | ⟨-, -, e, haccepted, hadd⟩ |
      ⟨-, p, r₁, -, -, haccepted, hadd⟩ <;> rw [haccepted, hadd]
    · rfl
    · rfl
    · exact addClauses_eq_run fuel _ r₁

theorem readClauses_eq_run (g : Grammar W) (text : List Char) : g.readClauses text =
    ((acceptedProductions text).1, (StoreOp.run perform g ((acceptedProductions text).2.map .add)).2) := by
  unfold readClauses acceptedProductions
  cases Reader.ofText (W := W) text with
  | error e => rfl
  | ok r => exact addClauses_eq_run _ g r

/-- Valid productions that are added one after another get the next ids. -/
theorem run_add : ∀ {ps : List (Production W)} (g : Grammar W), (∀ p ∈ ps, p.validate = .ok ()) →
    StoreOp.run perform g (ps.map .add) = ((RuleTable.numbered g.nextId ps).map fun r => .added (.ok r),
      { g with table := RuleTable.insertAll g.nextId ps g.table, nextId := g.nextId + ps.length })
  | [], _, _ => rfl
  | p :: ps, g, hvalid => by
    obtain ⟨hp, hps⟩ := List.forall_mem_cons.mp hvalid
    have hothers : StoreOp.run perform _ (ps.map .add) = _ :=
      run_add { g with table := g.table.insert { p with id := g.nextId }, nextId := g.nextId + 1 } hps
    simp only [List.map_cons, StoreOp.run, perform, add_of_validate hp, hothers, RuleTable.numbered,
      RuleTable.insertAll, List.length_cons]
    refine Prod.ext rfl (congrArg (Grammar.mk _ · _) ?_)
    omega

/-- **A text adds its leading clauses and nothing else.** There is a longest row of clauses that a text begins with. Its
productions are added one after another under the next ids, and what was there before stays as it was. There is no error
exactly if these are all clauses and the text ends there. -/
theorem readClauses_exact {g : Grammar W} (hg : g.Built) (text : List Char) : ∃ cs : List (Clause W), Leads text cs ∧
    (∀ cs', Leads text cs' → cs'.map (·.production) <+: cs.map (·.production)) ∧
    StoreOp.run perform g (cs.map fun c => .add c.production) =
      ((RuleTable.numbered g.nextId (cs.map (·.production))).map fun r => .added (.ok r), (g.readClauses text).2) ∧
    (g.readClauses text).2.nextId = g.nextId + cs.length ∧ (g.readClauses text).2.config = g.config ∧
    (∀ nt, (g.readClauses text).2.rules nt = g.rules nt ++
      (RuleTable.numbered g.nextId (cs.map (·.production))).filter fun r => r.nonterminal == nt) ∧
    ((g.readClauses text).1 = .ok () ↔
      ∃ ts : List (Token W), Lexer.Yields ⟨text, false⟩ ts ∧ Clause.Spellings cs ts) := by
  obtain ⟨cs, hleads, haccepted, hlongest, hresult⟩ := exists_leads (W := W) text
  have hrun : StoreOp.run perform g ((cs.map (·.production)).map .add) = _ :=
    run_add g (List.forall_mem_map.mpr hleads.valid)
  have hread : g.readClauses text = _ := g.readClauses_eq_run text
  rw [← haccepted, hrun] at hread
  rw [hread]
  refine ⟨cs, hleads, hlongest, ?_, ?_, rfl, fun nt => ?_, hresult⟩
  · rw [← hrun, List.map_map]
    rfl
  · simp
  · exact RuleTable.rules_insertAll nt _ _ hg.wellStored.grouped.ascending

/-- Two clauses, the second one with a character behind it that no token starts with. -/
def torn : List Char := ['S', '-', '>', 'a', '.', 'S', '-', '>', 'b', '(', 'S', ')', ' ', '2', '.', '?']

/-- A grammar with one rule. -/
def seeded : Grammar Float := ⟨[("S", [⟨⟨"S", "x", .nil, 1.0, 1.0, []⟩, 0⟩])], 1, ⟨1.0, 1.0, "y"⟩⟩

theorem built_seeded : seeded.Built :=
  (Built.empty (W := Float) ⟨1.0, 1.0, "y"⟩).add (p := ⟨"S", "x", .nil, 1.0, 1.0, []⟩) rfl

theorem leads_torn : Leads torn [(⟨"S", .name "a", none, []⟩ : Clause Float)] := by
  refine ⟨⟨_, _, .cons (.intro (.name ['S']) (.name (.name ['a'])) .nil) .nil,
    .token rfl nofun (.token rfl nofun (.token rfl nofun (.token rfl nofun .nil))), fun _ => ⟨_, _, rfl⟩⟩, ?_⟩
  intro c hc
  obtain rfl := List.mem_singleton.mp hc
  rfl

theorem torn_readClauses : ∃ cs : List (Clause Float), Leads torn cs ∧ cs.length = 1 ∧
    (∀ cs', Leads torn cs' → cs'.map (·.production) <+: cs.map (·.production)) ∧
    (seeded.readClauses torn).1 = .error (.unexpectedChar '?') ∧ (seeded.readClauses torn).2.rules "S" =
      [⟨⟨"S", "x", .nil, 1.0, 1.0, []⟩, 0⟩, ⟨⟨"S", "a", .nil, 1.0, 1.0, []⟩, 1⟩] := by
  obtain ⟨cs, hleads, hlongest, -, hnext, -, hrules, -⟩ := readClauses_exact built_seeded torn
  have hlength : cs.length = 1 := by
    have hsum : 2 = 1 + cs.length := hnext
    omega
  have hcs := (hlongest _ leads_torn).eq_of_length (by simp [hlength])
  refine ⟨cs, hleads, hlength, hlongest, rfl, ?_⟩
  rw [hrules, ← hcs]
  rfl

end Grammar

end ScopedGrammar

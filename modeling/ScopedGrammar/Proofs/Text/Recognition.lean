import ScopedGrammar.Proofs.Text.Parsing

/-!
# What a reader has read

The converse of reading tokens: where a reader succeeds, the tokens that it went past spell its result. The lemmas on
the readers are `exists_of_symbol`, `exists_of_commaList`, `exists_of_item`, `exists_of_options` and, for a whole
clause, `exists_of_production`. Nothing is said about fuel: a reader without fuel stops early, and what it has read is
right all the same.
-/

namespace ScopedGrammar

variable {W : Type}

/-! ## Items one by one -/

/-- The tokens of an item. -/
inductive Item.Spelling : Item → List (Token W) → Prop
  | symbol {s : String} {t : Token W} : Symbol.Spelling s t → Spelling (.symbol s) [t]
  | seq {inside : Items} {tss : List (List (Token W))} : inside.Spelling tss →
      Spelling (.seq inside) (.mark .openBracket :: (Token.commas tss ++ [.mark .closeBracket]))

theorem Items.spelling_ofList {items : List Item} {tss : List (List (Token W))}
    (h : List.Forall₂ Item.Spelling items tss) : (Items.ofList items).Spelling tss := by
  induction h with
  | nil => exact .nil
  | cons hitem _ ih =>
    cases hitem with
    | symbol hs => exact .symbol hs ih
    | seq hinside => exact .seq hinside ih

namespace Reader

/-! ## Runs that succeed -/

section

variable {α β : Type} {r r' : Reader W}

/-- A computation that succeeds does so in its first part and then in what follows. -/
theorem exists_of_bind {p : ClauseReader W α} {f : α → ClauseReader W β} {b : β}
    (h : (p >>= f).run.run r = (.ok b, r')) :
    ∃ a r₁, p.run.run r = (.ok a, r₁) ∧ (f a).run.run r₁ = (.ok b, r') := by
  simp only [ExceptT.run_bind, StateT.run_bind] at h
  cases hp : p.run.run r with
  | mk result r₁ =>
    rw [hp] at h
    cases result with
    | error e => cases h
    | ok a => exact ⟨a, r₁, rfl, h⟩

theorem eq_of_pure {a b : α} (h : (pure a : ClauseReader W α).run.run r = (.ok b, r')) : b = a ∧ r' = r := by
  cases h
  exact ⟨rfl, rfl⟩

theorem exists_of_map {p : ClauseReader W α} {g : α → β} {b : β} (h : (g <$> p).run.run r = (.ok b, r')) :
    ∃ a, p.run.run r = (.ok a, r') ∧ b = g a := by
  rw [map_eq_pure_bind] at h
  obtain ⟨a, r₁, hp, hg⟩ := exists_of_bind h
  obtain ⟨rfl, rfl⟩ := eq_of_pure hg
  exact ⟨a, hp, rfl⟩

theorem not_refuse {wanted : Wanted} {a : α} : (refuse wanted : ClauseReader W α).run.run r ≠ (.ok a, r') := by
  intro h
  cases h

theorem of_isAt {m : Mark} {b : Bool} (h : (isAt m).run.run r = (.ok b, r')) :
    r' = r ∧ (b = true ↔ r.current = .mark m) := by
  rw [isAt, run_get_bind] at h
  split at h
  · rename_i m' hcurrent
    obtain ⟨rfl, rfl⟩ := eq_of_pure h
    exact ⟨rfl, by rw [hcurrent, beq_iff_eq, Token.mark.injEq]⟩
  · rename_i hcurrent
    obtain ⟨rfl, rfl⟩ := eq_of_pure h
    exact ⟨rfl, fun hm => absurd hm (by decide), fun hm => absurd hm (hcurrent m)⟩

theorem eq_of_fuel {n : Nat} (h : fuel.run.run r = (.ok n, r')) : r' = r := by
  cases h
  rfl

end

variable [Numeral W]

/-! ## Single tokens -/

section

variable {r r' : Reader W}

theorem passes_of_advance {u : Unit} (h : advance.run.run r = (.ok u, r')) (hr : r.current ≠ .eof) :
    r.Passes [r.current] r' := by
  obtain ⟨l, t⟩ := r
  cases hnext : (l.next : Except (ClauseError W) (Token W) × Lexer) with
  | mk result l' =>
    rw [advance, run_get_bind] at h
    simp only [hnext] at h
    cases result with
    | error e => cases h
    | ok t' =>
      cases h
      exact .cons hr hnext .nil

/-- A mark that is looked for and found is gone past by the first step that follows. -/
theorem passes_of_isAt_advance {m : Mark} {r₁ : Reader W} {u : Unit} (hat : (isAt m).run.run r = (.ok true, r₁))
    (h : advance.run.run r₁ = (.ok u, r')) : r.Passes [.mark m] r' := by
  obtain ⟨rfl, hm⟩ := of_isAt hat
  have hcurrent := hm.mp rfl
  have hpasses := passes_of_advance h (by rw [hcurrent]; exact fun h => by cases h)
  rwa [hcurrent] at hpasses

theorem passes_of_expect {m : Mark} {u : Unit} (h : (expect m).run.run r = (.ok u, r')) : r.Passes [.mark m] r' := by
  obtain ⟨b, r₁, hat, h⟩ := exists_of_bind h
  cases b with
  | true => exact passes_of_isAt_advance hat h
  | false => exact absurd h not_refuse

theorem exists_of_symbol {s : String} (h : symbol.run.run r = (.ok s, r')) :
    ∃ t, Symbol.Spelling s t ∧ r.Passes [t] r' := by
  rw [symbol, run_get_bind] at h
  split at h
  · rename_i cs hcurrent
    obtain ⟨_, r₁, hadvance, h⟩ := exists_of_bind h
    obtain ⟨rfl, rfl⟩ := eq_of_pure h
    have hpasses := passes_of_advance hadvance (by rw [hcurrent]; exact fun h => by cases h)
    exact ⟨_, .name cs, hcurrent ▸ hpasses⟩
  · rename_i cs hcurrent
    obtain ⟨_, r₁, hadvance, h⟩ := exists_of_bind h
    obtain ⟨rfl, rfl⟩ := eq_of_pure h
    have hpasses := passes_of_advance hadvance (by rw [hcurrent]; exact fun h => by cases h)
    exact ⟨_, .quoted cs, hcurrent ▸ hpasses⟩
  · exact absurd h not_refuse

theorem passes_of_number {w : W} (h : number.run.run r = (.ok w, r')) : r.Passes [.number w] r' := by
  rw [number, run_get_bind] at h
  split at h
  · rename_i w' hcurrent
    obtain ⟨_, r₁, hadvance, h⟩ := exists_of_bind h
    obtain ⟨rfl, rfl⟩ := eq_of_pure h
    have hpasses := passes_of_advance hadvance (by rw [hcurrent]; exact fun h => by cases h)
    exact hcurrent ▸ hpasses
  · exact absurd h not_refuse

end

/-! ## Lists -/

section

variable {α : Type} {element : ClauseReader W α} {R : α → List (Token W) → Prop}

theorem exists_of_afterCommas
    (helement : ∀ {r r' : Reader W} {a : α}, element.run.run r = (.ok a, r') → ∃ ts, R a ts ∧ r.Passes ts r') :
    ∀ {n : Nat} {r r' : Reader W} {as : List α}, (afterCommas element n).run.run r = (.ok as, r') →
      ∃ tss, List.Forall₂ R as tss ∧ r.Passes (tss.flatMap (.mark .comma :: ·)) r'
  | 0, r, r', as, h => by
    obtain ⟨rfl, rfl⟩ := eq_of_pure h
    exact ⟨[], .nil, .nil⟩
  | n + 1, r, r', as, h => by
    obtain ⟨b, r₁, hat, h₁⟩ := exists_of_bind h
    cases b with
    | true =>
      obtain ⟨_, r₂, hadvance, h₂⟩ := exists_of_bind h₁
      obtain ⟨a, r₃, ha, h₃⟩ := exists_of_bind h₂
      obtain ⟨as', r₄, has, h₄⟩ := exists_of_bind h₃
      obtain ⟨rfl, rfl⟩ := eq_of_pure h₄
      obtain ⟨ts, hts, hpasses⟩ := helement ha
      obtain ⟨tss, htss, hrest⟩ := exists_of_afterCommas helement has
      refine ⟨ts :: tss, .cons hts htss, ?_⟩
      rw [List.flatMap_cons]
      exact ((passes_of_isAt_advance hat hadvance).append hpasses).append hrest
    | false =>
      obtain ⟨rfl, -⟩ := of_isAt hat
      obtain ⟨rfl, rfl⟩ := eq_of_pure h₁
      exact ⟨[], .nil, .nil⟩

/-- The tokens of a list in its marks are those of its elements with commas between them, and the closing mark. -/
theorem exists_of_commaList
    (helement : ∀ {r r' : Reader W} {a : α}, element.run.run r = (.ok a, r') → ∃ ts, R a ts ∧ r.Passes ts r')
    {close : Mark} {n : Nat} {r r' : Reader W} {as : List α}
    (h : (commaList element close n).run.run r = (.ok as, r')) :
    ∃ tss, List.Forall₂ R as tss ∧ r.Passes (Token.commas tss ++ [.mark close]) r' := by
  obtain ⟨b, r₁, hat, h₁⟩ := exists_of_bind h
  obtain ⟨rfl, -⟩ := of_isAt hat
  cases b with
  | true =>
    obtain ⟨_, r₂, hnil, h₂⟩ := exists_of_bind h₁
    obtain ⟨rfl, rfl⟩ := eq_of_pure hnil
    obtain ⟨_, r₃, hexpect, h₃⟩ := exists_of_bind h₂
    obtain ⟨rfl, rfl⟩ := eq_of_pure h₃
    exact ⟨[], .nil, passes_of_expect hexpect⟩
  | false =>
    obtain ⟨a, r₂, ha, h₂⟩ := exists_of_bind h₁
    obtain ⟨as', r₃, has, h₃⟩ := exists_of_bind h₂
    obtain ⟨_, r₄, hpure, h₄⟩ := exists_of_bind h₃
    obtain ⟨rfl, rfl⟩ := eq_of_pure hpure
    obtain ⟨_, r₅, hexpect, h₅⟩ := exists_of_bind h₄
    obtain ⟨rfl, rfl⟩ := eq_of_pure h₅
    obtain ⟨ts, hts, hpasses⟩ := helement ha
    obtain ⟨tss, htss, hrest⟩ := exists_of_afterCommas helement has
    exact ⟨ts :: tss, .cons hts htss, (hpasses.append hrest).append (passes_of_expect hexpect)⟩

end

theorem exists_of_item : ∀ {n : Nat} {r r' : Reader W} {i : Item}, (item n).run.run r = (.ok i, r') →
    ∃ ts, i.Spelling ts ∧ r.Passes ts r'
  | 0, r, r', i, h => by
    obtain ⟨s, hs, rfl⟩ := exists_of_map h
    obtain ⟨t, ht, hpasses⟩ := exists_of_symbol hs
    exact ⟨[t], .symbol ht, hpasses⟩
  | n + 1, r, r', i, h => by
    obtain ⟨b, r₁, hat, h₁⟩ := exists_of_bind h
    cases b with
    | true =>
      obtain ⟨_, r₂, hadvance, h₂⟩ := exists_of_bind h₁
      obtain ⟨items, r₃, hitems, h₃⟩ := exists_of_bind h₂
      obtain ⟨rfl, rfl⟩ := eq_of_pure h₃
      obtain ⟨tss, htss, hpasses⟩ := exists_of_commaList exists_of_item hitems
      exact ⟨_, .seq (Items.spelling_ofList htss), (passes_of_isAt_advance hat hadvance).append hpasses⟩
    | false =>
      obtain ⟨rfl, -⟩ := of_isAt hat
      obtain ⟨s, hs, rfl⟩ := exists_of_map h₁
      obtain ⟨t, ht, hpasses⟩ := exists_of_symbol hs
      exact ⟨[t], .symbol ht, hpasses⟩

/-! ## Clauses -/

section

variable {β : Type} {b : β} {r r' : Reader W}

/-- Items in parentheses, with the same reader after them as with a name and without one. -/
theorem exists_of_items_bind {g : Items → ClauseReader W β}
    (h : (advance >>= fun _ => fuel >>= fun n => (Items.ofList <$> commaList (item n) .closeParen n) >>= g).run.run r =
      (.ok b, r')) (hopen : r.current = .mark .openParen) :
    ∃ (items : Items) (tss : List (List (Token W))) (r₁ : Reader W), items.Spelling tss ∧
      r.Passes (.mark .openParen :: (Token.commas tss ++ [.mark .closeParen])) r₁ ∧
      (g items).run.run r₁ = (.ok b, r') := by
  obtain ⟨_, r₁, hadvance, h₁⟩ := exists_of_bind h
  obtain ⟨n, r₂, hfuel, h₂⟩ := exists_of_bind h₁
  obtain ⟨items, r₃, hlist, h₃⟩ := exists_of_bind h₂
  obtain rfl := eq_of_fuel hfuel
  obtain ⟨as, has, rfl⟩ := exists_of_map hlist
  obtain ⟨tss, htss, hpasses⟩ := exists_of_commaList exists_of_item has
  have hfirst := passes_of_advance hadvance (by rw [hopen]; exact fun h => by cases h)
  rw [hopen] at hfirst
  exact ⟨_, tss, r₃, Items.spelling_ofList htss, hfirst.append hpasses, h₃⟩

/-- A right-hand side is read in two parts, the name and the items. -/
theorem exists_of_rhs_bind {f : String → Items → ClauseReader W β}
    (h : (do
      let name ← if ← isAt .openParen then pure "" else symbol
      let children ←
        if ← isAt .openParen then do
          advance
          let fuel ← fuel
          Items.ofList <$> commaList (item fuel) .closeParen fuel
        else pure .nil
      f name children).run.run r = (.ok b, r')) :
    ∃ (rhs : RightSide) (ts : List (Token W)) (r₁ : Reader W), rhs.Spelling ts ∧ r.Passes ts r₁ ∧
      (f rhs.nodeName rhs.items).run.run r₁ = (.ok b, r') := by
  obtain ⟨c, r₁, hat, h₁⟩ := exists_of_bind h
  obtain ⟨rfl, hopen⟩ := of_isAt hat
  cases c with
  | true =>
    obtain ⟨s, r₂, hs, h₂⟩ := exists_of_bind h₁
    obtain ⟨rfl, rfl⟩ := eq_of_pure hs
    obtain ⟨c', r₃, hat', h₃⟩ := exists_of_bind h₂
    obtain ⟨rfl, hopen'⟩ := of_isAt hat'
    obtain rfl := hopen'.mpr (hopen.mp rfl)
    obtain ⟨items, tss, r₄, hspelling, hpasses, h₄⟩ := exists_of_items_bind h₃ (hopen.mp rfl)
    exact ⟨.apply none items, _, r₄, .apply .nil hspelling, hpasses, h₄⟩
  | false =>
    obtain ⟨s, r₂, hs, h₂⟩ := exists_of_bind h₁
    obtain ⟨t, ht, hname⟩ := exists_of_symbol hs
    obtain ⟨c', r₃, hat', h₃⟩ := exists_of_bind h₂
    obtain ⟨rfl, hopen'⟩ := of_isAt hat'
    cases c' with
    | true =>
      obtain ⟨items, tss, r₄, hspelling, hpasses, h₄⟩ := exists_of_items_bind h₃ (hopen'.mp rfl)
      exact ⟨.apply (some s) items, _, r₄, .apply (.cons ht .nil) hspelling, hname.append hpasses, h₄⟩
    | false =>
      obtain ⟨_, r₄, hnil, h₄⟩ := exists_of_bind h₃
      obtain ⟨rfl, rfl⟩ := eq_of_pure hnil
      exact ⟨.name s, _, _, .name ht, hname, h₄⟩

/-- The value of an option sets the production, and together with the name and the equality sign it spells an option. -/
theorem exists_of_option {name : List Char} {p p' : Production W} (h : (option name p).run.run r = (.ok p', r')) :
    ∃ (setting : Setting W) (ts : List (Token W)), setting.Spelling (.name name :: .mark .equals :: ts) ∧
      r.Passes ts r' ∧ p' = p.set setting := by
  unfold option at h
  split at h
  · rename_i hname
    obtain ⟨w, r₁, hw, h⟩ := exists_of_bind h
    obtain ⟨rfl, rfl⟩ := eq_of_pure h
    rw [eq_of_beq hname]
    exact ⟨.resample w, _, .resample w, passes_of_number hw, rfl⟩
  · split at h
    · rename_i hname
      obtain ⟨_, r₁, hexpect, h₁⟩ := exists_of_bind h
      obtain ⟨n, r₂, hfuel, h₂⟩ := exists_of_bind h₁
      obtain ⟨ss, r₃, hss, h₃⟩ := exists_of_bind h₂
      obtain rfl := eq_of_fuel hfuel
      obtain ⟨rfl, rfl⟩ := eq_of_pure h₃
      rw [eq_of_beq hname]
      have helement : ∀ {r r' : Reader W} {s : String}, symbol.run.run r = (.ok s, r') →
          ∃ ts, (∃ t : Token W, Symbol.Spelling s t ∧ ts = [t]) ∧ r.Passes ts r' := by
        intro r r' s hs
        obtain ⟨t, ht, hpasses⟩ := exists_of_symbol hs
        exact ⟨[t], ⟨t, ht, rfl⟩, hpasses⟩
      obtain ⟨tss, htss, hpasses⟩ := exists_of_commaList helement hss
      exact ⟨.bind ss, _, .bind htss, (passes_of_expect hexpect).append hpasses, rfl⟩
    · cases h

theorem exists_of_options : ∀ {n : Nat} {r r' : Reader W} {p p' : Production W},
    (options n p).run.run r = (.ok p', r') → ∃ (settings : List (Setting W)) (tss : List (List (Token W))),
      List.Forall₂ Setting.Spelling settings tss ∧ r.Passes tss.flatten r' ∧ p' = settings.foldl Production.set p
  | 0, r, r', p, p', h => by
    obtain ⟨rfl, rfl⟩ := eq_of_pure h
    exact ⟨[], [], .nil, .nil, rfl⟩
  | n + 1, r, r', p, p', h => by
    rw [options, run_get_bind] at h
    split at h
    · rename_i name hcurrent
      obtain ⟨_, r₁, hadvance, h⟩ := exists_of_bind h
      obtain ⟨_, r₂, hexpect, h⟩ := exists_of_bind h
      obtain ⟨p₁, r₃, hoption, h⟩ := exists_of_bind h
      have hpasses := passes_of_advance hadvance (by rw [hcurrent]; exact fun h => by cases h)
      rw [hcurrent] at hpasses
      obtain ⟨setting, ts, hts, hvalue, rfl⟩ := exists_of_option hoption
      obtain ⟨settings, tss, htss, hrest, rfl⟩ := exists_of_options h
      refine ⟨setting :: settings, _ :: tss, .cons hts htss, ?_, rfl⟩
      exact ((hpasses.append (passes_of_expect hexpect)).append hvalue).append hrest
    · obtain ⟨rfl, rfl⟩ := eq_of_pure h
      exact ⟨[], [], .nil, .nil, rfl⟩

/-- **A production that is read is the production of a clause, and the clause is spelled by the tokens gone past.** -/
theorem exists_of_production [Arith W] {p : Production W} (h : production.run.run r = (.ok p, r')) :
    ∃ (c : Clause W) (ts : List (Token W)), c.Spelling ts ∧ r.Passes ts r' ∧ p = c.production := by
  obtain ⟨nonterminal, r₁, hnonterminal, h₁⟩ := exists_of_bind h
  obtain ⟨_, r₂, harrow, h₂⟩ := exists_of_bind h₁
  obtain ⟨rhs, ts, r₃, hrhs, hpasses, h₃⟩ := exists_of_rhs_bind h₂
  obtain ⟨t, ht, hfirst⟩ := exists_of_symbol hnonterminal
  have hhead := (hfirst.append (passes_of_expect harrow)).append hpasses
  rw [run_get_bind] at h₃
  -- the number that stands there, if any
  have hnumber : ∃ (weight : Option W) (r₄ : Reader W), r₃.Passes (weight.toList.map .number) r₄ ∧
      (fuel >>= fun n => options n ⟨nonterminal, rhs.nodeName, rhs.items, weight.getD Arith.one, Arith.one, []⟩ >>=
        fun p => expect .dot >>= fun _ => pure p).run.run r₄ = (.ok p, r') := by
    split at h₃
    · obtain ⟨w, r₄, hw, h₄⟩ := exists_of_bind h₃
      exact ⟨some w, r₄, passes_of_number hw, h₄⟩
    · obtain ⟨w, r₄, hw, h₄⟩ := exists_of_bind h₃
      obtain ⟨rfl, rfl⟩ := eq_of_pure hw
      exact ⟨none, _, .nil, h₄⟩
  obtain ⟨weight, r₄, hweight, h₄⟩ := hnumber
  obtain ⟨n, r₅, hfuel, h₅⟩ := exists_of_bind h₄
  obtain rfl := eq_of_fuel hfuel
  obtain ⟨p', r₆, hoptions, h₆⟩ := exists_of_bind h₅
  obtain ⟨_, r₇, hdot, h₇⟩ := exists_of_bind h₆
  obtain ⟨rfl, rfl⟩ := eq_of_pure h₇
  obtain ⟨settings, tss, hsettings, hrest, rfl⟩ := exists_of_options hoptions
  refine ⟨⟨nonterminal, rhs, weight, settings⟩, _, .intro ht hrhs hsettings, ?_, ?_⟩
  · have hall := ((hhead.append hweight).append hrest).append (passes_of_expect hdot)
    simpa only [List.append_assoc, List.cons_append, List.nil_append] using hall
  · rw [Production.setAll_eq]
    rfl

/-- A clause shortens the text, unless its end has been reached. -/
theorem size_lt_of_production [Arith W] {p : Production W} (h : production.run.run r = (.ok p, r'))
    (hr' : r'.current ≠ .eof) : r'.lexer.size < r.lexer.size := by
  obtain ⟨c, ts, hc, hpasses, -⟩ := exists_of_production h
  exact hpasses.size_lt hc.ne_nil hr'

end

end Reader

end ScopedGrammar

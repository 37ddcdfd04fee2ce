import ScopedGrammar.Proofs.Text.Lexing
import ScopedGrammar.Proofs.Text.Spelling

/-!
# Readers of tokens

`Reader.Passes r ts r'` says that going on from `r` to `r'` goes past the tokens `ts`, and `Reader.Reads p ts a rest`
that a reader `p` turns the tokens `ts` into `a` and stops in front of the tokens `rest`, whatever comes behind them:
the end of the text, other tokens, or something that is no token. Lists, items and options are read from the tokens that
spell them (`reads_commaList`, `readsElement_items`, `reads_options`), and so is a whole clause (`reads_production`).
The readers go by fuel, and the text that is left gives enough of it, as there are hardly more tokens than characters
(`reads_fuel_bind`).
-/

namespace ScopedGrammar

variable {W : Type}

/-! ## The number of tokens -/

namespace Items

/-- The number of symbols and sequences at all depths. -/
def size : Items → Nat
  | nil => 0
  | symbol _ rest => size rest + 1
  | seq inside rest => size inside + size rest + 1

theorem length_toList_le_size (items : Items) : items.toList.length ≤ items.size := by
  induction items with
  | nil => exact Nat.le_refl _
  | symbol s rest ih =>
    simp only [toList, size, List.length_cons]
    omega
  | seq inside rest _ ih =>
    simp only [toList, size, List.length_cons]
    omega

end Items

theorem Token.length_commas_cons (ts : List (Token W)) (tss : List (List (Token W))) :
    ts.length + (commas tss).length ≤ (commas (ts :: tss)).length := by
  cases tss with
  | nil => simp [commas]
  | cons ts' tss => simp [commas]

/-- No symbol and no sequence is spelled without a token of its own. -/
theorem Items.Spelling.size_le {items : Items} {tss : List (List (Token W))} (h : items.Spelling tss) :
    items.size ≤ (Token.commas tss).length := by
  induction h with
  | nil => exact Nat.le_refl _
  | @symbol s rest t tss _ _ ih =>
    have := Token.length_commas_cons [t] tss
    simp only [size, List.length_singleton] at this ⊢
    omega
  | @seq inside rest inner tss _ _ ihInside ih =>
    have := Token.length_commas_cons (.mark .openBracket :: (Token.commas inner ++ [.mark .closeBracket])) tss
    simp only [size, List.length_cons, List.length_append] at this ⊢
    omega

theorem Symbol.length_le_of_spellings {ss : List String} {tss : List (List (Token W))} (h : Spellings ss tss) :
    ss.length ≤ (Token.commas tss).length := by
  induction h with
  | nil => exact Nat.le_refl _
  | @cons s ts ss tss hs _ ih =>
    obtain ⟨t, _, rfl⟩ := hs
    have := Token.length_commas_cons [t] tss
    simp only [List.length_cons, List.length_nil] at this ⊢
    omega

theorem Setting.Spelling.length_pos {setting : Setting W} {ts : List (Token W)} (h : setting.Spelling ts) :
    0 < ts.length := by
  cases h <;> exact Nat.succ_pos _

theorem Clause.length_le_of_spelling {cs : List (Clause W)} {tss : List (List (Token W))}
    (h : List.Forall₂ Clause.Spelling cs tss) : cs.length ≤ tss.flatten.length := by
  induction h with
  | nil => exact Nat.le_refl _
  | cons hc _ ih =>
    cases hc
    simp only [List.flatten_cons, List.length_cons, List.length_append]
    omega

namespace Reader

/-! ## Going past tokens -/

variable [Numeral W]

/-- One reader comes from another by going past tokens. -/
inductive Passes : Reader W → List (Token W) → Reader W → Prop
  | nil {r : Reader W} : Passes r [] r
  | cons {l l' : Lexer} {t t' : Token W} {ts : List (Token W)} {r : Reader W} :
      t ≠ .eof → l.next = (.ok t', l') → Passes ⟨l', t'⟩ ts r → Passes ⟨l, t⟩ (t :: ts) r

/-- The tokens that a reader has at hand and in front of it. -/
inductive Holds : Reader W → List (Token W) → Prop
  | eof {l : Lexer} : Holds ⟨l, .eof⟩ []
  | token {l : Lexer} {t : Token W} {ts : List (Token W)} : t ≠ .eof → l.Yields ts → Holds ⟨l, t⟩ (t :: ts)

section

variable {r r' r'' last : Reader W} {t : Token W} {ts us : List (Token W)}

theorem Passes.append (h : r.Passes ts r') (h' : r'.Passes us r'') : r.Passes (ts ++ us) r'' := by
  induction h with
  | nil => exact h'
  | cons ht hnext _ ih => exact .cons ht hnext (ih h')

theorem Passes.current_eq (h : r.Passes (t :: ts) last) : r.current = t := by cases h; rfl

theorem Passes.current_ne_eof (h : r.Passes ts last) (hts : ts ≠ []) : r.current ≠ .eof := by
  cases h with
  | nil => exact absurd rfl hts
  | cons ht _ _ => exact ht

/-- Going past a token shortens the text, unless its end has been reached. -/
theorem Passes.size_lt (h : r.Passes ts r') (hts : ts ≠ []) (hr' : r'.current ≠ .eof) :
    r'.lexer.size < r.lexer.size := by
  induction h with
  | nil => exact absurd rfl hts
  | @cons l l' t t' ts r ht hnext htail ih =>
    cases htail with
    | nil => exact Lexer.size_next hnext hr'
    | cons ht' hnext' htail' => exact Nat.lt_trans (ih (by simp) hr') (Lexer.size_next hnext ht')

/-- The token at hand was taken off the text before, so there may be one more token than characters are left. -/
theorem Passes.length_le_size (h : r.Passes ts last) : ts.length ≤ r.lexer.size + 1 := by
  induction h with
  | nil => exact Nat.zero_le _
  | @cons l l' t t' ts r ht hnext htail ih =>
    rw [List.length_cons]
    cases htail with
    | nil => exact Nat.succ_le_succ (Nat.zero_le _)
    | cons ht' _ _ => exact Nat.succ_le_succ (Nat.le_trans ih (Lexer.size_next hnext ht'))

theorem Passes.length_le (h : r.Passes ts last) : ts.length ≤ r.lexer.chars.length + 2 := by
  have hle := h.length_le_size
  unfold Lexer.size at hle
  split at hle <;> omega

/-- A reader that holds tokens goes past them to the end of the text. -/
theorem Holds.exists_passes (h : r.Holds ts) : ∃ l, r.Passes ts ⟨l, .eof⟩ := by
  cases h with
  | eof => exact ⟨_, .nil⟩
  | @token l t ts ht hts =>
    induction hts generalizing t with
    | eof hn => exact ⟨_, .cons ht hn .nil⟩
    | token hn ht' _ ih =>
      obtain ⟨l, hpasses⟩ := ih ht'
      exact ⟨l, .cons ht hn hpasses⟩

theorem Holds.yields {l l' : Lexer} {t' : Token W} (h : Holds ⟨l', t'⟩ ts) (hnext : l.next = (.ok t', l')) :
    l.Yields ts := by
  cases h with
  | eof => exact .eof hnext
  | token ht' hyields => exact .token hnext ht' hyields

/-- The tokens that a reader goes past stand in front of those that it holds then. -/
theorem Passes.holds (h : r.Passes ts r') (h' : r'.Holds us) : r.Holds (ts ++ us) := by
  induction h with
  | nil => exact h'
  | cons ht hnext _ ih => exact .token ht ((ih h').yields hnext)

theorem holds_ofText {text : List Char} (h : Lexer.Yields ⟨text, false⟩ ts) :
    ∃ r : Reader W, ofText text = .ok r ∧ r.Holds ts := by
  unfold ofText
  cases h with
  | eof hn => exact ⟨_, by rw [hn], .eof⟩
  | token hn ht hts => exact ⟨_, by rw [hn], .token ht hts⟩

end

/-! ## Reading -/

/-- A reader turns tokens into a result and stops in front of the others. -/
def Reads {α : Type} (p : ClauseReader W α) (ts : List (Token W)) (a : α) (rest : List (Token W)) : Prop :=
  ∀ r last : Reader W, r.Passes ts last → ∃ r', p.run.run r = (.ok a, r') ∧ r'.Passes rest last

omit [Numeral W] in
theorem run_get_bind {α : Type} (f : Reader W → ClauseReader W α) (r : Reader W) :
    (get >>= f).run.run r = (f r).run.run r := rfl

section

variable {α β : Type} {p : ClauseReader W α} {a : α} {b : β} {ts mid rest : List (Token W)} {t : Token W}

theorem reads_pure (a : α) (ts : List (Token W)) : Reads (pure a) ts a ts := fun r _ hr => ⟨r, rfl, hr⟩

theorem Reads.bind {f : α → ClauseReader W β} (h : Reads p ts a mid) (hf : Reads (f a) mid b rest) :
    Reads (p >>= f) ts b rest := by
  intro r last hr
  obtain ⟨r', hrun, hr'⟩ := h r last hr
  obtain ⟨r'', hrun', hr''⟩ := hf r' last hr'
  refine ⟨r'', ?_, hr''⟩
  simp only [ExceptT.run_bind, StateT.run_bind]
  rw [show p.run.run r = (Except.ok a, r') from hrun]
  exact hrun'

theorem Reads.map (g : α → β) (h : Reads p ts a rest) : Reads (g <$> p) ts (g a) rest := by
  rw [map_eq_pure_bind]
  exact h.bind (reads_pure _ _)

theorem reads_get_bind {f : Reader W → ClauseReader W α}
    (h : ∀ r : Reader W, r.current = t → Reads (f r) (t :: ts) a rest) : Reads (get >>= f) (t :: ts) a rest :=
  fun r last hr => h r hr.current_eq r last hr

/-! ## Single tokens -/

theorem run_advance {l l' : Lexer} {t' : Token W} (h : l.next = (.ok t', l')) :
    advance.run.run ⟨l, t⟩ = (.ok (), ⟨l', t'⟩) := by
  rw [advance, run_get_bind]
  simp only [h]
  rfl

theorem reads_advance : Reads advance (t :: ts) () ts := by
  intro r last hr
  cases hr with
  | cons _ hn hts => exact ⟨_, run_advance hn, hts⟩

/-- Whether a token is a mark. -/
def isMark (m : Mark) : Token W → Bool
  | .mark m' => m' == m
  | _ => false

omit [Numeral W] in
theorem isMark_of_spelling (m : Mark) {s : String} (h : Symbol.Spelling s t) : isMark m t = false := by
  cases h <;> rfl

theorem reads_isAt (m : Mark) (t : Token W) (ts : List (Token W)) :
    Reads (isAt m) (t :: ts) (isMark m t) (t :: ts) := by
  refine reads_get_bind fun r hr => ?_
  rw [hr]
  cases t <;> exact reads_pure _ _

theorem reads_expect (m : Mark) : Reads (expect m) (.mark m :: ts) () ts :=
  (reads_isAt m _ _).bind (by simpa [isMark] using reads_advance)

theorem reads_symbol {s : String} (h : Symbol.Spelling s t) : Reads symbol (t :: ts) s ts := by
  refine reads_get_bind fun r hr => ?_
  rw [hr]
  cases h with
  | name cs => exact reads_advance.bind (reads_pure _ _)
  | quoted cs => exact reads_advance.bind (reads_pure _ _)

theorem reads_number (w : W) : Reads number (.number w :: ts) w ts := by
  refine reads_get_bind fun r hr => ?_
  rw [hr]
  exact reads_advance.bind (reads_pure w ts)

/-- The fuel is enough for the tokens that are left. -/
theorem reads_fuel_bind {f : Nat → ClauseReader W α} (h : ∀ n, ts.length ≤ n → Reads (f n) ts a rest) :
    Reads (fuel >>= f) ts a rest :=
  fun r last hr => h _ hr.length_le r last hr

end

/-! ## Lists -/

/-- Tokens that are read as an element of a list and do not look like the end of the list. -/
structure ReadsElement {α : Type} (element : ClauseReader W α) (close : Mark) (ts : List (Token W)) (a : α) : Prop where
  reads : ∀ rest, Reads element (ts ++ rest) a rest
  opens : ∃ t us, ts = t :: us ∧ isMark close t = false

section

variable {α : Type} {element : ClauseReader W α} {close : Mark} {tss : List (List (Token W))} {as : List α}
  {rest : List (Token W)} {n : Nat}

theorem reads_afterCommas (h : List.Forall₂ (ReadsElement element close) tss as) (hclose : close ≠ .comma)
    (hn : as.length ≤ n) :
    Reads (afterCommas element n) (tss.flatMap (.mark .comma :: ·) ++ .mark close :: rest) as
      (.mark close :: rest) := by
  have hend : isMark .comma (.mark close : Token W) = false := by simpa [isMark] using hclose
  induction h generalizing n with
  | nil =>
    cases n with
    | zero => exact reads_pure _ _
    | succ n => exact (reads_isAt _ _ _).bind (by rw [hend]; exact reads_pure _ _)
  | @cons ts a tss as hts _ ih =>
    obtain ⟨m, rfl⟩ : ∃ m, n = m + 1 := ⟨n - 1, by rw [List.length_cons] at hn; omega⟩
    rw [List.flatMap_cons, List.append_assoc]
    refine (reads_isAt _ _ _).bind ?_
    exact reads_advance.bind ((hts.reads _).bind ((ih (Nat.le_of_succ_le_succ hn)).bind (reads_pure _ _)))

/-- A list in its marks is read back, if there is fuel for its elements. -/
theorem reads_commaList (h : List.Forall₂ (ReadsElement element close) tss as) (hclose : close ≠ .comma)
    (hn : as.length ≤ n) :
    Reads (commaList element close n) (Token.commas tss ++ .mark close :: rest) as rest := by
  -- what follows the elements is the same for an empty list and for any other
  have hpast : ∀ as : List α, Reads (expect close >>= fun _ => pure as) (.mark close :: rest) as rest := fun as =>
    (reads_expect close).bind (reads_pure _ _)
  cases h with
  | nil =>
    refine (reads_isAt _ _ _).bind ?_
    rw [show isMark close (.mark close : Token W) = true from beq_self_eq_true close]
    exact (reads_pure _ _).bind (hpast [])
  | @cons ts a tss as hts htss =>
    have hat : ∀ more, Reads (isAt close) (ts ++ more) false (ts ++ more) := by
      obtain ⟨t, us, rfl, ht⟩ := hts.opens
      exact fun more => ht ▸ reads_isAt close t (us ++ more)
    have htail : Reads (afterCommas element n) _ as (.mark close :: rest) :=
      reads_afterCommas htss hclose (Nat.le_of_succ_le hn)
    rw [Token.commas, List.append_assoc]
    exact (hat _).bind ((hts.reads _).bind (htail.bind ((reads_pure _ _).bind (hpast (a :: as)))))

end

/-! ## Items -/

theorem readsElement_symbol (close : Mark) {s : String} {t : Token W} (h : Symbol.Spelling s t) :
    ReadsElement (symbol : ClauseReader W String) close [t] s :=
  ⟨fun _ => reads_symbol h, _, _, rfl, isMark_of_spelling close h⟩

theorem readsElement_symbols (close : Mark) {ss : List String} {tss : List (List (Token W))}
    (h : Symbol.Spellings ss tss) : List.Forall₂ (ReadsElement (symbol : ClauseReader W String) close) tss ss := by
  induction h with
  | nil => exact .nil
  | cons hs _ ih =>
    obtain ⟨t, ht, rfl⟩ := hs
    exact .cons (readsElement_symbol close ht) ih

/-- The items of a right-hand side are read one by one, if there is fuel for the symbols and sequences in them. -/
theorem readsElement_items {close : Mark} (hclose : close ≠ .openBracket) {items : Items}
    {tss : List (List (Token W))} (h : items.Spelling tss) : ∀ n, items.size ≤ n →
    List.Forall₂ (ReadsElement (item n : ClauseReader W Item) close) tss items.toList := by
  induction h generalizing close with
  | nil => exact fun _ _ => .nil
  | symbol hs _ ih =>
    intro n hn
    refine .cons ⟨fun more => ?_, _, _, rfl, isMark_of_spelling close hs⟩ (ih hclose n (Nat.le_of_succ_le hn))
    cases n with
    | zero => exact (reads_symbol hs).map _
    | succ n =>
      refine (reads_isAt _ _ _).bind ?_
      rw [isMark_of_spelling _ hs]
      exact (reads_symbol hs).map _
  | @seq inside rest inner tss _ _ ihInside ih =>
    intro n hn
    simp only [Items.size] at hn
    obtain ⟨m, rfl⟩ : ∃ m, n = m + 1 := ⟨n - 1, by omega⟩
    -- one level down the list is closed by a bracket, whatever closes the list around it
    have helements : List.Forall₂ (ReadsElement (item m : ClauseReader W Item) .closeBracket) inner inside.toList :=
      ihInside (by decide) m (by omega)
    have hlength := inside.length_toList_le_size
    refine .cons ⟨fun more => ?_, _, _, rfl, by simpa [isMark] using Ne.symm hclose⟩ (ih hclose _ (by omega))
    · rw [List.cons_append, List.append_assoc]
      refine (reads_isAt _ _ _).bind (reads_advance.bind ?_)
      refine (reads_commaList helements (by decide) (by omega)).bind ?_
      rw [Items.ofList_toList]
      exact reads_pure _ _

/-! ## Clauses -/

section

variable {β : Type} {b : β} {rest ts more : List (Token W)} {tss : List (List (Token W))}

/-- Items in parentheses, with the same reader after them as with a name and without one. -/
theorem reads_items_bind {g : Items → ClauseReader W β} {items : Items} (h : items.Spelling tss)
    (hg : Reads (g items) more b rest) :
    Reads (isAt .openParen >>= fun c =>
      if c = true then
        advance >>= fun _ => fuel >>= fun n => (Items.ofList <$> commaList (item n) .closeParen n) >>= g
      else pure .nil >>= g) (.mark .openParen :: (Token.commas tss ++ .mark .closeParen :: more)) b rest := by
  refine (reads_isAt _ _ _).bind (reads_advance.bind (reads_fuel_bind fun n hn => ?_))
  have hsize : items.size ≤ n := by
    have := h.size_le
    simp only [List.length_append] at hn
    omega
  have hlength := items.length_toList_le_size
  have helements : List.Forall₂ (ReadsElement (item n : ClauseReader W Item) .closeParen) tss items.toList :=
    readsElement_items (by decide) h n hsize
  refine ((reads_commaList helements (by decide) (by omega)).map Items.ofList).bind ?_
  rw [Items.ofList_toList]
  exact hg

/-- A right-hand side is read in two parts, the name and the items. Without items no parenthesis may follow. -/
theorem reads_rhs_bind {f : String → Items → ClauseReader W β} {rhs : RightSide} (h : rhs.Spelling ts)
    (hmore : ∃ t us, more = t :: us ∧ isMark .openParen t = false) (hf : Reads (f rhs.nodeName rhs.items) more b rest) :
    Reads (do
      let name ← if ← isAt .openParen then pure "" else symbol
      let children ←
        if ← isAt .openParen then do
          advance
          let fuel ← fuel
          Items.ofList <$> commaList (item fuel) .closeParen fuel
        else pure .nil
      f name children) (ts ++ more) b rest := by
  cases h with
  | name hs =>
    obtain ⟨t, us, rfl, ht⟩ := hmore
    refine (reads_isAt _ _ _).bind ?_
    rw [isMark_of_spelling _ hs]
    refine (reads_symbol hs).bind ((reads_isAt _ _ _).bind ?_)
    rw [ht]
    exact (reads_pure _ _).bind hf
  | @apply s ts items tss hs hspelling =>
    rw [List.append_assoc, List.cons_append, List.append_assoc, List.cons_append, List.nil_append]
    cases s with
    | none =>
      cases hs
      exact (reads_isAt _ _ _).bind ((reads_pure _ _).bind (reads_items_bind hspelling hf))
    | some s =>
      obtain ⟨t, ts, ht, htail, rfl⟩ := List.forall₂_cons_left_iff.mp hs
      cases htail
      refine (reads_isAt _ _ _).bind ?_
      rw [isMark_of_spelling _ ht]
      exact (reads_symbol ht).bind (reads_items_bind hspelling hf)

/-- The tokens after the name of an option and the equality sign are read as its value. -/
theorem reads_option {setting : Setting W} (h : setting.Spelling ts) (p : Production W) (more : List (Token W)) :
    ∃ name value, ts = .name name :: .mark .equals :: value ∧
      Reads (option name p) (value ++ more) (p.set setting) more := by
  cases h with
  | resample w =>
    refine ⟨_, _, rfl, ?_⟩
    unfold option
    rw [if_pos (beq_self_eq_true _)]
    exact (reads_number w).bind (reads_pure _ _)
  | @bind ss tss hss =>
    refine ⟨_, _, rfl, ?_⟩
    unfold option
    rw [if_neg (by decide), if_pos (beq_self_eq_true _), List.cons_append, List.append_assoc]
    refine (reads_expect _).bind (reads_fuel_bind fun n hn => ?_)
    have hlength := Symbol.length_le_of_spellings hss
    rw [List.length_append] at hn
    exact (reads_commaList (readsElement_symbols _ hss) (by decide) (by omega)).bind (reads_pure _ _)

/-- Options are read one after another up to a mark. -/
theorem reads_options {settings : List (Setting W)} (h : List.Forall₂ Setting.Spelling settings tss) (m : Mark)
    {n : Nat} {p : Production W} (hn : (tss.flatten ++ .mark m :: more).length ≤ n) :
    Reads (options n p) (tss.flatten ++ .mark m :: more) (settings.foldl Production.set p) (.mark m :: more) := by
  induction h generalizing n p with
  | nil =>
    obtain ⟨k, rfl⟩ : ∃ k, n = k + 1 := ⟨n - 1, by simp at hn; omega⟩
    rw [List.flatten_nil, List.nil_append]
    refine reads_get_bind fun r hr => ?_
    rw [hr]
    exact reads_pure _ _
  | @cons setting ts settings tss hs _ ih =>
    obtain ⟨k, rfl⟩ : ∃ k, n = k + 1 := ⟨n - 1, by simp at hn; omega⟩
    have hpos := hs.length_pos
    obtain ⟨name, value, rfl, hvalue⟩ := reads_option hs p (tss.flatten ++ .mark m :: more)
    rw [List.flatten_cons, List.append_assoc] at hn ⊢
    refine reads_get_bind fun r hr => ?_
    rw [hr, List.foldl_cons]
    refine reads_advance.bind ((reads_expect _).bind (hvalue.bind (ih ?_)))
    simp only [List.length_append, List.length_cons] at hn hpos ⊢
    omega

/-- **A clause is read as its production.** -/
theorem reads_production [Arith W] {c : Clause W} (h : c.Spelling ts) :
    Reads production (ts ++ more) c.production more := by
  obtain @⟨nonterminal, rhs, weight, settings, t, ts, tss, ht, hrhs, hsettings⟩ := h
  simp only [List.cons_append, List.append_assoc, List.nil_append]
  refine (reads_symbol ht).bind ((reads_expect _).bind ?_)
  -- the tokens after the right-hand side begin with a number, with the name of an option or with the point
  have hpast : ∀ p : Production W, Reads (fuel >>= fun n => options n p >>= fun p => expect .dot >>= fun _ => pure p)
      (tss.flatten ++ .mark .dot :: more) (settings.foldl Production.set p) more := fun p =>
    reads_fuel_bind fun n hn => (reads_options hsettings .dot hn).bind ((reads_expect _).bind (reads_pure _ _))
  have hhead : ∃ t us, tss.flatten ++ .mark .dot :: more = t :: us ∧ isMark .openParen t = false ∧
      ∀ w, t ≠ .number w := by
    cases hsettings with
    | nil => exact ⟨_, _, rfl, rfl, fun _ => by simp⟩
    | cons hs _ => cases hs <;> exact ⟨_, _, rfl, rfl, fun _ => by simp⟩
  have hproduction : (⟨nonterminal, rhs, weight, settings⟩ : Clause W).production =
      settings.foldl Production.set
        ⟨nonterminal, rhs.nodeName, rhs.items, weight.getD Arith.one, Arith.one, []⟩ := by
    rw [Production.setAll_eq]
    rfl
  rw [hproduction]
  cases weight with
  | none =>
    obtain ⟨t, us, hlist, hparen, hnumber⟩ := hhead
    refine reads_rhs_bind hrhs ⟨t, us, hlist, hparen⟩ ?_
    simp only [Option.toList_none, List.map_nil, List.nil_append]
    rw [hlist] at hpast ⊢
    refine reads_get_bind fun r hr => ?_
    rw [hr]
    split
    · exact absurd rfl (hnumber _)
    · exact (reads_pure _ _).bind (hpast _)
  | some w =>
    refine reads_rhs_bind hrhs ⟨_, _, rfl, rfl⟩ (reads_get_bind fun r hr => ?_)
    rw [hr]
    exact (reads_number w).bind (hpast _)

end

end Reader

end ScopedGrammar

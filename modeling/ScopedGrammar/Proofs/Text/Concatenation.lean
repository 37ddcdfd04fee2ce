import ScopedGrammar.Proofs.Text.PartialReading

/-!
# Texts one after another

A line break ends whatever a text leaves open at its end without an error: a name, a number, also one with a point that
is held back, and a comment. So a text that splits into tokens is read the same in front of a line break and more text,
call by call (`Lexer.next_followed`), and the end of its tokens is the beginning of those behind the line break
(`Lexer.Yields.followed`). Two grammar texts with a line break between them add what they add one after the other
(`Grammar.readClauses_append`).
-/

namespace ScopedGrammar

variable {W : Type}

/-! ## Tokens in front of a line break -/

namespace Lexer

/-- The text that is left, with more text behind it. -/
def followed (l : Lexer) (more : List Char) : Lexer := { l with chars := l.chars ++ more }

section

variable (more : List Char)

/-- A comment that is open at the end of a text ends with the line break, and layout goes on behind it. -/
theorem skipLayout_append : ∀ (inComment : Bool) (cs : List Char), skipLayout inComment (cs ++ '\n' :: more) =
    match skipLayout inComment cs with
    | [] => skipLayout false more
    | c :: rest => c :: (rest ++ '\n' :: more)
  | true, [] => rfl
  | false, [] => rfl
  | true, c :: cs => skipLayout_append (c != '\n') cs
  | false, c :: cs => by
    rw [List.cons_append, skipLayout, skipLayout]
    split
    · exact skipLayout_append false cs
    · split
      · exact skipLayout_append true cs
      · rfl

/-- A string that is closed is read the same in front of any text. -/
theorem readQuoted?_append {more : List Char} : ∀ {cs content rest : List Char},
    readQuoted? cs = some (content, rest) → readQuoted? (cs ++ more) = some (content, rest ++ more) := by
  intro cs
  fun_induction readQuoted? cs with
  | case1 => intro _ _ h; cases h
  | case2 => intro _ _ h; cases h
  | case3 c cs ih =>
    intro content rest h
    obtain ⟨⟨content', rest'⟩, hread, heq⟩ := Option.map_eq_some_iff.mp h
    cases heq
    simp [readQuoted?, ih hread]
  | case4 c cs hlast hescape hc =>
    intro content rest h
    cases h
    obtain rfl := eq_of_beq hc
    simp [readQuoted?]
  | case5 c cs hlast hescape hc ih =>
    intro content rest h
    obtain ⟨⟨content', rest'⟩, hread, heq⟩ := Option.map_eq_some_iff.mp h
    cases heq
    -- a backslash takes the next character with it, and so it would have been read in another case
    have hb : c ≠ '\\' := by
      rintro rfl
      cases cs with
      | nil => exact hlast rfl rfl
      | cons c' cs' => exact hescape c' cs' rfl rfl
    simp [readQuoted?, hb, hc, ih hread]

theorem spanExponent_append : ∀ cs : List Char,
    spanExponent (cs ++ '\n' :: more) = ((spanExponent cs).1, (spanExponent cs).2 ++ '\n' :: more)
  | [] => rfl
  | [e] => by
    simp only [List.cons_append, List.nil_append, spanExponent]
    split <;> rfl
  | e :: c :: cs => by
    have hbreak : ('\n' :: more).head?.any Char.isDigit = false := rfl
    have hdigits : ((c :: cs) ++ '\n' :: more).takeWhile Char.isDigit = _ := takeWhile_append_of_any hbreak
    have hrest : ((c :: cs) ++ '\n' :: more).dropWhile Char.isDigit = _ := dropWhile_append_of_any hbreak
    rw [List.cons_append] at hdigits hrest
    simp only [List.cons_append, spanExponent]
    split
    · split
      · simp only [takeWhile_append_of_any hbreak, dropWhile_append_of_any hbreak]
      · simp only [hdigits, hrest]
    · rfl

/-- The digits of a number, its fraction and its exponent end in front of a line break, and a point in front of one is
held back. -/
theorem spanNumber_append (cs : List Char) :
    spanNumber (cs ++ '\n' :: more) = ((spanNumber cs).1, (spanNumber cs).2.followed ('\n' :: more)) := by
  have hbreak : ('\n' :: more).head?.any Char.isDigit = false := rfl
  have hexponent := spanExponent_append more
  simp only [spanNumber, takeWhile_append_of_any hbreak, dropWhile_append_of_any hbreak]
  cases cs.dropWhile Char.isDigit with
  | nil => rfl
  | cons c rest =>
    by_cases hc : c = '.'
    · subst hc
      simp only [List.cons_append, takeWhile_append_of_any hbreak, dropWhile_append_of_any hbreak, hexponent]
      cases rest with
      | nil => rfl
      | cons d rest =>
        by_cases hd : d.isDigit = true <;> simp [hd, followed]
    · have hspan := hexponent (c :: rest)
      simp only [List.cons_append] at hspan
      simp [hc, hspan, followed]

variable [Numeral W]

theorem readNumber_append (sign cs : List Char) :
    (readNumber sign (cs ++ '\n' :: more) : Except (ClauseError W) (Token W) × Lexer) =
      ((readNumber sign cs).1, (readNumber (W := W) sign cs).2.followed ('\n' :: more)) := by
  simp only [readNumber, spanNumber_append]
  split <;> rfl

/-- A token is read the same in front of a line break. -/
theorem readToken_append {cs : List Char} {t : Token W} {l : Lexer} (h : readToken cs = (.ok t, l)) (ht : t ≠ .eof) :
    readToken (cs ++ '\n' :: more) = (.ok t, l.followed ('\n' :: more)) := by
  unfold readToken at h
  split at h
  · cases h
    exact absurd rfl ht
  · cases h
    rfl
  · rename_i cs _
    split at h
    · rename_i hdigit
      have hdigit' : (cs ++ '\n' :: more).head?.any Char.isDigit = true := by
        cases cs with
        | nil => cases hdigit
        | cons d cs => exact hdigit
      rw [List.cons_append, readToken_sign hdigit', readNumber_append, h]
    · cases h
  · rename_i c cs _ hhyphen
    have hbreak : ('\n' :: more).head?.any Character.continuesName = false :=
      head?_any_eq_false (fun _ => Character.separates_eq_false_of_continuesName)
        (rfl : isSeparated ('\n' :: more) = true)
    have hnumber := readNumber_append (W := W) more [] (c :: cs)
    rw [List.cons_append] at hnumber
    rw [List.cons_append, readToken_of_ne hhyphen]
    cases hmark : mark? c with
    | some m =>
      simp only [hmark] at h
      cases h
      rfl
    | none =>
      simp only [hmark] at h ⊢
      by_cases hquote : (c == '"') = true
      · rw [if_pos hquote] at h ⊢
        cases hread : readQuoted? cs with
        | none =>
          rw [hread] at h
          cases h
        | some read =>
          rw [hread] at h
          cases h
          rw [readQuoted?_append hread]
          rfl
      rw [if_neg hquote] at h ⊢
      by_cases hdigit : c.isDigit = true
      · rw [if_pos hdigit] at h ⊢
        rw [hnumber, h]
      rw [if_neg hdigit] at h ⊢
      by_cases hopens : Character.opensName c = true
      · rw [if_pos hopens] at h ⊢
        cases h
        rw [takeWhile_append_of_any hbreak, dropWhile_append_of_any hbreak]
        rfl
      · rw [if_neg hopens] at h
        cases h

/-- **A call gives the same token in front of a line break**, and leaves more text behind. -/
theorem next_followed {l l' : Lexer} {t : Token W} (h : l.next = (.ok t, l')) (ht : t ≠ .eof) :
    (l.followed ('\n' :: more)).next = (.ok t, l'.followed ('\n' :: more)) := by
  obtain ⟨chars, heldDot⟩ := l
  cases heldDot with
  | true =>
    cases h
    rfl
  | false =>
    replace h : readToken (skipLayout false chars) = (.ok t, l') := h
    show readToken (skipLayout false (chars ++ '\n' :: more)) = _
    rw [skipLayout_append]
    cases hchars : skipLayout false chars with
    | nil =>
      rw [hchars] at h
      cases h
      exact absurd rfl ht
    | cons c cs =>
      rw [hchars] at h
      exact readToken_append more h ht

/-- Where a text ends, the text behind the line break begins. -/
theorem next_followed_of_eof {l l' : Lexer} (h : l.next = (.ok (.eof : Token W), l')) :
    ((l.followed ('\n' :: more)).next : Except (ClauseError W) (Token W) × Lexer) = next ⟨more, false⟩ := by
  obtain ⟨hheld, hchars, -⟩ := next_eq_eof h
  unfold next followed
  rw [hheld, skipLayout_append, hchars]
  rfl

variable {more : List Char}

/-- The tokens of two texts with a line break between them are those of the first and then those of the second. -/
theorem Yields.followed {l : Lexer} {ts us : List (Token W)} (h : Yields l ts) (hmore : Yields ⟨more, false⟩ us) :
    Yields (l.followed ('\n' :: more)) (ts ++ us) := by
  induction h with
  | eof hn => exact hmore.of_next_eq (next_followed_of_eof more hn).symm
  | token hn ht _ ih => exact .token (next_followed more hn ht) ht ih

end

end Lexer

/-! ## Clauses of both texts -/

theorem Clause.Spellings.append {cs cs' : List (Clause W)} {ts us : List (Token W)} (h : Spellings cs ts)
    (h' : Spellings cs' us) : Spellings (cs ++ cs') (ts ++ us) := by
  obtain ⟨tss, hcs, rfl⟩ := h
  obtain ⟨uss, hcs', rfl⟩ := h'
  exact ⟨tss ++ uss, List.rel_append hcs hcs', List.flatten_append.symm⟩

variable [Numeral W] [Arith W]

/-- A text adds productions without an error if and only if it is made of clauses that say them, all of them valid. -/
theorem acceptedProductions_eq_ok_iff {text : List Char} {ps : List (Production W)} :
    acceptedProductions text = (.ok (), ps) ↔ ∃ (cs : List (Clause W)) (ts : List (Token W)),
      Lexer.Yields ⟨text, false⟩ ts ∧ Clause.Spellings cs ts ∧ (∀ c ∈ cs, c.production.validate = .ok ()) ∧
        cs.map (·.production) = ps := by
  constructor
  · intro h
    obtain ⟨cs, hleads, haccepted, -, hresult⟩ := exists_leads (W := W) text
    rw [h] at haccepted hresult
    obtain ⟨ts, hts, hcs⟩ := hresult.mp rfl
    exact ⟨cs, ts, hts, hcs, hleads.valid, haccepted⟩
  · rintro ⟨cs, ts, hts, ⟨tss, hspelling, rfl⟩, hvalid, rfl⟩
    obtain ⟨r, hr, hholds⟩ := Reader.holds_ofText hts
    obtain ⟨l, hpasses⟩ := hholds.exists_passes
    have htakes := Reader.takes_of_passes hspelling hvalid hpasses
    obtain ⟨r', haccepted, hstops, hresult⟩ := Reader.takes_accepted (Reader.size_lt_of_ofText hr)
    -- both rows of productions are as long as they can be from the first token on
    have hps : cs.map (·.production) = (Reader.accepted (text.length + 1) r).2 :=
      (haccepted.isPrefix hstops htakes).eq_of_length_le
        (htakes.isPrefix (Reader.stops_of_eof rfl) haccepted).length_le
    have hend := (hps ▸ htakes).eq_of_takes haccepted
    unfold acceptedProductions
    rw [hr]
    exact Prod.ext (hresult.mpr (by rw [← hend])) hps.symm

/-- Two texts that add productions without an error add them all if a line break stands between them. -/
theorem acceptedProductions_append {a b : List Char} {ps qs : List (Production W)}
    (ha : acceptedProductions a = (.ok (), ps)) (hb : acceptedProductions b = (.ok (), qs)) :
    acceptedProductions (a ++ '\n' :: b) = (.ok (), ps ++ qs) := by
  obtain ⟨cs, ts, hts, hcs, hvalid, rfl⟩ := acceptedProductions_eq_ok_iff.mp ha
  obtain ⟨cs', us, hus, hcs', hvalid', rfl⟩ := acceptedProductions_eq_ok_iff.mp hb
  refine acceptedProductions_eq_ok_iff.mpr
    ⟨cs ++ cs', ts ++ us, hts.followed hus, hcs.append hcs', fun c hc => ?_, List.map_append⟩
  rcases List.mem_append.mp hc with hc | hc
  · exact hvalid c hc
  · exact hvalid' c hc

/-! ## Grammars -/

namespace Grammar

/-- **A text, a line break and another text add what the two texts add one after the other**, with the same ids, if each
of them can be read. Whether it can does not depend on the grammar that it is read into. -/
theorem readClauses_append (g : Grammar W) {g₁ g₂ : Grammar W} {a b : List Char}
    (ha : (g₁.readClauses a).1 = .ok ()) (hb : (g₂.readClauses b).1 = .ok ()) :
    (g.readClauses a).1 = .ok () ∧ ((g.readClauses a).2.readClauses b).1 = .ok () ∧
      g.readClauses (a ++ '\n' :: b) = (.ok (), ((g.readClauses a).2.readClauses b).2) := by
  simp only [readClauses_eq_run] at ha hb ⊢
  have hboth := acceptedProductions_append (Prod.ext ha rfl) (Prod.ext hb rfl)
  refine ⟨ha, hb, ?_⟩
  rw [hboth, List.map_append, StoreOp.run_append]

/-- No clause at all. -/
def remark : List Char := ['%', 'S', '-', '>']

/-- A clause with a point right behind its number. -/
def glued : List Char := ['S', '-', '>', 'a', ' ', '2', '.']

/-- A clause with a comment behind it that no line break ends. -/
def remarked : List Char := ['S', '-', '>', '"', '%', '"', '.', '%', '"']

theorem seams_readClauses : (seeded.readClauses remark).1 = .ok () ∧ (seeded.readClauses glued).1 = .ok () ∧
    (seeded.readClauses remarked).1 = .ok () ∧
    ∃ g, seeded.readClauses (remark ++ '\n' :: (glued ++ '\n' :: (remarked ++ '\n' :: glued))) = (.ok (), g) ∧
      g.nextId = 4 ∧ g.rules "S" = [⟨⟨"S", "x", .nil, 1.0, 1.0, []⟩, 0⟩, ⟨⟨"S", "a", .nil, 2.0, 1.0, []⟩, 1⟩,
        ⟨⟨"S", "%", .nil, 1.0, 1.0, []⟩, 2⟩, ⟨⟨"S", "a", .nil, 2.0, 1.0, []⟩, 3⟩] := by
  have hremark : (seeded.readClauses remark).1 = .ok () := rfl
  have hglued : (seeded.readClauses glued).1 = .ok () := rfl
  have hremarked : (seeded.readClauses remarked).1 = .ok () := rfl
  have hlast := congrArg Prod.fst (readClauses_append seeded hremarked hglued).2.2
  have hmiddle := congrArg Prod.fst (readClauses_append seeded hglued hlast).2.2
  obtain ⟨-, -, hall⟩ := readClauses_append seeded hremark hmiddle
  exact ⟨hremark, hglued, hremarked, _, hall, rfl, rfl⟩

end Grammar

end ScopedGrammar

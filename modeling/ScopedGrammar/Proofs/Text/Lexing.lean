import Mathlib.Data.List.TakeWhile
import ScopedGrammar.Clause.Reader
import ScopedGrammar.Proofs.Text.Character

/-!
# Tokens of a text

`Lexer.Yields` relates a text to the list of its tokens. Marks, symbols and numbers are found again in front of any text
that does not go on with them (`yields_mark`, `yields_symbol`, `yields_number`), and blanks between them are passed over
(`yields_blank`). There are no more tokens than characters (`Yields.length_le`).
-/

namespace ScopedGrammar

open Character

/-! ## Heads -/

/-- Whether a text is at its end or goes on with a blank or with punctuation. -/
def isSeparated (cs : List Char) : Bool := cs.head?.all separates

theorem head?_any_eq_false {p : Char → Bool} (hp : ∀ c, p c = true → separates c = false) {cs : List Char}
    (h : isSeparated cs = true) : cs.head?.any p = false := by
  cases cs with
  | nil => rfl
  | cons c cs =>
    cases hc : p c with
    | false => simpa using hc
    | true =>
      have hs : separates c = true := by simpa [isSeparated] using h
      rw [hp c hc] at hs
      cases hs

section

variable {α : Type} {p : α → Bool} {as bs : List α}

/-- What stands behind does not count for the first elements, if it fails the test at its head. -/
theorem takeWhile_append_of_any (hb : bs.head?.any p = false) : (as ++ bs).takeWhile p = as.takeWhile p := by
  induction as with
  | nil =>
    cases bs with
    | nil => rfl
    | cons b bs => exact List.takeWhile_cons_of_neg (by simpa using hb)
  | cons a as ih => rw [List.cons_append, List.takeWhile_cons, List.takeWhile_cons, ih]

theorem dropWhile_append_of_any (hb : bs.head?.any p = false) : (as ++ bs).dropWhile p = as.dropWhile p ++ bs := by
  induction as with
  | nil =>
    cases bs with
    | nil => rfl
    | cons b bs => exact List.dropWhile_cons_of_neg (by simpa using hb)
  | cons a as ih =>
    rw [List.cons_append, List.dropWhile_cons, List.dropWhile_cons, ih]
    split <;> rfl

theorem takeWhile_append_of_head (ha : ∀ a ∈ as, p a = true) (hb : bs.head?.any p = false) :
    (as ++ bs).takeWhile p = as := by
  rw [takeWhile_append_of_any hb, List.takeWhile_eq_self_iff.mpr ha]

theorem dropWhile_append_of_head (ha : ∀ a ∈ as, p a = true) (hb : bs.head?.any p = false) :
    (as ++ bs).dropWhile p = bs := by
  rw [dropWhile_append_of_any hb, List.dropWhile_eq_nil_iff.mpr ha, List.nil_append]

end

/-! ## Plain numbers -/

/-- A number as digits, with a sign and a point in front of more digits if need be. -/
structure Plain where
  negative : Bool
  whole : List Char
  fraction : List Char
  whole_ne_nil : whole ≠ []
  isDigit_whole : ∀ c ∈ whole, c.isDigit = true
  isDigit_fraction : ∀ c ∈ fraction, c.isDigit = true

namespace Plain

/-- The digits with the point. -/
def digits (p : Plain) : List Char := p.whole ++ if p.fraction.isEmpty then [] else '.' :: p.fraction

/-- The sign of a negative number. -/
def sign (p : Plain) : List Char := if p.negative then ['-'] else []

/-- The text of the number. -/
def text (p : Plain) : List Char := p.sign ++ p.digits

/-- The decimal that the text stands for. -/
def value (p : Plain) : Decimal := ⟨p.negative, Decimal.digitsValue (p.whole ++ p.fraction), -p.fraction.length⟩

theorem exists_digits (p : Plain) : ∃ c cs, p.digits = c :: cs ∧ c.isDigit = true := by
  cases hw : p.whole with
  | nil => exact absurd hw p.whole_ne_nil
  | cons c cs => exact ⟨c, _, by rw [digits, hw]; rfl, p.isDigit_whole c (by simp [hw])⟩

theorem splitSign_text (p : Plain) : Decimal.splitSign p.text = (p.negative, p.digits) := by
  obtain ⟨c, cs, hd, hc⟩ := p.exists_digits
  unfold text sign
  cases p.negative with
  | true => rfl
  | false =>
    rw [hd]
    unfold Decimal.splitSign
    split
    · rename_i h
      cases h
      cases hc
    · rename_i h
      cases h
      cases hc
    · rfl

/-- A plain number is read as its value. -/
theorem read?_text (p : Plain) : Decimal.read? p.text = some p.value := by
  have hw := p.whole_ne_nil
  simp only [Decimal.read?, p.splitSign_text]
  cases hf : p.fraction with
  | nil =>
    have hd : p.digits = p.whole ++ [] := by rw [digits, hf]; rfl
    rw [hd, takeWhile_append_of_head p.isDigit_whole rfl, dropWhile_append_of_head p.isDigit_whole rfl]
    simp [hw, Decimal.readExponent?, value, hf]
  | cons f fs =>
    have hd : p.digits = p.whole ++ '.' :: (p.fraction ++ []) := by rw [digits, hf, List.append_nil]; rfl
    have hend : ([] : List Char).head?.any Char.isDigit = false := rfl
    rw [hd, takeWhile_append_of_head p.isDigit_whole rfl, dropWhile_append_of_head p.isDigit_whole rfl]
    simp only [takeWhile_append_of_head p.isDigit_fraction hend, dropWhile_append_of_head p.isDigit_fraction hend]
    simp [Decimal.readExponent?, value, hf]

end Plain

namespace Lexer

variable {W : Type} [Numeral W]

/-! ## Lists of tokens -/

/-- Reading token after token gives a list of tokens and then the end of the text. -/
inductive Yields : Lexer → List (Token W) → Prop
  | eof {l l' : Lexer} : l.next = (.ok (.eof : Token W), l') → Yields l []
  | token {l l' : Lexer} {t : Token W} {ts : List (Token W)} : l.next = (.ok t, l') → t ≠ .eof → Yields l' ts →
      Yields l (t :: ts)

variable {l l' : Lexer} {ts : List (Token W)} {c : Char} {cs rest : List Char}

/-- What is read depends on the next token and what is left behind it only. -/
theorem Yields.of_next_eq (hy : Yields l ts) (h : (l.next : Except (ClauseError W) (Token W) × Lexer) = l'.next) :
    Yields l' ts := by
  cases hy with
  | eof hn => exact .eof (h ▸ hn)
  | token hn ht hrest => exact .token (h ▸ hn) ht hrest

theorem yields_nil : Yields ⟨[], false⟩ ([] : List (Token W)) := .eof rfl

theorem yields_blank (hc : isBlank c = true) (h : Yields ⟨cs, false⟩ ts) : Yields ⟨c :: cs, false⟩ ts := by
  refine h.of_next_eq ?_
  simp only [next, skipLayout, hc, if_true]
  rfl

/-- The point behind a number is held back. -/
theorem yields_heldDot (h : Yields ⟨'.' :: cs, false⟩ ts) : Yields ⟨cs, true⟩ ts := h.of_next_eq rfl

/-! ## Marks -/

end Lexer

/-- The text of a mark. -/
def Mark.text : Mark → List Char
  | openParen => ['(']
  | closeParen => [')']
  | openBracket => ['[']
  | closeBracket => [']']
  | comma => [',']
  | dot => ['.']
  | arrow => ['-', '>']
  | equals => ['=']

namespace Lexer

variable {W : Type} [Numeral W] {ts : List (Token W)} {c : Char} {cs rest : List Char}

theorem yields_mark (m : Mark) (h : Yields ⟨rest, false⟩ ts) : Yields ⟨m.text ++ rest, false⟩ (.mark m :: ts) := by
  refine .token ?_ (fun h => by cases h) h
  cases m <;> rfl

/-! ## First characters -/

/-- A hyphen in front of a digit is the sign of a number. -/
theorem readToken_sign (h : cs.head?.any Char.isDigit = true) :
    (readToken ('-' :: cs) : Except (ClauseError W) (Token W) × Lexer) = readNumber ['-'] cs := by
  unfold readToken
  split
  · rename_i heq
    cases heq
  · rename_i heq
    cases heq
    cases h
  · rename_i heq
    cases heq
    rw [if_pos h]
  · rename_i hne heq
    cases heq
    exact (hne rfl).elim

/-- Without a hyphen the first character decides what is read. -/
theorem readToken_of_ne (hc : c ≠ '-') (cs : List Char) :
    (readToken (c :: cs) : Except (ClauseError W) (Token W) × Lexer) =
      match mark? c with
      | some m => (.ok (.mark m), ⟨cs, false⟩)
      | none =>
        if c == '"' then
          match readQuoted? cs with
          | none => (.error .unterminatedString, ⟨[], false⟩)
          | some (content, rest) => (.ok (.quoted content), ⟨rest, false⟩)
        else if c.isDigit then readNumber [] (c :: cs)
        else if Character.opensName c then
          (.ok (.name (c :: cs.takeWhile Character.continuesName)), ⟨cs.dropWhile Character.continuesName, false⟩)
        else (.error (.unexpectedChar c), ⟨c :: cs, false⟩) := by
  conv => lhs; unfold readToken
  split
  · rename_i heq
    cases heq
  · rename_i heq
    cases heq
    exact absurd rfl hc
  · rename_i heq
    cases heq
    exact absurd rfl hc
  · rename_i heq
    cases heq
    rfl

/-! ## Symbols -/

theorem next_of_not_separates (hc : separates c = false) :
    (next ⟨c :: cs, false⟩ : Except (ClauseError W) (Token W) × Lexer) = readToken (c :: cs) := by
  have hb : isBlank c = false := by
    simp only [separates, Bool.or_eq_false_iff] at hc
    exact hc.1
  have hp : (c == '%') = false := beq_false_of_ne (ne_of_separates hc (by decide))
  simp only [next, skipLayout, hb, hp]
  rfl

theorem readToken_of_not_separates (hc : separates c = false) :
    (readToken (c :: cs) : Except (ClauseError W) (Token W) × Lexer) =
    if c.isDigit then readNumber [] (c :: cs)
    else if opensName c then (.ok (.name (c :: cs.takeWhile continuesName)), ⟨cs.dropWhile continuesName, false⟩)
    else (.error (.unexpectedChar c), ⟨c :: cs, false⟩) := by
  have hq : (c == '"') = false := beq_false_of_ne (ne_of_separates hc (by decide))
  rw [readToken_of_ne (ne_of_separates hc (by decide)), mark?_eq_none hc, hq]
  rfl

theorem yields_name (hcs : Symbol.isBare cs = true) (hrest : isSeparated rest = true) (h : Yields ⟨rest, false⟩ ts) :
    Yields ⟨cs ++ rest, false⟩ (.name cs :: ts) := by
  cases cs with
  | nil => cases hcs
  | cons c cs =>
    simp only [Symbol.isBare, Bool.and_eq_true, List.all_eq_true] at hcs
    obtain ⟨hc, hall⟩ := hcs
    have hsep := separates_eq_false_of_continuesName (continuesName_of_opensName hc)
    have hend := head?_any_eq_false (fun _ => separates_eq_false_of_continuesName) hrest
    refine .token ?_ (fun h => by cases h) h
    rw [List.cons_append, next_of_not_separates hsep, readToken_of_not_separates hsep, isDigit_eq_false_of_opensName hc,
      takeWhile_append_of_head hall hend, dropWhile_append_of_head hall hend, hc]
    rfl

theorem readQuoted?_escape (cs rest : List Char) :
    readQuoted? (cs.flatMap Symbol.escape ++ '"' :: rest) = some (cs, rest) := by
  induction cs with
  | nil => rfl
  | cons c cs ih =>
    rw [List.flatMap_cons, List.append_assoc]
    by_cases hq : c = '"'
    · subst hq
      simp [Symbol.escape, readQuoted?, ih, unescape]
    by_cases hb : c = '\\'
    · subst hb
      simp [Symbol.escape, readQuoted?, ih, unescape]
    · simp [Symbol.escape, readQuoted?, hq, hb, ih]

theorem yields_quoted (h : Yields ⟨rest, false⟩ ts) : Yields ⟨Symbol.quote cs ++ rest, false⟩ (.quoted cs :: ts) := by
  refine .token ?_ (fun h => by cases h) h
  show readToken ('"' :: (cs.flatMap Symbol.escape ++ ['"'] ++ rest)) = _
  rw [List.append_assoc]
  simp [readToken, mark?, readQuoted?_escape]

end Lexer

/-- The token that the text of a symbol is read as. -/
def Symbol.token {W : Type} (s : String) : Token W := if isBare s.toList then .name s.toList else .quoted s.toList

namespace Lexer

variable {W : Type} [Numeral W] {ts : List (Token W)} {l l' : Lexer} {cs rest : List Char}

theorem yields_symbol (s : String) (hrest : isSeparated rest = true) (h : Yields ⟨rest, false⟩ ts) :
    Yields ⟨Symbol.print s ++ rest, false⟩ (Symbol.token s :: ts) := by
  unfold Symbol.print Symbol.token
  split
  · rename_i hs
    exact yields_name hs hrest h
  · exact yields_quoted h

/-! ## Numbers -/

/-- Whether a text that follows the digits of a number leaves them as they are. -/
def endsNumber : List Char → Bool
  | '.' :: rest => !rest.head?.any Char.isDigit
  | rest => isSeparated rest

theorem isSeparated_of_endsNumber (h : endsNumber rest = true) : isSeparated rest = true := by
  unfold endsNumber at h
  split at h
  · rfl
  · exact h

theorem spanExponent_eq (h : isSeparated rest = true) : spanExponent rest = ([], rest) := by
  cases rest with
  | nil => rfl
  | cons c cs =>
    have hc : separates c = true := by simpa [isSeparated] using h
    have he : c ≠ 'e' := (ne_of_separates (by decide) hc).symm
    have hE : c ≠ 'E' := (ne_of_separates (by decide) hc).symm
    simp [spanExponent, he, hE]

/-- The digits of a plain number are told from the text that follows them, and its point is held back. -/
theorem spanNumber_digits (p : Plain) (hrest : endsNumber rest = true) (h : Yields ⟨rest, false⟩ ts) :
    ∃ l, spanNumber (p.digits ++ rest) = (p.digits, l) ∧ Yields l ts := by
  have hsep := isSeparated_of_endsNumber hrest
  have hend : rest.head?.any Char.isDigit = false := head?_any_eq_false (fun _ => separates_eq_false_of_isDigit) hsep
  by_cases hf : p.fraction = []
  · have hd : p.digits = p.whole := by simp [Plain.digits, hf]
    rw [hd, spanNumber, takeWhile_append_of_head p.isDigit_whole hend, dropWhile_append_of_head p.isDigit_whole hend]
    split
    · rename_i r
      have hr : r.head?.any Char.isDigit = false := by simpa [endsNumber] using hrest
      rw [hr]
      exact ⟨_, rfl, yields_heldDot h⟩
    · rw [spanExponent_eq hsep]
      exact ⟨_, by simp, h⟩
  · have hd : p.digits = p.whole ++ '.' :: p.fraction := by simp [Plain.digits, hf]
    have hhead : (p.fraction ++ rest).head?.any Char.isDigit = true := by
      cases hc : p.fraction with
      | nil => exact absurd hc hf
      | cons c cs => simpa using p.isDigit_fraction c (by simp [hc])
    rw [hd, List.append_assoc, List.cons_append, spanNumber, takeWhile_append_of_head p.isDigit_whole rfl,
      dropWhile_append_of_head p.isDigit_whole rfl]
    simp only [hhead, if_true, takeWhile_append_of_head p.isDigit_fraction hend,
      dropWhile_append_of_head p.isDigit_fraction hend, spanExponent_eq hsep, List.append_nil]
    exact ⟨_, rfl, h⟩

theorem yields_number (p : Plain) (hrest : endsNumber rest = true) (h : Yields ⟨rest, false⟩ ts) :
    Yields ⟨p.text ++ rest, false⟩ (.number (Numeral.ofDecimal p.value) :: ts) := by
  obtain ⟨l, hspan, hl⟩ := spanNumber_digits p hrest h
  obtain ⟨c, cs, hd, hc⟩ := p.exists_digits
  have hread : readNumber p.sign (p.digits ++ rest) = (.ok (.number (Numeral.ofDecimal p.value : W)), l) := by
    simp only [readNumber, hspan]
    rw [← Plain.text, p.read?_text]
  refine .token ?_ (fun h => by cases h) hl
  rw [← hread, Plain.text, Plain.sign, hd]
  cases p.negative with
  | false =>
    have hsep := separates_eq_false_of_isDigit hc
    show next ⟨c :: (cs ++ rest), false⟩ = _
    rw [next_of_not_separates hsep, readToken_of_not_separates hsep, if_pos hc]
    rfl
  | true =>
    exact readToken_sign (show (c :: (cs ++ rest)).head?.any Char.isDigit = true from hc)

/-! ## The end of a text -/

/-- Only at its end a text is read as its end. -/
theorem eq_nil_of_readToken (h : readToken cs = (.ok (.eof : Token W), l)) :
    cs = [] ∧ l = ⟨[], false⟩ := by
  have hnumber : ∀ (sign cs : List Char) (l : Lexer), readNumber sign cs ≠ (.ok (.eof : Token W), l) := by
    intro sign cs l h
    simp only [readNumber] at h
    split at h <;> cases h
  unfold readToken at h
  split at h
  · cases h
    exact ⟨rfl, rfl⟩
  · cases h
  · split at h
    · exact absurd h (hnumber _ _ _)
    · cases h
  · split at h
    · cases h
    · split at h
      · split at h <;> cases h
      · split at h
        · exact absurd h (hnumber _ _ _)
        · split at h <;> cases h

/-- At the end of a text nothing but layout is left, and nothing at all behind it. -/
theorem next_eq_eof (h : l.next = (.ok (.eof : Token W), l')) :
    l.heldDot = false ∧ skipLayout false l.chars = [] ∧ l' = ⟨[], false⟩ := by
  obtain ⟨chars, heldDot⟩ := l
  cases heldDot with
  | true => cases h
  | false => exact ⟨rfl, eq_nil_of_readToken h⟩

/-! ## The length of a text -/

/-- The number of characters that are left, a point that is held back included. -/
def size (l : Lexer) : Nat := l.chars.length + if l.heldDot then 1 else 0

theorem length_skipLayout_le : ∀ (inComment : Bool) (cs : List Char), (skipLayout inComment cs).length ≤ cs.length
  | _, [] => Nat.le_refl _
  | true, c :: cs => by
    have := length_skipLayout_le (c != '\n') cs
    simp only [skipLayout, List.length_cons]
    omega
  | false, c :: cs => by
    have hblank := length_skipLayout_le false cs
    have hcomment := length_skipLayout_le true cs
    simp only [skipLayout]
    split
    · simp only [List.length_cons]; omega
    · split <;> simp only [List.length_cons] <;> omega

theorem length_of_readQuoted? : ∀ {cs content rest : List Char}, readQuoted? cs = some (content, rest) →
    rest.length ≤ cs.length := by
  intro cs
  fun_induction readQuoted? cs with
  | case1 => intro _ _ h; cases h
  | case2 => intro _ _ h; cases h
  | case3 c cs ih =>
    intro content rest h
    obtain ⟨⟨content', rest'⟩, hread, heq⟩ := Option.map_eq_some_iff.mp h
    cases heq
    have := ih hread
    simp only [List.length_cons]
    omega
  | case4 c cs _ _ hc =>
    intro content rest h
    cases h
    simp
  | case5 c cs _ _ hc ih =>
    intro content rest h
    obtain ⟨⟨content', rest'⟩, hread, heq⟩ := Option.map_eq_some_iff.mp h
    cases heq
    have := ih hread
    simp only [List.length_cons]
    omega

theorem length_dropWhile_le {α : Type} (p : α → Bool) (as : List α) : (as.dropWhile p).length ≤ as.length :=
  (List.dropWhile_sublist p).length_le

theorem length_spanExponent_le : ∀ cs : List Char, (spanExponent cs).2.length ≤ cs.length
  | [] => Nat.le_refl _
  | [e] => by
    simp only [spanExponent]
    split <;> simp
  | e :: c :: cs => by
    have hcs := length_dropWhile_le Char.isDigit cs
    have hccs := length_dropWhile_le Char.isDigit (c :: cs)
    simp only [List.length_cons] at hccs
    simp only [spanExponent, List.length_cons]
    split
    · split <;> simp only <;> omega
    · simp

theorem size_spanNumber_le (cs : List Char) :
    (spanNumber cs).2.size + (cs.takeWhile Char.isDigit).length ≤ cs.length := by
  have hlen : (cs.takeWhile Char.isDigit).length + (cs.dropWhile Char.isDigit).length = cs.length := by
    rw [← List.length_append, List.takeWhile_append_dropWhile]
  unfold spanNumber
  split
  · rename_i rest hrest
    rw [hrest, List.length_cons] at hlen
    split
    · have := length_spanExponent_le (rest.dropWhile Char.isDigit)
      have := length_dropWhile_le Char.isDigit rest
      simp only [size, Bool.false_eq_true, if_false]
      omega
    · simp only [size, if_true]
      omega
  · have := length_spanExponent_le (cs.dropWhile Char.isDigit)
    simp only [size, Bool.false_eq_true, if_false]
    omega

theorem size_readNumber_le (sign cs : List Char) :
    (readNumber (W := W) sign cs).2.size + (cs.takeWhile Char.isDigit).length ≤ cs.length := by
  have h := size_spanNumber_le cs
  simp only [readNumber]
  split <;> exact h

/-- A token other than the end takes at least one character. -/
theorem size_readToken {t : Token W} (h : readToken cs = (.ok t, l)) (ht : t ≠ .eof) : l.size < cs.length := by
  unfold readToken at h
  split at h
  · cases h; exact absurd rfl ht
  · cases h
    simp only [size, List.length_cons, Bool.false_eq_true, if_false]
    omega
  · rename_i cs _
    split at h
    · have hn := size_readNumber_le (W := W) ['-'] cs
      rw [h] at hn
      simp only [List.length_cons] at hn ⊢
      omega
    · cases h
  · rename_i c cs _ _
    split at h
    · cases h
      simp [size]
    · split at h
      · split at h
        · cases h
        · rename_i hread
          cases h
          have := length_of_readQuoted? hread
          simp only [size, List.length_cons, Bool.false_eq_true, if_false]
          omega
      · split at h
        · rename_i hc
          have hn := size_readNumber_le (W := W) [] (c :: cs)
          rw [h, List.takeWhile_cons_of_pos hc] at hn
          simp only [List.length_cons] at hn ⊢
          omega
        · split at h
          · cases h
            have := length_dropWhile_le Character.continuesName cs
            simp only [size, List.length_cons, Bool.false_eq_true, if_false]
            omega
          · cases h

theorem size_next {t : Token W} (h : l.next = (.ok t, l')) (ht : t ≠ .eof) : l'.size < l.size := by
  unfold next at h
  by_cases hd : l.heldDot = true
  · rw [if_pos hd] at h
    cases h
    simp [size, hd]
  · rw [if_neg hd] at h
    have hread := size_readToken h ht
    have hskip := length_skipLayout_le false l.chars
    simp only [size] at hread ⊢
    omega

/-- There are no more tokens than characters. -/
theorem Yields.length_le (h : Yields l ts) : ts.length ≤ l.size := by
  induction h with
  | eof _ => exact Nat.zero_le _
  | token hn ht _ ih =>
    have := size_next hn ht
    rw [List.length_cons]
    omega

end Lexer

end ScopedGrammar

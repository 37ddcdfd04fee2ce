import ScopedGrammar.Clause.Lexer

/-!
# Characters of names, of numbers and of the rest

The tables of character classes are compared range by range (`inRanges_eq_false`). So a character of a bare symbol is no
blank and no punctuation (`separates_eq_false_of_continuesName`), and a bare symbol does not open with a digit
(`isDigit_eq_false_of_opensName`).
-/

namespace ScopedGrammar.Character

/-! ## Ranges -/

theorem exists_range_of_inRanges {n : Nat} : ∀ {rs : List (Nat × Nat)}, inRanges n rs = true →
    ∃ r ∈ rs, r.1 ≤ n ∧ n ≤ r.2
  | (low, high) :: rest, h => by
    unfold inRanges at h
    split at h
    · cases h
    · split at h
      · rename_i hlow hhigh
        exact ⟨(low, high), List.mem_cons_self, Nat.le_of_not_lt hlow, hhigh⟩
      · obtain ⟨r, hr, hn⟩ := exists_range_of_inRanges h
        exact ⟨r, List.mem_cons_of_mem _ hr, hn⟩

/-- Whether no range of one table meets a range of another. -/
def areDisjoint (as bs : List (Nat × Nat)) : Bool :=
  as.all fun a => bs.all fun b => decide (a.2 < b.1) || decide (b.2 < a.1)

theorem inRanges_eq_false {as bs : List (Nat × Nat)} {n : Nat} (h : areDisjoint as bs = true)
    (hn : inRanges n as = true) : inRanges n bs = false := by
  cases hb : inRanges n bs with
  | false => rfl
  | true =>
    obtain ⟨a, ha, hal, hah⟩ := exists_range_of_inRanges hn
    obtain ⟨b, hb, hbl, hbh⟩ := exists_range_of_inRanges hb
    have hdis := List.all_eq_true.mp (List.all_eq_true.mp h a ha) b hb
    simp only [Bool.or_eq_true, decide_eq_true_eq] at hdis
    omega

/-! ## Separators -/

/-- The code points of quotes, percent signs, marks and the signs of an arrow. -/
def punctuationRanges : List (Nat × Nat) :=
  [(0x22, 0x22), (0x25, 0x25), (0x28, 0x29), (0x2C, 0x2E), (0x3D, 0x3E), (0x5B, 0x5D)]

/-- The code points of the decimal digits. -/
def digitRanges : List (Nat × Nat) := [(0x30, 0x39)]

/-- Blanks and punctuation: what ends a bare symbol, and what no bare symbol and no number opens with. -/
def separates (c : Char) : Bool := isBlank c || inRanges c.toNat punctuationRanges

theorem separates_eq_false_of_disjoint {as : List (Nat × Nat)} {c : Char} (hb : areDisjoint as blankRanges = true)
    (hp : areDisjoint as punctuationRanges = true) (h : inRanges c.toNat as = true) : separates c = false := by
  rw [separates, isBlank, inRanges_eq_false hb h, inRanges_eq_false hp h]
  rfl

theorem inRanges_digitRanges {c : Char} (h : c.isDigit = true) : inRanges c.toNat digitRanges = true := by
  obtain ⟨hlow, hhigh⟩ := Char.isDigit_iff_toNat.mp h
  have h0 : '0'.toNat = 0x30 := rfl
  have h9 : '9'.toNat = 0x39 := rfl
  simp only [digitRanges, inRanges]
  rw [if_neg (by omega), if_pos (by omega)]

theorem separates_eq_false_of_isDigit {c : Char} (h : c.isDigit = true) : separates c = false :=
  separates_eq_false_of_disjoint (by decide) (by decide) (inRanges_digitRanges h)

theorem ne_of_separates {c d : Char} (hc : separates c = false) (hd : separates d = true) : c ≠ d := by
  rintro rfl
  rw [hc] at hd
  cases hd

/-- A character of a bare symbol is no blank and no punctuation. -/
theorem separates_eq_false_of_continuesName {c : Char} (h : continuesName c = true) : separates c = false := by
  simp only [continuesName, Bool.or_eq_true, beq_iff_eq] at h
  rcases h with ((h | h) | rfl) | rfl
  · exact separates_eq_false_of_disjoint (by decide +kernel) (by decide +kernel) h
  · exact separates_eq_false_of_disjoint (by decide +kernel) (by decide +kernel) h
  · decide
  · decide

theorem continuesName_of_opensName {c : Char} (h : opensName c = true) : continuesName c = true := by
  simp only [opensName, Bool.or_eq_true] at h
  rcases h with h | h <;> simp [continuesName, h]

/-- No bare symbol opens with a digit. -/
theorem isDigit_eq_false_of_opensName {c : Char} (h : opensName c = true) : c.isDigit = false := by
  cases hd : c.isDigit with
  | false => rfl
  | true =>
    have hr := inRanges_digitRanges hd
    simp only [opensName, Bool.or_eq_true, beq_iff_eq] at h
    rcases h with h | rfl
    · rw [inRanges_eq_false (by decide +kernel) h] at hr
      cases hr
    · cases hd

end ScopedGrammar.Character

namespace ScopedGrammar.Lexer

open Character

variable {c : Char}

theorem mark?_eq_none (h : separates c = false) : mark? c = none := by
  unfold mark?
  split <;> first | rfl | exact absurd h (by decide)

end ScopedGrammar.Lexer

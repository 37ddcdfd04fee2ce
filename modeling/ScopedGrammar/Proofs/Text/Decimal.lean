import Mathlib.Data.Int.Log
import Mathlib.Data.Rat.Floor
import Mathlib.Tactic.Positivity
import ScopedGrammar.Proofs.Text.Lexing

/-!
# Decimals written out

Up to its sign a decimal is the rational number `Decimal.magnitude`. Written without an exponent it is a plain number of
the same sign and magnitude (`exists_plain`), also after its zeros were moved into the exponent (`magnitude_trim`), and
its leading place is a logarithm (`lead_eq`).
-/

namespace ScopedGrammar.Decimal

/-! ## Digits -/

theorem digitsValue_digits (n : Nat) : digitsValue (digits n) = n := Nat.ofDigitChars_ten_toDigits

theorem digitsValue_append (as bs : List Char) :
    digitsValue (as ++ bs) = 10 ^ bs.length * digitsValue as + digitsValue bs :=
  (Nat.ofDigitChars_append 0).trans Nat.ofDigitChars_eq_ofDigitChars_zero

theorem digitsValue_zeros (n : Nat) : digitsValue (List.replicate n '0') = 0 := Nat.ofDigitChars_replicate_zero

theorem isDigit_of_mem_digits {n : Nat} {c : Char} (h : c ∈ digits n) : c.isDigit = true :=
  Nat.isDigit_of_mem_toDigits (by decide) (by decide) h

theorem isDigit_of_mem_zeros {n : Nat} {c : Char} (h : c ∈ List.replicate n '0') : c.isDigit = true := by
  rw [List.eq_of_mem_replicate h]
  rfl

theorem lt_pow_length_digits (n : Nat) : n < 10 ^ (digits n).length :=
  (Nat.length_toDigits_le_iff (by decide) Nat.length_toDigits_pos).mp (Nat.le_refl _)

theorem pow_length_digits_le {n : Nat} (hn : n ≠ 0) : 10 ^ ((digits n).length - 1) ≤ n := by
  rcases Nat.eq_zero_or_pos ((digits n).length - 1) with h | h
  · rw [h, Nat.pow_zero]
    omega
  · have hle := mt (Nat.length_toDigits_le_iff (b := 10) (n := n) (by decide) h).mpr
    have hlt : ¬ (digits n).length ≤ (digits n).length - 1 := by omega
    exact Nat.le_of_not_lt (hle hlt)

/-! ## Magnitudes -/

/-- The rational number that a decimal is without its sign. -/
def magnitude (d : Decimal) : ℚ := d.coefficient * 10 ^ d.exponent

theorem magnitude_pos {d : Decimal} (h : d.coefficient ≠ 0) : 0 < d.magnitude :=
  mul_pos (Nat.cast_pos.mpr (Nat.pos_of_ne_zero h)) (zpow_pos (by norm_num) _)

theorem magnitude_eq_zero_iff {d : Decimal} : d.magnitude = 0 ↔ d.coefficient = 0 := by
  simp [magnitude, zpow_ne_zero]

/-- The leading place of a decimal is the logarithm of its magnitude. -/
theorem lead_eq {d : Decimal} (h : d.coefficient ≠ 0) : d.lead = Int.log 10 d.magnitude + 1 := by
  have hlow : ((10 ^ ((digits d.coefficient).length - 1) : ℕ) : ℚ) ≤ d.coefficient :=
    Nat.cast_le.mpr (pow_length_digits_le h)
  have hhigh : (d.coefficient : ℚ) < ((10 ^ (digits d.coefficient).length : ℕ) : ℚ) :=
    Nat.cast_lt.mpr (lt_pow_length_digits _)
  have hpos : (0 : ℚ) < 10 ^ d.exponent := zpow_pos (by norm_num) _
  have hlength : 0 < (digits d.coefficient).length := Nat.length_toDigits_pos
  have hle : d.lead - 1 ≤ Int.log 10 d.magnitude := by
    rw [← Int.zpow_le_iff_le_log (by norm_num) (magnitude_pos h)]
    calc ((10 : ℕ) : ℚ) ^ (d.lead - 1) = ((10 ^ ((digits d.coefficient).length - 1) : ℕ) : ℚ) * 10 ^ d.exponent := by
          rw [lead, Nat.cast_pow, ← zpow_natCast, Nat.cast_ofNat, ← zpow_add₀ (by norm_num)]
          congr 1
          omega
      _ ≤ d.magnitude := mul_le_mul_of_nonneg_right hlow hpos.le
  have hlt : Int.log 10 d.magnitude < d.lead := by
    rw [← Int.lt_zpow_iff_log_lt (by norm_num) (magnitude_pos h)]
    calc d.magnitude < ((10 ^ (digits d.coefficient).length : ℕ) : ℚ) * 10 ^ d.exponent :=
          mul_lt_mul_of_pos_right hhigh hpos
      _ = ((10 : ℕ) : ℚ) ^ d.lead := by
          rw [lead, Nat.cast_pow, ← zpow_natCast, Nat.cast_ofNat, ← zpow_add₀ (by norm_num)]
  omega

/-! ## Layout -/

/-- Digits with a point among them, or in front of them after zeros, are those of a plain number. -/
theorem exists_point (negative : Bool) {ds : List Char} (hne : ds ≠ []) (hds : ∀ c ∈ ds, c.isDigit = true)
    (places : Nat) : ∃ p : Plain, p.negative = negative ∧ p.digits = point ds places ∧
      digitsValue (p.whole ++ p.fraction) = digitsValue ds ∧ p.fraction.length = places := by
  unfold point
  by_cases h₀ : places = 0
  · rw [if_pos h₀]
    exact ⟨⟨negative, ds, [], hne, hds, by simp⟩, rfl, by simp [Plain.digits], by simp, h₀.symm⟩
  rw [if_neg h₀]
  by_cases hlt : places < ds.length
  · rw [if_pos hlt]
    have hwhole : ds.take (ds.length - places) ≠ [] := by
      rw [← List.length_pos_iff, List.length_take]
      omega
    have hlength : (ds.drop (ds.length - places)).length = places := by
      rw [List.length_drop]
      omega
    have hfraction : ds.drop (ds.length - places) ≠ [] := by
      rw [← List.length_pos_iff, hlength]
      omega
    refine ⟨⟨negative, ds.take (ds.length - places), ds.drop (ds.length - places), hwhole,
      fun c hc => hds c (List.mem_of_mem_take hc), fun c hc => hds c (List.mem_of_mem_drop hc)⟩, rfl, ?_, ?_, hlength⟩
    · simp [Plain.digits, hfraction]
    · simp only [List.take_append_drop]
  · rw [if_neg hlt]
    have hfraction : ∀ c ∈ List.replicate (places - ds.length) '0' ++ ds, c.isDigit = true := by
      intro c hc
      rcases List.mem_append.mp hc with hc | hc
      · exact isDigit_of_mem_zeros hc
      · exact hds c hc
    refine ⟨⟨negative, ['0'], List.replicate (places - ds.length) '0' ++ ds, by simp, by simp, hfraction⟩, rfl,
      ?_, ?_, ?_⟩
    · simp [Plain.digits, hne]
    · have hzero : digitsValue ['0'] = 0 := rfl
      rw [← List.append_assoc, digitsValue_append, digitsValue_append, digitsValue_zeros, hzero]
      simp
    · rw [List.length_append, List.length_replicate]
      omega

/-- The number that is written without an exponent has the sign and the magnitude of the decimal. -/
theorem exists_plain (d : Decimal) : ∃ p : Plain, d.positional = p.text ∧ p.value.negative = d.negative ∧
    p.value.magnitude = d.magnitude := by
  have hne : digits d.coefficient ++ List.replicate d.exponent.toNat '0' ≠ [] :=
    List.append_ne_nil_of_left_ne_nil Nat.toDigits_ne_nil _
  have hds : ∀ c ∈ digits d.coefficient ++ List.replicate d.exponent.toNat '0', c.isDigit = true := by
    intro c hc
    rcases List.mem_append.mp hc with hc | hc
    · exact isDigit_of_mem_digits hc
    · exact isDigit_of_mem_zeros hc
  obtain ⟨p, hnegative, htext, hvalue, hlength⟩ := exists_point d.negative hne hds (-d.exponent).toNat
  refine ⟨p, ?_, hnegative, ?_⟩
  · rw [positional, Plain.text, Plain.sign, hnegative, htext]
    rfl
  · have hpow : (10 : ℚ) ^ d.exponent = 10 ^ d.exponent.toNat * 10 ^ (-((-d.exponent).toNat : Int)) := by
      rw [← zpow_natCast, ← zpow_add₀ (by norm_num)]
      congr 1
      omega
    simp only [Plain.value, magnitude, hvalue, hlength, digitsValue_append, digitsValue_digits, digitsValue_zeros,
      List.length_replicate, hpow]
    push_cast
    ring

theorem negative_trim (d : Decimal) : d.trim.negative = d.negative := by
  simp only [trim]
  split <;> rfl

/-- Zeros at the end of a number are powers of ten in it. -/
theorem pow_trailing_zeros_dvd (n : Nat) : 10 ^ ((digits n).reverse.takeWhile (· == '0')).length ∣ n := by
  have hzeros : (digits n).reverse.takeWhile (· == '0') =
      List.replicate ((digits n).reverse.takeWhile (· == '0')).length '0' :=
    List.eq_replicate_of_mem fun c hc => by simpa using List.all_eq_true.mp List.all_takeWhile c hc
  have hsplit := congrArg List.reverse ((digits n).reverse.takeWhile_append_dropWhile (p := (· == '0')))
  rw [hzeros, List.reverse_append, List.reverse_replicate, List.reverse_reverse] at hsplit
  have hvalue := digitsValue_digits n
  rw [← hsplit, digitsValue_append, digitsValue_zeros, List.length_replicate] at hvalue
  exact ⟨_, hvalue.symm⟩

/-- The zeros that are moved into the exponent leave the magnitude as it is. -/
theorem magnitude_trim (d : Decimal) : d.trim.magnitude = d.magnitude := by
  obtain ⟨m, hm⟩ := pow_trailing_zeros_dvd d.coefficient
  simp only [trim]
  split
  · rfl
  · simp only [magnitude]
    generalize ((digits d.coefficient).reverse.takeWhile (· == '0')).length = k at hm ⊢
    have hpos : 0 < 10 ^ k := Nat.pow_pos (by decide)
    have hdiv : d.coefficient / Nat.pow 10 k = m := by
      rw [hm]
      exact Nat.mul_div_cancel_left m hpos
    rw [hdiv, hm, zpow_add₀ (by norm_num), zpow_natCast]
    push_cast
    ring

end ScopedGrammar.Decimal

import Mathlib
import ScopedGrammar.Arith.Binary64
import ScopedGrammar.Proofs.Text.Decimal
import ScopedGrammar.Proofs.Text.Printing

/-!
# Doubles written and read

A decimal is read as a double that depends on its sign and its magnitude only (`ofDecimal_congr`). The exact decimal of
a finite double is read as that double (`ofDecimal_exact`), and so is the shortest one, as every candidate is tried
first (`ofDecimal_shortest`). So doubles can be weights of grammars that are read back.
-/

namespace ScopedGrammar.Binary64

/-! ## Bits -/

section

open Float.Model Float.Model.UnpackedFloat

theorem packComponents_unpack (b : BitVec (Format.numBits Format.binary64)) :
    packComponents Format.binary64 (Sign.ofBitVec (unpackSign b)) (unpackExponent b) (unpackMantissa b) = b := by
  have hsign : (Sign.ofBitVec (unpackSign b)).toBitVec = unpackSign b := by
    generalize unpackSign b = s
    revert s
    decide
  rw [packComponents, hsign]
  apply BitVec.eq_of_getLsbD_eq
  intro i hi
  have hlt : i < 64 := hi
  simp only [unpackSign, unpackExponent, unpackMantissa, BitVec.getLsbD_append, BitVec.getLsbD_cast,
    BitVec.getLsbD_extractLsb]
  by_cases hmantissa : i < 52
  · simp [hmantissa]
  · obtain ⟨j, rfl⟩ : ∃ j, i = 52 + j := ⟨i - 52, by omega⟩
    by_cases hexponent : j < 11
    · simp [hexponent]
    · obtain rfl : j = 11 := by omega
      simp
      rfl

theorem pack_subnormal (s : Sign) {m : BitVec Format.binary64.mantissaBitsWithoutImplicit} (h : 0 < m.toNat) :
    pack Format.binary64 (.finite s m.toNat (-1074) h) = packComponents Format.binary64 s 0#_ m := by
  have hlog : m.toNat.log2 < 52 := (Nat.log2_lt h.ne').mpr m.isLt
  have hbits : Format.mantissaBits Format.binary64 = 53 := by decide
  simp only [UnpackedFloat.pack, hbits]
  rw [if_neg (by decide), if_neg (by omega), BitVec.ofNat_toNat, BitVec.setWidth_eq]

theorem pack_normal (s : Sign) {e : BitVec Format.binary64.exponentBits} (he : e.toNat ≠ 2047)
    {m : BitVec Format.binary64.mantissaBitsWithoutImplicit} {n : Nat} (hn : n = 2 ^ 52 + m.toNat) (h : 0 < n) :
    pack Format.binary64 (.finite s n (e.toNat - 1075) h) = packComponents Format.binary64 s e m := by
  have hm : m.toNat < 2 ^ 52 := m.isLt
  have he' : e.toNat < 2 ^ 11 := e.isLt
  have hlog : n.log2 = 52 := by
    rw [Nat.log2_eq_iff h.ne']
    omega
  have hbias : Format.exponentBias Format.binary64 = 1023 := by decide
  have hbits : Format.mantissaBits Format.binary64 = 53 := by decide
  have hbiased : ((e.toNat : Int) - 1075 + (1023 : Nat) + (52 : Nat)).toNat = e.toNat := by omega
  have hclear : BitVec.ofNat 52 n = m := by
    apply BitVec.eq_of_toNat_eq
    rw [BitVec.toNat_ofNat]
    omega
  simp only [UnpackedFloat.pack, hbias, hbits, hlog, hbiased]
  rw [if_neg (by omega), if_pos trivial, hclear, BitVec.ofNat_toNat, BitVec.setWidth_eq]

/-- Unpacking a finite value and packing it again gives back its bits. -/
theorem pack_unpack {b : BitVec (Format.numBits Format.binary64)} (h : unpackExponent b ≠ -1#_) :
    pack Format.binary64 (unpack Format.binary64 b) = b := by
  have hb := packComponents_unpack b
  have hmantissa : (1#1 ++ unpackMantissa b).toNat = 2 ^ 52 + (unpackMantissa b).toNat := by
    rw [BitVec.toNat_append, ← Nat.shiftLeft_add_eq_or_of_lt (unpackMantissa b).isLt]
    rfl
  unfold UnpackedFloat.unpack
  simp only
  rw [if_neg h]
  by_cases hexponent : unpackExponent b = 0#_
  · rw [if_pos hexponent]
    rw [hexponent] at hb ⊢
    by_cases hzero : unpackMantissa b = 0#_
    · rw [dif_pos hzero]
      rw [hzero] at hb
      exact hb
    · rw [dif_neg hzero]
      exact (pack_subnormal _ _).trans hb
  · rw [if_neg hexponent]
    exact (pack_normal _ (fun he => h (BitVec.eq_of_toNat_eq he)) hmantissa _).trans hb

end

theorem eq_of_toBits_eq {x y : Float} (h : x.toBits = y.toBits) : x = y := by
  obtain ⟨⟨b, hb⟩⟩ := x
  obtain ⟨⟨c, hc⟩⟩ := y
  cases (h : b = c)
  rfl

theorem exponentBits_eq (x : Float) : exponentBits x = x.toBits.toNat / 2 ^ 52 % 2048 := by
  simp [exponentBits, UInt64.toNat_shiftRight, Nat.shiftRight_eq_div_pow]

theorem isNegative_eq (x : Float) : isNegative x = (x.toBits.toNat / 2 ^ 63 == 1) := by
  rw [Bool.eq_iff_iff, isNegative, beq_iff_eq, beq_iff_eq, ← UInt64.toNat_inj]
  simp [UInt64.toNat_shiftRight, Nat.shiftRight_eq_div_pow]

section

open Float.Model Float.Model.UnpackedFloat

theorem unpackExponent_ne {x : Float} (h : x.isFinite = true) :
    (unpackExponent x.toBits.toBitVec : BitVec Format.binary64.exponentBits) ≠ -1#_ := by
  intro he
  have hunpack : (UnpackedFloat.unpack Format.binary64 x.toBits.toBitVec).isFinite = true := h
  unfold UnpackedFloat.unpack at hunpack
  simp only at hunpack
  rw [if_pos he] at hunpack
  split at hunpack <;> cases hunpack

theorem exponentBits_lt {x : Float} (h : x.isFinite = true) : exponentBits x < 2047 := by
  have hne := unpackExponent_ne h
  have hexponent : (unpackExponent x.toBits.toBitVec : BitVec Format.binary64.exponentBits).toNat = exponentBits x := by
    rw [exponentBits_eq]
    simp [unpackExponent, BitVec.extractLsb_toNat, Nat.shiftRight_eq_div_pow]
  have hlt : exponentBits x < 2048 := Nat.mod_lt _ (by decide)
  have : exponentBits x ≠ 2047 := by
    intro he
    rw [he] at hexponent
    exact hne (BitVec.eq_of_toNat_eq hexponent)
  omega

/-- A finite double is the one of its bits. -/
theorem ofBits_toBits {x : Float} (h : x.isFinite = true) : Float.ofBits x.toBits = x := by
  apply eq_of_toBits_eq
  show UInt64.ofBitVec (UnpackedFloat.pack Format.binary64 (UnpackedFloat.unpack Format.binary64 x.toBits.toBitVec)) = _
  rw [pack_unpack (unpackExponent_ne h)]

end

/-! ## Rounding -/

theorem log_eq {r : ℚ} {e : Int} (hlow : (2 : ℚ) ^ e ≤ r) (hhigh : r < (2 : ℚ) ^ (e + 1)) : Int.log 2 r = e := by
  have hpos : 0 < r := lt_of_lt_of_le (zpow_pos (by norm_num) e) hlow
  have hle : e ≤ Int.log 2 r := (Int.zpow_le_iff_le_log (by norm_num) hpos).mp (by exact_mod_cast hlow)
  have hlt : Int.log 2 r < e + 1 := (Int.lt_zpow_iff_log_lt (by norm_num) hpos).mp (by exact_mod_cast hhigh)
  omega

theorem zpow_eq_div (e : Int) : (2 : ℚ) ^ e = (2 ^ e.toNat : ℕ) / (2 ^ (-e).toNat : ℕ) := by
  rcases le_total 0 e with h | h
  · obtain ⟨n, rfl⟩ := Int.eq_ofNat_of_zero_le h
    simp
  · obtain ⟨n, hn⟩ := Int.eq_ofNat_of_zero_le (neg_nonneg.mpr h)
    obtain rfl : e = -(n : Int) := by omega
    simp

section

variable {num den : Nat}

theorem lt_zpow_iff (num : Nat) (hden : 0 < den) (e : Int) :
    (num / den : ℚ) < 2 ^ e ↔ num * 2 ^ (-e).toNat < den * 2 ^ e.toNat := by
  have hpow : (0 : ℚ) < (2 ^ (-e).toNat : ℕ) := Nat.cast_pos.mpr (Nat.pow_pos (by decide))
  rw [zpow_eq_div, div_lt_div_iff₀ (Nat.cast_pos.mpr hden) hpow, mul_comm _ (den : ℚ)]
  exact_mod_cast Iff.rfl

theorem log2_bounds (hn : 0 < num) : (2 : ℚ) ^ (num.log2 : Int) ≤ num ∧ (num : ℚ) < 2 ^ ((num.log2 : Int) + 1) := by
  have hlow := Nat.log2_self_le (Nat.pos_iff_ne_zero.mp hn)
  have hhigh := Nat.lt_log2_self (n := num)
  constructor
  · rw [zpow_natCast]
    exact_mod_cast hlow
  · rw [← Nat.cast_succ, zpow_natCast]
    exact_mod_cast hhigh

/-- The logarithm of a quotient. -/
theorem quotientLog2_eq (hnum : 0 < num) (hden : 0 < den) : quotientLog2 num den = Int.log 2 (num / den : ℚ) := by
  obtain ⟨hnumLow, hnumHigh⟩ := log2_bounds hnum
  obtain ⟨hdenLow, hdenHigh⟩ := log2_bounds hden
  have hdenPos : (0 : ℚ) < den := Nat.cast_pos.mpr hden
  have hiff := lt_zpow_iff num hden ((num.log2 : Int) - den.log2)
  unfold quotientLog2
  simp only
  split
  · rename_i h
    refine (log_eq ?_ ?_).symm
    · rw [le_div_iff₀ hdenPos]
      calc (2 : ℚ) ^ ((num.log2 : Int) - den.log2 - 1) * den
          ≤ 2 ^ ((num.log2 : Int) - den.log2 - 1) * 2 ^ ((den.log2 : Int) + 1) :=
            mul_le_mul_of_nonneg_left hdenHigh.le (zpow_pos (by norm_num) _).le
        _ = 2 ^ (num.log2 : Int) := by
            rw [← zpow_add₀ (by norm_num)]
            congr 1
            ring
        _ ≤ num := hnumLow
    · rw [sub_add_cancel]
      exact hiff.mpr h
  · rename_i h
    refine (log_eq (not_lt.mp (mt hiff.mp h)) ?_).symm
    rw [div_lt_iff₀ hdenPos]
    calc (num : ℚ) < 2 ^ ((num.log2 : Int) + 1) := hnumHigh
      _ = 2 ^ ((num.log2 : Int) - den.log2 + 1) * 2 ^ (den.log2 : Int) := by
          rw [← zpow_add₀ (by norm_num)]
          congr 1
          ring
      _ ≤ 2 ^ ((num.log2 : Int) - den.log2 + 1) * den :=
          mul_le_mul_of_nonneg_left hdenLow (zpow_pos (by norm_num) _).le

/-- Rounding a quotient depends on its value only. -/
theorem roundDiv_congr {a b a' b' : Nat} (hb : 0 < b) (hb' : 0 < b') (h : a * b' = a' * b) :
    Decimal.roundDiv a b = Decimal.roundDiv a' b' := by
  have hscale : ∀ {k m n : Nat}, 0 < k → Decimal.roundDiv (k * m) (k * n) = Decimal.roundDiv m n := by
    intro k m n hk
    unfold Decimal.roundDiv
    simp only [Nat.mul_div_mul_left _ _ hk, Nat.mul_mod_mul_left, Nat.mul_left_comm 2 k, Nat.mul_lt_mul_left hk]
  calc Decimal.roundDiv a b = Decimal.roundDiv (b' * a) (b' * b) := (hscale hb').symm
    _ = Decimal.roundDiv (b * a') (b * b') := by rw [Nat.mul_comm b' a, h, Nat.mul_comm a' b, Nat.mul_comm b' b]
    _ = Decimal.roundDiv a' b' := hscale hb

theorem roundDiv_mul {s k : Nat} (hk : 0 < k) : Decimal.roundDiv (s * k) k = s := by
  simp [Decimal.roundDiv, Nat.mul_div_cancel _ hk, hk]

/-- The double nearest to a quotient depends on its value only. -/
theorem nearestBits_congr {num' den' : Nat} (hnum : 0 < num) (hden : 0 < den) (hnum' : 0 < num') (hden' : 0 < den')
    (h : (num / den : ℚ) = num' / den') : nearestBits num den = nearestBits num' den' := by
  have hcross : num * den' = num' * den := by
    rw [div_eq_div_iff (Nat.cast_pos.mpr hden).ne' (Nat.cast_pos.mpr hden').ne'] at h
    exact_mod_cast h
  simp only [nearestBits, quotientLog2_eq hnum hden, quotientLog2_eq hnum' hden', h]
  generalize max (Int.log 2 (num' / den' : ℚ) - 52) (-1074) = q
  have hpow : 0 < Nat.pow 2 q.toNat := Nat.pow_pos (by decide)
  have hround := calc num * Nat.pow 2 (-q).toNat * (den' * Nat.pow 2 q.toNat)
      = num * den' * (Nat.pow 2 (-q).toNat * Nat.pow 2 q.toNat) := by ring
    _ = num' * Nat.pow 2 (-q).toNat * (den * Nat.pow 2 q.toNat) := by rw [hcross]; ring
  rw [roundDiv_congr (Nat.mul_pos hden hpow) (Nat.mul_pos hden' hpow) hround]

/-- A multiple of a power of two that fits into the bits of a double is not rounded. -/
theorem nearestBits_eq {s : Nat} {q : Int} (hnum : 0 < num) (hden : 0 < den) (hs : 0 < s) (hlt : s < 2 ^ 53)
    (hq : -1074 ≤ q) (hnormal : q = -1074 ∨ 2 ^ 52 ≤ s) (h : (num / den : ℚ) = s * 2 ^ q) :
    nearestBits num den = min infinityBits ((q + 1074).toNat * 2 ^ 52 + s) := by
  have hlog : Int.log 2 (num / den : ℚ) = s.log2 + q := by
    obtain ⟨hlow, hhigh⟩ := log2_bounds hs
    have hpow : (0 : ℚ) < 2 ^ q := zpow_pos (by norm_num) q
    apply log_eq
    · rw [h, zpow_add₀ (by norm_num)]
      exact mul_le_mul_of_nonneg_right hlow hpow.le
    · rw [h, add_right_comm, zpow_add₀ (by norm_num)]
      exact mul_lt_mul_of_pos_right hhigh hpow
  have hscale : max (Int.log 2 (num / den : ℚ) - 52) (-1074) = q := by
    have hle : s.log2 < 53 := (Nat.log2_lt hs.ne').mpr hlt
    have hge : 2 ^ 52 ≤ s → 52 ≤ s.log2 := (Nat.le_log2 hs.ne').mpr
    omega
  have hexact : num * 2 ^ (-q).toNat = s * (den * 2 ^ q.toNat) := by
    have hpow : ((2 ^ (-q).toNat : ℕ) : ℚ) ≠ 0 := Nat.cast_ne_zero.mpr (by positivity)
    rw [zpow_eq_div, div_eq_iff (Nat.cast_pos.mpr hden).ne'] at h
    have hcast : (num : ℚ) * (2 ^ (-q).toNat : ℕ) = s * (den * (2 ^ q.toNat : ℕ)) := by
      rw [h]
      field_simp
    exact_mod_cast hcast
  simp only [nearestBits, quotientLog2_eq hnum hden, hscale]
  have hpow : 0 < 2 ^ q.toNat := Nat.pow_pos (by decide)
  have hround := roundDiv_mul (s := s) (Nat.mul_pos hden hpow)
  rw [← hexact] at hround
  exact congrArg (fun r => min infinityBits ((q + 1074).toNat * 2 ^ 52 + r)) hround

end

/-! ## Reading -/

section

variable {d d' : Decimal}

/-- A decimal as a quotient of natural numbers. -/
theorem magnitude_eq_div (d : Decimal) : d.magnitude =
    (d.coefficient * Nat.pow 10 d.exponent.toNat : ℕ) / (Nat.pow 10 (-d.exponent).toNat : ℕ) := by
  unfold Decimal.magnitude
  rcases le_total 0 d.exponent with h | h
  · obtain ⟨n, hn⟩ := Int.eq_ofNat_of_zero_le h
    simp [hn]
  · obtain ⟨n, hn⟩ := Int.eq_ofNat_of_zero_le (neg_nonneg.mpr h)
    obtain he : d.exponent = -(n : Int) := by omega
    simp [he, div_eq_mul_inv]

/-- Decimals of the same sign and magnitude are read as the same double. -/
theorem ofDecimal_congr (hsign : d.negative = d'.negative) (h : d.magnitude = d'.magnitude) :
    ofDecimal d = ofDecimal d' := by
  have hzero : d.coefficient = 0 ↔ d'.coefficient = 0 := by
    rw [← Decimal.magnitude_eq_zero_iff, ← Decimal.magnitude_eq_zero_iff, h]
  by_cases hd : d.coefficient = 0
  · simp [ofDecimal, hd, hzero.mp hd, hsign]
  · have hd' := mt hzero.mpr hd
    have hlead : d.lead = d'.lead := by rw [Decimal.lead_eq hd, Decimal.lead_eq hd', h]
    have hpow : ∀ n, 0 < Nat.pow 10 n := fun n => Nat.pow_pos (by decide)
    rw [magnitude_eq_div, magnitude_eq_div] at h
    have hbits := nearestBits_congr (Nat.mul_pos (Nat.pos_of_ne_zero hd) (hpow _)) (hpow _)
      (Nat.mul_pos (Nat.pos_of_ne_zero hd') (hpow _)) (hpow _) h
    simp only [ofDecimal, hd, hd', hlead, hsign, hbits]

theorem zpow_two_le_zpow_ten (n : Nat) {e : Int} (h : e ≤ 3 * n) : (2 : ℚ) ^ e ≤ 10 ^ (n : Int) :=
  calc (2 : ℚ) ^ e ≤ 2 ^ ((3 * n : ℕ) : Int) := zpow_le_zpow_right₀ (by norm_num) (by push_cast; exact h)
    _ = (2 ^ 3) ^ n := by rw [zpow_natCast, pow_mul]
    _ ≤ 10 ^ n := pow_le_pow_left₀ (by norm_num) (by norm_num) n
    _ = 10 ^ (n : Int) := (zpow_natCast _ _).symm

/-- The magnitude of a double has neither 400 places nor 400 zeros in front of it. -/
theorem lead_bounds {s : Nat} {q : Int} (hs : 0 < s) (hlt : s < 2 ^ 53) (hlow : -1074 ≤ q) (hhigh : q ≤ 971)
    (h : d.magnitude = s * 2 ^ q) : ¬ d.lead < -400 ∧ ¬ 400 < d.lead := by
  have hpow : (0 : ℚ) < 2 ^ q := zpow_pos (by norm_num) q
  have hpos : 0 < d.magnitude := h ▸ mul_pos (Nat.cast_pos.mpr hs) hpow
  have hd : d.coefficient ≠ 0 := mt Decimal.magnitude_eq_zero_iff.mpr hpos.ne'
  have hge : (10 : ℚ) ^ (-(400 : ℕ) : Int) ≤ d.magnitude :=
    calc (10 : ℚ) ^ (-(400 : ℕ) : Int) = (10 ^ ((400 : ℕ) : Int))⁻¹ := zpow_neg _ _
      _ ≤ (2 ^ (-q))⁻¹ := inv_anti₀ (zpow_pos (by norm_num) _) (zpow_two_le_zpow_ten 400 (by omega))
      _ = 1 * 2 ^ q := by rw [zpow_neg, inv_inv, one_mul]
      _ ≤ s * 2 ^ q := mul_le_mul_of_nonneg_right (by exact_mod_cast hs) hpow.le
      _ = d.magnitude := h.symm
  have hlt : d.magnitude < (10 : ℚ) ^ ((400 : ℕ) : Int) :=
    calc d.magnitude = s * 2 ^ q := h
      _ < 2 ^ (53 : Int) * 2 ^ q := mul_lt_mul_of_pos_right (by exact_mod_cast hlt) hpow
      _ = 2 ^ (53 + q) := (zpow_add₀ (by norm_num) _ _).symm
      _ ≤ 10 ^ ((400 : ℕ) : Int) := zpow_two_le_zpow_ten 400 (by omega)
  have hle : -((400 : ℕ) : Int) ≤ Int.log 10 d.magnitude :=
    (Int.zpow_le_iff_le_log (by norm_num) hpos).mp (by rwa [Nat.cast_ofNat])
  have hlog : Int.log 10 d.magnitude < ((400 : ℕ) : Int) :=
    (Int.lt_zpow_iff_log_lt (by norm_num) hpos).mp (by rwa [Nat.cast_ofNat])
  rw [Decimal.lead_eq hd]
  omega

/-- A decimal that stands for a multiple of a power of two is read as the double with that significand and scale. -/
theorem ofDecimal_eq {s : Nat} {q : Int} (hs : 0 < s) (hlt : s < 2 ^ 53) (hlow : -1074 ≤ q) (hhigh : q ≤ 971)
    (hnormal : q = -1074 ∨ 2 ^ 52 ≤ s) (h : d.magnitude = s * 2 ^ q) :
    ofDecimal d = Float.ofBits (UInt64.ofNat ((q + 1074).toNat * 2 ^ 52 + s + if d.negative then 2 ^ 63 else 0)) := by
  have hd : d.coefficient ≠ 0 := by
    refine mt Decimal.magnitude_eq_zero_iff.mpr ?_
    rw [h]
    exact (mul_pos (Nat.cast_pos.mpr hs) (zpow_pos (by norm_num) q)).ne'
  obtain ⟨hlead, hlead'⟩ := lead_bounds hs hlt hlow hhigh h
  have hpow : ∀ n, 0 < Nat.pow 10 n := fun n => Nat.pow_pos (by decide)
  rw [magnitude_eq_div] at h
  have hbits := nearestBits_eq (Nat.mul_pos (Nat.pos_of_ne_zero hd) (hpow _)) (hpow _) hs hlt hlow hnormal h
  have hmin : min infinityBits ((q + 1074).toNat * 2 ^ 52 + s) = (q + 1074).toNat * 2 ^ 52 + s := by
    rw [infinityBits]
    omega
  unfold ofDecimal
  simp only
  rw [if_neg (not_or.mpr ⟨hd, hlead⟩), if_neg hlead', hbits, hmin]
  rfl

end

/-! ## Writing -/

theorem bits_eq (x : Float) : x.toBits.toNat =
    exponentBits x * 2 ^ 52 + x.toBits.toNat % 2 ^ 52 + if isNegative x then 2 ^ 63 else 0 := by
  have hlt : x.toBits.toNat < 2 ^ 64 := x.toBits.toNat_lt
  rw [exponentBits_eq, isNegative_eq]
  split
  · rename_i h
    rw [beq_iff_eq] at h
    omega
  · rename_i h
    rw [beq_iff_eq] at h
    omega

/-- The exact decimal has the magnitude of the double. -/
theorem magnitude_exact (x : Float) : (exact x).magnitude = significand x * 2 ^ scale x := by
  unfold exact Decimal.magnitude
  simp only
  split
  · rename_i h
    obtain ⟨n, hn⟩ := Int.eq_ofNat_of_zero_le (neg_nonneg.mpr h.le)
    obtain he : scale x = -(n : Int) := by omega
    have hpow : (10 : ℚ) ^ n = 5 ^ n * 2 ^ n := by rw [← mul_pow]; norm_num
    simp only [he, neg_neg, Int.toNat_natCast, zpow_neg, zpow_natCast, hpow, Nat.pow_eq]
    push_cast
    field_simp
  · rename_i h
    obtain ⟨n, hn⟩ := Int.eq_ofNat_of_zero_le (not_lt.mp h)
    simp [hn]

theorem negative_exact (x : Float) : (exact x).negative = isNegative x := by
  unfold exact
  simp only
  split <;> rfl

/-- The exact decimal of a finite double is read as the double. -/
theorem ofDecimal_exact {x : Float} (hx : x.isFinite = true) : ofDecimal (exact x) = x := by
  have hbits := bits_eq x
  have hexponent := exponentBits_lt hx
  have hmantissa : x.toBits.toNat % 2 ^ 52 < 2 ^ 52 := Nat.mod_lt _ (by decide)
  have hsignificand : significand x = x.toBits.toNat % 2 ^ 52 + if exponentBits x = 0 then 0 else 2 ^ 52 := rfl
  have hscale : scale x = ((max (exponentBits x) 1 : Nat) : Int) - 1075 := rfl
  have hread : ofDecimal (exact x) = Float.ofBits (UInt64.ofNat x.toBits.toNat) := by
    by_cases hs : significand x = 0
    · have hzero : (exact x).coefficient = 0 := by
        rw [← Decimal.magnitude_eq_zero_iff, magnitude_exact, hs, Nat.cast_zero, zero_mul]
      have hbits : x.toBits.toNat = 0 + if (exact x).negative then 2 ^ 63 else 0 := by
        rw [negative_exact]
        split at hsignificand <;> omega
      rw [ofDecimal, hbits]
      simp only [hzero, true_or, if_true]
      rfl
    · have hmagnitude : exponentBits x * 2 ^ 52 + x.toBits.toNat % 2 ^ 52 =
          (scale x + 1074).toNat * 2 ^ 52 + significand x := by split at hsignificand <;> omega
      have hsum : x.toBits.toNat = (scale x + 1074).toNat * 2 ^ 52 + significand x +
          if (exact x).negative then 2 ^ 63 else 0 := by
        rw [negative_exact, ← hmagnitude]
        exact hbits
      have hlt : significand x < 2 ^ 53 := by split at hsignificand <;> omega
      have hnormal : scale x = -1074 ∨ 2 ^ 52 ≤ significand x := by split at hsignificand <;> omega
      rw [ofDecimal_eq (Nat.pos_of_ne_zero hs) hlt (by omega) (by omega) hnormal (magnitude_exact x), ← hsum]
  rw [hread, UInt64.ofNat_toNat, ofBits_toBits hx]

/-- A candidate was read back before it is taken. -/
theorem ofDecimal_onGrid? {x : Float} {d c : Decimal} {n : Nat} (h : onGrid? x d n = some c) : ofDecimal c = x := by
  have hread := List.find?_some h
  exact eq_of_toBits_eq (beq_iff_eq.mp hread)

/-- The decimal that a finite double is written as is read as the double. -/
theorem ofDecimal_shortest {x : Float} (hx : x.isFinite = true) : ofDecimal (shortest x) = x := by
  have hexact := ofDecimal_exact hx
  unfold shortest
  simp only
  split
  · rename_i hzero
    have hread : ofDecimal ⟨(exact x).negative, 0, 0⟩ = ofDecimal (exact x) := by
      refine ofDecimal_congr ?_ ?_
      · rfl
      · rw [Decimal.magnitude_eq_zero_iff.mpr hzero, Decimal.magnitude_eq_zero_iff]
    rw [hread, hexact]
  · rw [ofDecimal_congr (Decimal.negative_trim _) (Decimal.magnitude_trim _)]
    rcases hgrid : ((List.range (Decimal.digits (exact x).coefficient).length).map (· + 1)).findSome?
        (onGrid? x (exact x)) with _ | c
    · exact hexact
    · obtain ⟨n, _, hn⟩ := List.exists_of_findSome?_eq_some hgrid
      exact ofDecimal_onGrid? hn

/-! ## Weights -/

section

open Float.Model Float.Model.UnpackedFloat

theorem eq_of_unpack_eq {x y : Float} (hx : x.isFinite = true) (hy : y.isFinite = true)
    (h : x.toModel.unpack = y.toModel.unpack) : x = y := by
  rw [← ofBits_toBits hx, ← ofBits_toBits hy]
  exact congrArg (fun u => Float.ofModel (Float.Model.pack u)) h

/-- A double that counts as one is one. -/
theorem eq_one {x : Float} (h : (x == 1.0) = true) : x = 1.0 := by
  have hone : (1.0 : Float).toModel.unpack = .finite .positive (2 ^ 52) (-52) (by decide) := rfl
  have hcompare : x.toModel.unpack.compare (1.0 : Float).toModel.unpack = some .eq := beq_iff_eq.mp h
  rw [hone] at hcompare
  rcases hx : x.toModel.unpack with s | _ | s | ⟨s, m, e, hm⟩
  · rw [hx] at hcompare; cases s <;> cases hcompare
  · rw [hx] at hcompare; cases hcompare
  · rw [hx] at hcompare; cases hcompare
  · rw [hx] at hcompare
    cases s with
    | negative => cases hcompare
    | positive =>
      have heq := Ordering.then_eq_eq.mp (Option.some.inj hcompare)
      obtain rfl := compare_eq_iff_eq.mp heq.1
      obtain rfl := compare_eq_iff_eq.mp heq.2
      have hfinite : x.isFinite = true := congrArg UnpackedFloat.isFinite hx
      exact eq_of_unpack_eq hfinite (by decide) (hx.trans hone.symm)

end

instance : Numeral.ReadsBack Float where
  exists_plain x hx := by
    have hfinite : x.isFinite = true := hx
    obtain ⟨p, htext, hnegative, hmagnitude⟩ := Decimal.exists_plain (shortest x)
    refine ⟨p, ?_, (ofDecimal_congr hnegative hmagnitude).trans (ofDecimal_shortest hfinite)⟩
    show write Decimal.positional x = p.text
    rw [write, if_pos hfinite, htext]
  eq_one _ h := eq_one h

end ScopedGrammar.Binary64

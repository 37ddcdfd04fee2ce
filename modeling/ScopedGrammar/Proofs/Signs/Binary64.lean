import Mathlib
import ScopedGrammar.Arith.Binary64
import ScopedGrammar.Proofs.Signs

/-!
# Signs of doubles

The laws on signs hold of doubles. A double is compared with zero by what it stands for (`Binary64.side`). A sum of two
values of one sign is rounded, and rounding keeps the sign (`OfSign.add`); packing the result may at most lose it to a
zero (`OfSign.repack`). It does not if the value is on the grid of doubles (`Solid.side_repack`), and rounding comes to
that grid without reaching zero, since the exact sum is a multiple of the least positive double (`solid_round`).
-/

namespace ScopedGrammar

namespace Binary64

open Float.Model Float.Model.UnpackedFloat

/-! ## Comparisons with zero -/

/-- What a double stands for. -/
abbrev value (x : Float) : UnpackedFloat := x.toModel.unpack

/-- How values of a sign compare with zero. -/
def signSide : Sign → Ordering
  | .positive => .gt
  | .negative => .lt

/-- How a value compares with zero. An undefined one does not. -/
def side : UnpackedFloat → Option Ordering
  | .notANumber => none
  | .infinity s => some (signSide s)
  | .zero _ => some .eq
  | .finite s _ _ _ => some (signSide s)

theorem signSide_injective : Function.Injective signSide := by
  intro s s' h
  cases s <;> cases s' <;> first | rfl | cases h

theorem compare_zero (u : UnpackedFloat) (s : Sign) : u.compare (.zero s) = side u := by
  rcases u with (_ | _) | _ | _ | ⟨_ | _, _, _, _⟩ <;> rfl

theorem zero_compare (u : UnpackedFloat) (s : Sign) :
    (UnpackedFloat.zero s).compare u = (side u).map Ordering.swap := by
  rcases u with (_ | _) | _ | _ | ⟨_ | _, _, _, _⟩ <;> rfl

theorem le_iff {x y : Float} : x ≤ y ↔ ((value x).compare (value y)).any (·.isLE) = true := by
  show decide (x.toModel ≤ y.toModel) = true ↔ _
  rw [decide_eq_true_iff]
  rfl

theorem lt_iff {x y : Float} : x < y ↔ (value x).compare (value y) = some .lt := by
  show decide (x.toModel < y.toModel) = true ↔ _
  rw [decide_eq_true_iff]
  exact beq_iff_eq

theorem value_zero : value Arith.zero = .zero .positive := rfl

theorem nonpos_iff {x : Float} : x ≤ Arith.zero ↔ side (value x) = some .lt ∨ side (value x) = some .eq := by
  rw [le_iff, value_zero, compare_zero]
  rcases side (value x) with _ | _ | _ | _ <;> simp

theorem nonneg_iff {x : Float} : Arith.zero ≤ x ↔ side (value x) = some .gt ∨ side (value x) = some .eq := by
  rw [le_iff, value_zero, zero_compare]
  rcases side (value x) with _ | _ | _ | _ <;> simp

theorem pos_iff {x : Float} : Arith.zero < x ↔ side (value x) = some .gt := by
  rw [lt_iff, value_zero, zero_compare]
  rcases side (value x) with _ | _ | _ | _ <;> simp

theorem isNumber_iff {x : Float} : Arith.IsNumber x ↔ side (value x) ≠ none := by
  rw [Arith.IsNumber, nonpos_iff, pos_iff]
  rcases side (value x) with _ | _ | _ | _ <;> simp

theorem beq_zero_iff {x : Float} : (x == Arith.zero) = true ↔ side (value x) = some .eq := by
  show ((value x).compare (value Arith.zero) == some .eq) = true ↔ _
  rw [value_zero, compare_zero, beq_iff_eq]

/-! ## Values of a sign -/

/-- A value is zero or has a sign. -/
inductive OfSign (s : Sign) : UnpackedFloat → Prop
  | infinity : OfSign s (.infinity s)
  | zero {z : Sign} : OfSign s (.zero z)
  | finite {m : Nat} {e : Int} {h : 0 < m} : OfSign s (.finite s m e h)

theorem eq_of_side {s s' : Sign} (h : some (signSide s') = some (signSide s) ∨ some (signSide s') = some .eq) :
    s' = s := by
  rcases h with h | h
  · exact signSide_injective (Option.some.inj h)
  · cases s' <;> cases h

theorem ofSign_iff {s : Sign} {u : UnpackedFloat} :
    OfSign s u ↔ side u = some (signSide s) ∨ side u = some .eq := by
  constructor
  · intro h
    cases h with
    | infinity => exact .inl rfl
    | zero => exact .inr rfl
    | finite => exact .inl rfl
  · intro h
    rcases u with s' | _ | z | ⟨s', m, e, hm⟩
    · obtain rfl := eq_of_side h
      exact .infinity
    · rcases h with h | h <;> cases h
    · exact .zero
    · obtain rfl := eq_of_side h
      exact .finite

/-- A value that packing keeps away from zero: an infinity, or a mantissa and an exponent on the grid of doubles. -/
inductive Solid (s : Sign) : UnpackedFloat → Prop
  | infinity : Solid s (.infinity s)
  | finite {m : Nat} {e : Int} {h : 0 < m} : m < 2 ^ 53 → -1074 ≤ e → Solid s (.finite s m e h)

/-- What bits stand for is on the grid of doubles. -/
theorem bounds_of_unpack {b : BitVec (Format.numBits Format.binary64)} {s : Sign} {m : Nat} {e : Int} {h : 0 < m}
    (hb : unpack Format.binary64 b = .finite s m e h) : m < 2 ^ 53 ∧ -1074 ≤ e := by
  have hbias : Format.exponentBias Format.binary64 = 1023 := by decide
  have hm : (unpackMantissa b).toNat < 2 ^ 52 := (unpackMantissa b).isLt
  unfold UnpackedFloat.unpack at hb
  simp only at hb
  split at hb
  · split at hb <;> cases hb
  · split at hb
    · split at hb
      · cases hb
      · rename_i h₀ _
        cases hb
        rw [h₀, hbias]
        exact ⟨by omega, by decide⟩
    · rename_i h₀
      cases hb
      have hpos : 0 < (unpackExponent b).toNat := Nat.pos_of_ne_zero fun h => h₀ (BitVec.eq_of_toNat_eq h)
      rw [hbias]
      exact ⟨(1#1 ++ unpackMantissa b).isLt, by omega⟩

/-- A double on the side of a sign is away from zero. -/
theorem solid_value {x : Float} {s : Sign} (h : side (value x) = some (signSide s)) : Solid s (value x) := by
  have hs : OfSign s (value x) := ofSign_iff.mpr (.inl h)
  generalize hu : value x = u at h hs
  cases hs with
  | infinity => exact .infinity
  | zero => cases s <;> cases h
  | finite =>
    obtain ⟨hm, he⟩ := bounds_of_unpack hu
    exact .finite hm he

/-! ## Packing -/

/-- What is left of a value when it is packed. -/
abbrev repack (u : UnpackedFloat) : UnpackedFloat := unpack Format.binary64 (pack Format.binary64 u)

theorem repack_infinity (s : Sign) : repack (.infinity s) = .infinity s := by cases s <;> rfl

theorem repack_zero (s : Sign) : repack (.zero s) = .zero s := by cases s <;> rfl

theorem side_unpack_packComponents (s : Sign) {e : BitVec Format.binary64.exponentBits} (he : e ≠ -1#_)
    (m : BitVec Format.binary64.mantissaBitsWithoutImplicit) :
    side (unpack Format.binary64 (packComponents Format.binary64 s e m)) =
      if e = 0#_ ∧ m = 0#_ then some .eq else some (signSide s) := by
  unfold UnpackedFloat.unpack
  simp only [unpackExponent_packComponents, unpackMantissa_packComponents, unpackSign_packComponents,
    Sign.ofBitVec_toBitVec]
  rw [if_neg he]
  by_cases h₀ : e = 0#_
  · rw [if_pos h₀]
    by_cases hm : m = 0#_
    · rw [dif_pos hm, if_pos ⟨h₀, hm⟩]
      rfl
    · rw [dif_neg hm, if_neg fun h => hm h.2]
      rfl
  · rw [if_neg h₀, if_neg fun h => h₀ h.1]
    rfl

/-- Packing keeps the side of a finite value, or else the value is off the grid and becomes zero. -/
theorem side_repack_finite (s : Sign) {m : Nat} {e : Int} (hm : 0 < m) :
    side (repack (.finite s m e hm)) = some (signSide s) ∨
      side (repack (.finite s m e hm)) = some .eq ∧ (2 ^ 53 ≤ m ∨ e < -1074) := by
  have hbias : Format.exponentBias Format.binary64 = 1023 := by decide
  have hbits : Format.mantissaBits Format.binary64 = 53 := by decide
  unfold repack
  simp only [UnpackedFloat.pack, hbias, hbits]
  split
  · exact .inl (congrArg side (repack_infinity s))
  · rename_i hb
    have hexponent : BitVec.ofNat 11 (e + (1023 : Nat) + (52 : Nat)).toNat ≠ -1#_ := by
      intro he
      have hn := congrArg BitVec.toNat he
      rw [BitVec.toNat_ofNat, Nat.mod_eq_of_lt (by omega), show (-1#11).toNat = 2047 by decide] at hn
      omega
    split
    · rw [side_unpack_packComponents s hexponent]
      split
      · rename_i hzero
        have hn : (BitVec.ofNat 11 (e + (1023 : Nat) + (52 : Nat)).toNat).toNat = 0 := congrArg BitVec.toNat hzero.1
        rw [BitVec.toNat_ofNat, Nat.mod_eq_of_lt (by omega)] at hn
        exact .inr ⟨rfl, .inr (by omega)⟩
      · exact .inl rfl
    · rename_i hlog
      rw [side_unpack_packComponents s (by decide)]
      split
      · rename_i hzero
        refine .inr ⟨rfl, .inl (Nat.le_of_not_lt fun hlt => hlog ?_)⟩
        have hn : (BitVec.ofNat 52 m).toNat = 0 := congrArg BitVec.toNat hzero.2
        rw [BitVec.toNat_ofNat] at hn
        rw [show m = 2 ^ 52 by omega, Nat.log2_two_pow]
      · exact .inl rfl

theorem OfSign.repack {s : Sign} {u : UnpackedFloat} (h : OfSign s u) : OfSign s (repack u) := by
  cases h with
  | infinity => rw [repack_infinity]; exact .infinity
  | zero => rw [repack_zero]; exact .zero
  | @finite _ _ hm => exact ofSign_iff.mpr ((side_repack_finite s hm).imp_right And.left)

theorem Solid.side_repack {s : Sign} {u : UnpackedFloat} (h : Solid s u) :
    side (Binary64.repack u) = some (signSide s) := by
  cases h with
  | infinity => rw [repack_infinity]; rfl
  | @finite _ _ h₀ hm he =>
    rcases side_repack_finite s h₀ with hs | ⟨_, hoff⟩
    · exact hs
    · omega

/-! ## Rounding -/

theorem mantissa_shiftRight (em : ExtendedMantissa) (n : Nat) : (em >>> n).mantissa = em.mantissa / 2 ^ n := by
  show (n.repeat ExtendedMantissa.shiftRightOne em).mantissa = _
  induction n with
  | zero => exact (Nat.div_one _).symm
  | succ n ih => rw [Nat.repeat, ExtendedMantissa.shiftRightOne, ih, Nat.div_div_eq_div_mul, Nat.pow_succ]

theorem mantissa_le_roundedMantissa (em : ExtendedMantissa) : em.mantissa ≤ em.roundedMantissa := by
  obtain ⟨m, _ | _, _ | _⟩ := em
  · exact Nat.le_refl m
  · exact Nat.le_refl m
  · exact Nat.le_add_right m _
  · exact Nat.le_succ m

/-- Shifting a multiple of the least double to its target exponent drops bits, but not all of them. -/
theorem shift_bounds {m : Nat} {e : Int} (accuracy : Accuracy) (hm : 0 < m) (he : -1074 ≤ e) :
    0 < (shiftToTargetExponent Format.binary64 m e accuracy).1.mantissa ∧
      (shiftToTargetExponent Format.binary64 m e accuracy).1.mantissa < 2 ^ 53 ∧
      -1074 ≤ (shiftToTargetExponent Format.binary64 m e accuracy).2 := by
  have hbits : Format.mantissaBits Format.binary64 = 53 := by decide
  have hmin : Format.minExponent Format.binary64 = -1074 := by decide
  have hstart : (ExtendedMantissa.ofMantissaAndAccuracy m accuracy).mantissa = m := by
    rcases accuracy with _ | _ | _ | _ <;> rfl
  obtain ⟨hle, hlt⟩ := (Nat.log2_eq_iff hm.ne').mp rfl
  simp only [shiftToTargetExponent, shiftToExponent, Format.targetExponent, totalExponent, hbits, hmin,
    mantissa_shiftRight, hstart]
  generalize hn : (max ((m.log2 : Int) + 1 + e - (53 : Nat)) (-1074) - e).toNat = n
  refine ⟨Nat.div_pos ?_ (by positivity), ?_, by omega⟩
  · exact le_trans (Nat.pow_le_pow_right (by norm_num) (by omega)) hle
  · refine Nat.div_lt_of_lt_mul (lt_of_lt_of_le hlt ?_)
    rw [← pow_add]
    exact Nat.pow_le_pow_right (by norm_num) (by omega)

/-- Rounding keeps the sign. -/
theorem ofSign_round (s : Sign) (m : Nat) (e : Int) : OfSign s (round Format.binary64 s m e) := by
  simp only [UnpackedFloat.round, roundWithAccuracy]
  split
  · exact .zero
  · exact .finite

/-- Rounding a multiple of the least double comes to the grid of doubles, and not to zero. -/
theorem solid_round (s : Sign) {m : Nat} {e : Int} (hm : 0 < m) (he : -1074 ≤ e) :
    Solid s (round Format.binary64 s m e) := by
  have hround : ∃ m' e' h, round Format.binary64 s m e = .finite s m' e' h ∧ m' < 2 ^ 53 ∧ -1074 ≤ e' := by
    simp only [UnpackedFloat.round, roundWithAccuracy, decreaseExponent]
    generalize ht : Format.targetExponent Format.binary64 (totalExponent m e) = t
    have hmin : -1074 ≤ t := by
      rw [← ht]
      exact le_max_right _ _
    have hm₀ : 0 < m <<< (e - t).toNat := by
      rw [Nat.shiftLeft_eq]
      positivity
    obtain ⟨hm₁, -, he₁⟩ := shift_bounds (e := e - (e - t).toNat) .exact hm₀ (by omega)
    -- rounding up may take one more bit, which the second shift drops
    obtain ⟨hm₂, hlt, he₂⟩ := shift_bounds .exact (lt_of_lt_of_le hm₁ (mantissa_le_roundedMantissa _)) he₁
    exact ⟨_, _, hm₂, dif_neg hm₂.ne', hlt, he₂⟩
  obtain ⟨m', e', h, hr, hlt, he'⟩ := hround
  rw [hr]
  exact .finite hlt he'

/-! ## Sums -/

theorem normalize_apply (s : Sign) {n : Nat} (e : Int) (z : Sign) (hn : 0 < n) :
    UnpackedFloat.normalize Format.binary64 (s.apply n) e z = round Format.binary64 s n e := by
  cases s with
  | positive =>
    have hcompare : compare (n : Int) 0 = .gt := Int.compare_eq_gt.mpr (by omega)
    simp only [Sign.apply, UnpackedFloat.normalize, hcompare, Int.toNat_natCast]
  | negative =>
    have hcompare : compare (-(n : Int)) 0 = .lt := Int.compare_eq_lt.mpr (by omega)
    simp only [Sign.apply, UnpackedFloat.normalize, hcompare, Int.neg_neg, Int.toNat_natCast]

/-- The sum of finite values of one sign is rounded with that sign. -/
theorem add_finite (s : Sign) {m m' : Nat} {e e' : Int} (hm : 0 < m) (hm' : 0 < m') :
    ∃ n, 0 < n ∧ UnpackedFloat.add Format.binary64 (.finite s m e hm) (.finite s m' e' hm') =
      round Format.binary64 s n (min e e') := by
  have hn : 0 < m <<< (e - min e e').toNat + m' <<< (e' - min e e').toNat := by
    rw [Nat.shiftLeft_eq, Nat.shiftLeft_eq]
    positivity
  refine ⟨_, hn, ?_⟩
  rw [← normalize_apply s _ .positive hn]
  simp only [UnpackedFloat.add, decreaseExponent]
  congr 1
  cases s with
  | positive => exact (Int.natCast_add _ _).symm
  | negative => simp only [Sign.apply]; omega

theorem OfSign.add {s : Sign} {u v : UnpackedFloat} (hu : OfSign s u) (hv : OfSign s v) :
    OfSign s (UnpackedFloat.add Format.binary64 u v) := by
  cases hu with
  | infinity =>
    cases hv with
    | infinity => cases s <;> exact .infinity
    | zero => exact .infinity
    | finite => exact .infinity
  | zero =>
    cases hv with
    | infinity => exact .infinity
    | @zero z' => rename_i z; cases z <;> cases z' <;> exact .zero
    | finite => exact .finite
  | @finite _ _ hm =>
    cases hv with
    | infinity => exact .infinity
    | zero => exact .finite
    | @finite _ _ hm' =>
      obtain ⟨n, _, hadd⟩ := add_finite s hm hm'
      rw [hadd]
      exact ofSign_round s n _

/-- A sum is away from zero if a summand is, and the other one is on the same side. -/
theorem Solid.add {s : Sign} {x : Float} {v : UnpackedFloat} (hx : OfSign s (value x)) (hv : Solid s v) :
    Solid s (UnpackedFloat.add Format.binary64 (value x) v) := by
  generalize hu : value x = u at hx
  cases hx with
  | infinity =>
    cases hv with
    | infinity => cases s <;> exact .infinity
    | finite => exact .infinity
  | zero =>
    cases hv with
    | infinity => exact .infinity
    | finite hm he => exact .finite hm he
  | @finite _ _ hm =>
    cases hv with
    | infinity => exact .infinity
    | @finite _ _ hm' _ he' =>
      obtain ⟨n, hn, hadd⟩ := add_finite s hm hm'
      obtain ⟨_, he⟩ := bounds_of_unpack hu
      rw [hadd]
      exact solid_round s hn (le_min he he')

/-- An undefined summand makes a sum undefined. -/
theorem side_add {u v : UnpackedFloat} (h : side (UnpackedFloat.add Format.binary64 u v) ≠ none) :
    side u ≠ none ∧ side v ≠ none := by
  constructor
  · rintro hu
    rcases u with s | _ | s | ⟨s, m, e, hm⟩
    · cases hu
    · exact h rfl
    · cases hu
    · cases hu
  · rintro hv
    rcases v with s | _ | s | ⟨s, m, e, hm⟩
    · cases hv
    · rcases u with s | _ | s | ⟨s, m, e, hm⟩ <;> exact h rfl
    · cases hv
    · cases hv

/-- Packing makes no value undefined, and none defined. -/
theorem side_repack_eq_none {u : UnpackedFloat} (h : side u = none) : side (repack u) = none := by
  rcases u with s | _ | s | ⟨s, m, e, hm⟩
  · cases h
  · rfl
  · cases h
  · cases h

theorem value_add (x y : Float) : value (x + y) = repack (UnpackedFloat.add Format.binary64 (value x) (value y)) := rfl

end Binary64

instance : Arith.Signed Float where
  emptySum_nonpos := Binary64.nonpos_iff.mpr (.inr rfl)
  emptySum_nonneg := Binary64.nonneg_iff.mpr (.inr rfl)
  not_pos_of_nonpos h hp := by
    rw [Binary64.nonpos_iff, Binary64.pos_iff.mp hp] at h
    rcases h with h | h <;> cases h
  nonneg_of_pos h := Binary64.nonneg_iff.mpr (.inl (Binary64.pos_iff.mp h))
  beq_zero_of_pos h := by
    rw [Bool.eq_false_iff, ne_eq, Binary64.beq_zero_iff, Binary64.pos_iff.mp h]
    rintro ⟨⟩
  add_nonpos ha hb := by
    have ha := Binary64.ofSign_iff (s := .negative).mpr (Binary64.nonpos_iff.mp ha)
    have hb := Binary64.ofSign_iff (s := .negative).mpr (Binary64.nonpos_iff.mp hb)
    exact Binary64.nonpos_iff.mpr (Binary64.ofSign_iff.mp (ha.add hb).repack)
  add_pos ha hb := by
    have ha := Binary64.ofSign_iff (s := .positive).mpr (Binary64.nonneg_iff.mp ha)
    have hb := Binary64.solid_value (s := .positive) (Binary64.pos_iff.mp hb)
    exact Binary64.pos_iff.mpr (hb.add ha).side_repack
  isNumber_of_add h := by
    rw [Binary64.isNumber_iff, Binary64.value_add] at h
    obtain ⟨ha, hb⟩ := Binary64.side_add fun hnone => h (Binary64.side_repack_eq_none hnone)
    exact ⟨Binary64.isNumber_iff.mpr ha, Binary64.isNumber_iff.mpr hb⟩

end ScopedGrammar

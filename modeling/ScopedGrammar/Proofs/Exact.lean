import Mathlib
import ScopedGrammar.Categorical
import ScopedGrammar.Proofs.Signs

/-!
# Exact weights

Extended reals as weights: weights and probabilities are real numbers, and logarithms may be infinite as well. A weight
that passes the checks of rules is a real number (`isPositive_iff`, `isNonnegative_iff`), totals are sums
(`total_eq_sum`), and the logarithm is the real one, with `-∞` at zero (`ln_coe`, `ln_zero`). Any positive weights are
a distribution (`exists_ofList_eq_ok`).
-/

namespace ScopedGrammar

noncomputable instance : Arith EReal where
  zero := 0
  one := 1
  emptySum := 0
  ln x := ENNReal.log x.toENNReal
  isFinite x := decide (x ≠ ⊥ ∧ x ≠ ⊤)
  drawScale := id

namespace Arith

/-! ## Logarithms -/

theorem ln_coe {x : ℝ} (hx : 0 < x) : ln (x : EReal) = (Real.log x : ℝ) := by
  show ENNReal.log (x : EReal).toENNReal = _
  rw [EReal.toENNReal_of_ne_top (EReal.coe_ne_top x), EReal.toReal_coe, ENNReal.log_ofReal_of_pos hx]

theorem ln_zero : ln (0 : EReal) = ⊥ := by
  show ENNReal.log (0 : EReal).toENNReal = _
  rw [EReal.toENNReal_zero, ENNReal.log_zero]

theorem logShare_coe {w total : ℝ} (hw : 0 < w) (ht : 0 < total) :
    logShare (w : EReal) (total : EReal) = (Real.log (w / total) : ℝ) := by
  rw [logShare, ln_coe hw, ln_coe ht, Real.log_div hw.ne' ht.ne']
  exact (EReal.coe_sub _ _).symm

/-- In a total of zero, the share of a positive weight is infinite. -/
theorem logShare_zero {w : ℝ} (hw : 0 < w) : logShare (w : EReal) 0 = ⊤ := by
  rw [logShare, ln_zero, ln_coe hw]
  exact EReal.coe_sub_bot _

/-! ## Checks -/

theorem isPositive_iff {w : EReal} : isPositive w = true ↔ ∃ x : ℝ, 0 < x ∧ w = x := by
  have h : isPositive w = true ↔ (w ≠ ⊥ ∧ w ≠ ⊤) ∧ 0 < w := by
    unfold isPositive
    rw [Bool.and_eq_true, decide_eq_true_iff]
    exact and_congr_left fun _ => decide_eq_true_iff
  rw [h]
  constructor
  · rintro ⟨⟨hb, ht⟩, hw⟩
    lift w to ℝ using ⟨ht, hb⟩
    exact ⟨w, EReal.coe_pos.mp hw, rfl⟩
  · rintro ⟨x, hx, rfl⟩
    exact ⟨⟨EReal.coe_ne_bot x, EReal.coe_ne_top x⟩, EReal.coe_pos.mpr hx⟩

theorem isNonnegative_iff {w : EReal} : isNonnegative w = true ↔ ∃ x : ℝ, 0 ≤ x ∧ w = x := by
  have h : isNonnegative w = true ↔ (w ≠ ⊥ ∧ w ≠ ⊤) ∧ 0 ≤ w := by
    unfold isNonnegative
    rw [Bool.and_eq_true, decide_eq_true_iff]
    exact and_congr_left fun _ => decide_eq_true_iff
  rw [h]
  constructor
  · rintro ⟨⟨hb, ht⟩, hw⟩
    lift w to ℝ using ⟨ht, hb⟩
    exact ⟨w, EReal.coe_nonneg.mp hw, rfl⟩
  · rintro ⟨x, hx, rfl⟩
    exact ⟨⟨EReal.coe_ne_bot x, EReal.coe_ne_top x⟩, EReal.coe_nonneg.mpr hx⟩

theorem isPositive_one : isPositive (1 : EReal) = true := isPositive_iff.mpr ⟨1, one_pos, rfl⟩

theorem isNonnegative_one : isNonnegative (1 : EReal) = true := isNonnegative_iff.mpr ⟨1, zero_le_one, rfl⟩

theorem isNonnegative_zero : isNonnegative (0 : EReal) = true := isNonnegative_iff.mpr ⟨0, le_refl _, rfl⟩

/-- Weights that pass the check for generation are positive real numbers. -/
theorem exists_of_mem_map {α : Type} {weight : α → EReal} {as : List α} (h : ∀ a ∈ as, isPositive (weight a) = true) :
    ∀ w ∈ as.map weight, ∃ x : ℝ, 0 < x ∧ w = (x : EReal) := by
  intro w hw
  obtain ⟨a, ha, rfl⟩ := List.mem_map.mp hw
  exact isPositive_iff.mp (h a ha)

/-! ## Signs -/

instance : Signed EReal where
  emptySum_nonpos := le_refl (0 : EReal)
  emptySum_nonneg := le_refl (0 : EReal)
  not_pos_of_nonpos {a} (h : a ≤ 0) := not_lt.mpr h
  nonneg_of_pos {a} (h : 0 < a) := h.le
  beq_zero_of_pos {a} (h : 0 < a) := beq_eq_false_iff_ne.mpr h.ne'
  add_nonpos {a b} (ha : a ≤ 0) (hb : b ≤ 0) := (add_nonpos ha hb : a + b ≤ 0)
  add_pos {a b} (ha : 0 ≤ a) (hb : 0 < b) := (lt_of_lt_of_le hb (le_add_of_nonneg_left ha) : 0 < a + b)
  isNumber_of_add _ := ⟨le_or_gt _ _, le_or_gt _ _⟩

/-! ## Laws of addition -/

/-- Addition that is exact: the order of summands does not matter, and a finite summand cancels in a difference. -/
class Exact (W : Type) [Arith W] : Prop where
  add_comm (a b : W) : a + b = b + a
  add_assoc (a b c : W) : a + b + c = a + (b + c)
  emptySum_add (a : W) : emptySum + a = a
  isFinite_emptySum : isFinite (emptySum : W) = true
  isFinite_add {a b : W} : isFinite a = true → isFinite b = true → isFinite (a + b) = true
  add_sub_add (a b : W) {c : W} : isFinite c = true → (a + c) - (b + c) = a - b

theorem isFinite_iff {w : EReal} : isFinite w = true ↔ ∃ x : ℝ, w = x := by
  constructor
  · intro h
    obtain ⟨hb, ht⟩ := of_decide_eq_true h
    exact ⟨w.toReal, (EReal.coe_toReal ht hb).symm⟩
  · rintro ⟨x, rfl⟩
    exact decide_eq_true ⟨EReal.coe_ne_bot x, EReal.coe_ne_top x⟩

instance : Exact EReal where
  add_comm := add_comm
  add_assoc := add_assoc
  emptySum_add := zero_add
  isFinite_emptySum := isFinite_iff.mpr ⟨0, rfl⟩
  isFinite_add ha hb := by
    obtain ⟨x, rfl⟩ := isFinite_iff.mp ha
    obtain ⟨y, rfl⟩ := isFinite_iff.mp hb
    exact isFinite_iff.mpr ⟨x + y, (EReal.coe_add x y).symm⟩
  add_sub_add a b {c} hc := by
    obtain ⟨z, rfl⟩ := isFinite_iff.mp hc
    rw [EReal.add_sub_add_comm (.inr (EReal.coe_ne_top z)) (.inr (EReal.coe_ne_bot z)), ← EReal.coe_sub, sub_self,
      EReal.coe_zero, add_zero]

section

variable {W : Type} [Arith W] [Exact W]

theorem foldl_add_eq (ws : List W) (a : W) : ws.foldl (· + ·) a = a + total ws := by
  induction ws generalizing a with
  | nil => exact ((Exact.add_comm _ _).trans (Exact.emptySum_add a)).symm
  | cons w ws ih =>
    have hw : total (w :: ws) = w + total ws := by
      rw [total, List.foldl_cons, ih, Exact.emptySum_add]
    rw [List.foldl_cons, ih, hw, Exact.add_assoc]

/-- The totals of two parts add up to that of the whole. -/
theorem total_append (as bs : List W) : total (as ++ bs) = total as + total bs := by
  rw [total, List.foldl_append, foldl_add_eq]
  rfl

/-- The total of finite weights is finite. -/
theorem isFinite_total {ws : List W} (h : ∀ w ∈ ws, isFinite w = true) : isFinite (total ws) = true := by
  induction ws with
  | nil => exact Exact.isFinite_emptySum
  | cons w ws ih =>
    rw [← List.singleton_append, total_append]
    refine Exact.isFinite_add ?_ (ih fun x hx => h x (List.mem_cons_of_mem _ hx))
    show isFinite (emptySum + w) = true
    rw [Exact.emptySum_add]
    exact h w List.mem_cons_self

end

/-! ## Totals -/

theorem total_eq_sum (ws : List EReal) : total ws = ws.sum := by
  rw [List.sum_eq_foldl]
  rfl

/-- The total of real weights that are not negative is such a weight, and none of them exceeds it. -/
theorem exists_total_of_nonneg {ws : List EReal} (h : ∀ w ∈ ws, ∃ x : ℝ, 0 ≤ x ∧ w = x) :
    ∃ x : ℝ, total ws = x ∧ 0 ≤ x ∧ ∀ w ∈ ws, w ≤ x := by
  rw [total_eq_sum]
  induction ws with
  | nil => exact ⟨0, rfl, le_refl _, by simp⟩
  | cons w ws ih =>
    obtain ⟨a, ha, rfl⟩ := h w List.mem_cons_self
    obtain ⟨b, hb, hb₀, hle⟩ := ih fun w hw => h w (List.mem_cons_of_mem _ hw)
    refine ⟨a + b, by rw [List.sum_cons, hb, EReal.coe_add], by positivity, fun w hw => ?_⟩
    rcases List.mem_cons.mp hw with rfl | hw
    · exact EReal.coe_le_coe_iff.mpr (by linarith)
    · exact (hle w hw).trans (EReal.coe_le_coe_iff.mpr (by linarith))

/-- The total of positive real weights is positive, if there are any. -/
theorem exists_total_of_pos {ws : List EReal} (h : ∀ w ∈ ws, ∃ x : ℝ, 0 < x ∧ w = x) (hne : ws ≠ []) :
    ∃ x : ℝ, total ws = x ∧ 0 < x := by
  obtain ⟨x, hx, _, hle⟩ := exists_total_of_nonneg fun w hw => (h w hw).imp fun _ ⟨hx, he⟩ => ⟨hx.le, he⟩
  obtain ⟨w, hw⟩ := List.exists_mem_of_ne_nil ws hne
  obtain ⟨a, ha, rfl⟩ := h w hw
  exact ⟨x, hx, lt_of_lt_of_le ha (EReal.coe_le_coe_iff.mp (hle _ hw))⟩

/-- The total of the weights before one of them, its weight and the total of all are real numbers. -/
theorem exists_parts {ws : List EReal} (h : ∀ w ∈ ws, ∃ x : ℝ, 0 ≤ x ∧ w = x) {i : ℕ} (hi : i < ws.length) :
    ∃ before weight all : ℝ, 0 ≤ before ∧ 0 ≤ weight ∧ before + weight ≤ all ∧ total (ws.take i) = before ∧
      ws[i] = weight ∧ total (ws.take (i + 1)) = ((before + weight : ℝ) : EReal) ∧ total ws = all := by
  obtain ⟨before, hbefore, hb₀, _⟩ := exists_total_of_nonneg fun w hw => h w (List.mem_of_mem_take (i := i) hw)
  obtain ⟨weight, hw₀, hweight⟩ := h _ (List.getElem_mem hi)
  obtain ⟨after, hafter, ha₀, _⟩ := exists_total_of_nonneg fun w hw => h w (List.mem_of_mem_drop (i := i + 1) hw)
  have hnext : total (ws.take (i + 1)) = ((before + weight : ℝ) : EReal) := by
    rw [List.take_succ_eq_append_getElem hi, total_eq_sum, List.sum_append, ← total_eq_sum, hbefore, hweight,
      EReal.coe_add, List.sum_singleton]
  refine ⟨before, weight, before + weight + after, hb₀, hw₀, by linarith, hbefore, hweight, hnext, ?_⟩
  rw [← List.take_append_drop (i + 1) ws, total_eq_sum, List.sum_append, ← total_eq_sum, ← total_eq_sum, hnext, hafter,
    ← EReal.coe_add]

end Arith

/-! ## Choice -/

/-- Positive weights are a distribution. -/
theorem Categorical.exists_ofList_eq_ok {α : Type} {weight : α → EReal} {as : List α} (hne : as ≠ [])
    (h : ∀ a ∈ as, ∃ x : ℝ, 0 < x ∧ weight a = (x : EReal)) : ∃ c, ofList weight as = .ok c := by
  have hpos : ∀ a ∈ as, Arith.zero < weight a := by
    intro a ha
    obtain ⟨x, hx, he⟩ := h a ha
    exact he ▸ EReal.coe_pos.mpr hx
  have hreal : ∀ w ∈ as.map weight, ∃ x : ℝ, 0 < x ∧ w = (x : EReal) := by
    intro w hw
    obtain ⟨a, ha, rfl⟩ := List.mem_map.mp hw
    exact h a ha
  obtain ⟨total, htotal, _⟩ := Arith.exists_total_of_pos hreal (by simpa using hne)
  rcases ofList_positive hne hpos with hok | ⟨_, hinfinite⟩
  · exact hok
  · have hfinite : Arith.isFinite (total : EReal) = true :=
      decide_eq_true ⟨EReal.coe_ne_bot total, EReal.coe_ne_top total⟩
    rw [htotal, hfinite] at hinfinite
    cases hinfinite

end ScopedGrammar

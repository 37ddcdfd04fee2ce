import ScopedGrammar.Categorical

/-!
# Signs of weights

Doubles satisfy few laws of arithmetic: addition is neither associative nor exact, and a value may be undefined. What
remains are laws on signs (`Arith.Signed`). A sum of values that are not positive is not positive, a sum of values that
are not negative is positive if one of them is, and a sum with an undefined summand is undefined. The same then holds of
totals. So positive weights are a distribution, unless their total overflows (`Categorical.ofList_positive`).
-/

namespace ScopedGrammar

variable {W : Type} [Arith W]

namespace Arith

/-- A value that can be compared with zero. -/
def IsNumber (w : W) : Prop := w ≤ zero ∨ zero < w

theorem pos_of_isPositive {w : W} (h : isPositive w = true) : zero < w :=
  of_decide_eq_true (Bool.and_eq_true_iff.mp h).2

/-- Arithmetic in which signs are as they should be. -/
class Signed (W : Type) [Arith W] : Prop where
  emptySum_nonpos : (emptySum : W) ≤ zero
  emptySum_nonneg : (zero : W) ≤ emptySum
  not_pos_of_nonpos {a : W} : a ≤ zero → ¬ zero < a
  nonneg_of_pos {a : W} : zero < a → zero ≤ a
  beq_zero_of_pos {a : W} : zero < a → (a == zero) = false
  add_nonpos {a b : W} : a ≤ zero → b ≤ zero → a + b ≤ zero
  add_pos {a b : W} : zero ≤ a → zero < b → zero < a + b
  isNumber_of_add {a b : W} : IsNumber (a + b) → IsNumber a ∧ IsNumber b

variable [Signed W]

theorem foldl_add_nonpos {ws : List W} (h : ∀ w ∈ ws, w ≤ zero) :
    ∀ {start : W}, start ≤ zero → ws.foldl (· + ·) start ≤ zero := by
  induction ws with
  | nil => intro _ hs; exact hs
  | cons w ws ih =>
    intro start hs
    obtain ⟨hw, hws⟩ := List.forall_mem_cons.mp h
    exact ih hws (Signed.add_nonpos hs hw)

/-- A total of weights that are not positive is not positive. -/
theorem total_nonpos {ws : List W} (h : ∀ w ∈ ws, w ≤ zero) : total ws ≤ zero :=
  foldl_add_nonpos h Signed.emptySum_nonpos

theorem foldl_add_pos {ws : List W} (h : ∀ w ∈ ws, zero < w) :
    ∀ {start : W}, zero < start → zero < ws.foldl (· + ·) start := by
  induction ws with
  | nil => intro _ hs; exact hs
  | cons w ws ih =>
    intro start hs
    obtain ⟨hw, hws⟩ := List.forall_mem_cons.mp h
    exact ih hws (Signed.add_pos (Signed.nonneg_of_pos hs) hw)

/-- A total of positive weights is positive, if there are any. -/
theorem total_pos {ws : List W} (h : ∀ w ∈ ws, zero < w) (hne : ws ≠ []) : zero < total ws := by
  cases ws with
  | nil => exact absurd rfl hne
  | cons w ws =>
    obtain ⟨hw, hws⟩ := List.forall_mem_cons.mp h
    exact foldl_add_pos hws (Signed.add_pos Signed.emptySum_nonneg hw)

theorem isNumber_of_foldl_add {ws : List W} : ∀ {start : W}, IsNumber (ws.foldl (· + ·) start) →
    IsNumber start ∧ ∀ w ∈ ws, IsNumber w := by
  induction ws with
  | nil => intro _ h; exact ⟨h, fun _ hw => by cases hw⟩
  | cons w ws ih =>
    intro start h
    obtain ⟨hstart, hws⟩ := ih h
    obtain ⟨hs, hw⟩ := Signed.isNumber_of_add hstart
    exact ⟨hs, List.forall_mem_cons.mpr ⟨hw, hws⟩⟩

/-- Only numbers have a total that is a number. -/
theorem isNumber_of_total {ws : List W} (h : IsNumber (total ws)) : ∀ w ∈ ws, IsNumber w :=
  (isNumber_of_foldl_add h).2

/-- A positive total has a summand that counts. -/
theorem exists_of_total_pos {ws : List W} (h : zero < total ws) : ∃ w ∈ ws, ¬ w ≤ zero := by
  refine Classical.byContradiction fun hnone => Signed.not_pos_of_nonpos (total_nonpos fun w hw => ?_) h
  exact Classical.byContradiction fun hpos => hnone ⟨w, hw, hpos⟩

end Arith

/-- Positive weights are a distribution, if their total is finite. -/
theorem Categorical.ofList_positive [Arith.Signed W] {α : Type} {weight : α → W} {as : List α} (hne : as ≠ [])
    (h : ∀ a ∈ as, Arith.zero < weight a) : (∃ c, ofList weight as = .ok c) ∨
      ofList weight as = .error .infiniteTotal ∧ Arith.isFinite (Arith.total (as.map weight)) = false := by
  have hvalid : (as.any fun a => !decide (Arith.zero ≤ weight a)) = false := by
    rw [List.any_eq_false]
    intro a ha
    simp [Arith.Signed.nonneg_of_pos (h a ha)]
  have hzero : (Arith.total (as.map weight) == Arith.zero) = false := by
    refine Arith.Signed.beq_zero_of_pos (Arith.total_pos (fun w hw => ?_) (by simpa using hne))
    obtain ⟨a, ha, rfl⟩ := List.mem_map.mp hw
    exact h a ha
  cases hfinite : Arith.isFinite (Arith.total (as.map weight)) with
  | true =>
    left
    simp only [ofList, dif_neg hne, hvalid, hzero, hfinite]
    exact ⟨_, rfl⟩
  | false =>
    right
    simp only [ofList, dif_neg hne, hvalid, hzero, hfinite]
    exact ⟨rfl, trivial⟩

end ScopedGrammar

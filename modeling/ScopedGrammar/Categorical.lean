import ScopedGrammar.Draw
import ScopedGrammar.Error

/-!
# Choice among weighted alternatives

Alternatives with weights are a distribution if there is one at all, no weight is negative or undefined, and the total
is positive and finite (`Categorical.ofList`). A draw is scaled to the total, and picks the alternative in whose part of
the total it lies: part `i` reaches from the total of the weights before `i` up to, but not including, the total with
`i` (`Categorical.index`).
-/

namespace ScopedGrammar

/-- Alternatives whose weights form a distribution. -/
structure Categorical (α W : Type) where
  alternatives : List α
  weight : α → W
  total : W
  nonempty : alternatives ≠ []

namespace Categorical

variable {α W : Type} [Arith W]

/-- The distribution over a list of alternatives. Faults are reported in the order of the checks. -/
def ofList (weight : α → W) (alternatives : List α) : Except (Failure W) (Categorical α W) :=
  let total := Arith.total (alternatives.map weight)
  if nonempty : alternatives = [] then .error (.error (.sampling .noWeights))
  else if alternatives.any fun a => !decide (Arith.zero ≤ weight a) then .error (.error (.sampling .invalidWeight))
  else if total == Arith.zero then .error (.error (.sampling .allZero))
  else if !Arith.isFinite total then .error .infiniteTotal
  else .ok { alternatives, weight, total, nonempty }

/-- The totals of the first weight, the first two and so on, each added to `start`. -/
def runningTotals (start : W) : List W → List W
  | [] => []
  | w :: ws => (start + w) :: runningTotals (start + w) ws

theorem length_runningTotals (start : W) (ws : List W) : (runningTotals start ws).length = ws.length := by
  induction ws generalizing start with
  | nil => rfl
  | cons w ws ih => simp [runningTotals, ih]

/-- The bounds between the parts of the total: all running totals but the last. -/
def bounds (c : Categorical α W) : List W :=
  (runningTotals Arith.emptySum (c.alternatives.map c.weight)).dropLast

/-- There is one part more than there are bounds. -/
theorem length_bounds (c : Categorical α W) : c.bounds.length + 1 = c.alternatives.length := by
  have := List.length_pos_iff.mpr c.nonempty
  simp only [bounds, List.length_dropLast, length_runningTotals, List.length_map]
  omega

/-- The alternative that a draw picks: the number of bounds that the scaled draw has reached. -/
def index (c : Categorical α W) (d : Draw W) : Fin c.alternatives.length :=
  let point := d.categorical * Arith.drawScale c.total
  ⟨c.bounds.countP fun bound => decide (bound ≤ point), by
    have := List.countP_le_length (l := c.bounds) (p := fun bound => decide (bound ≤ point))
    have := c.length_bounds
    omega⟩

/-- The log-probability of an alternative. -/
def logProb (c : Categorical α W) (i : Fin c.alternatives.length) : W :=
  Arith.logShare (c.weight c.alternatives[i]) c.total

/-- Picks one of several weights with the next draw: its index and log-probability. -/
def sample (weights : List W) (draws : List (Draw W)) : Except (Failure W) (Nat × W) × List (Draw W) :=
  match ofList id weights, draws with
  | .error e, draws => (.error e, draws)
  | .ok _, [] => (.error .noDraw, [])
  | .ok c, d :: rest => (.ok (c.index d, c.logProb (c.index d)), rest)

end Categorical

end ScopedGrammar

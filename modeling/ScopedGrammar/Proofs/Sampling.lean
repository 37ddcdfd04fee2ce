import Mathlib
import ScopedGrammar.Proofs.Drawing
import ScopedGrammar.Proofs.Exact

/-!
# The probability of a tree

With exact weights, a unit draw picks the alternative in whose part of the total it lies (`Categorical.index_eq_iff`).
So the draws that pick a rule are a half-open interval, which is as long as the share of the rule in the total weight
(`exists_picking_eq`). The draws for which generation makes a given tree are a box with a side for every node
(`DerivesNode.drawsOf_eq`), and its volume is the probability that the tree records (`generateIn_exact`).

- `picking` are the draws that pick a rule from a list;
- `Grammar.drawsOf` are the sequences of draws that make a tree.
-/

namespace ScopedGrammar

/-- A draw that is a real number. -/
noncomputable def Draw.ofUnit (u : ℝ) : Draw EReal := ⟨u, u⟩

/-! ## Parts of a total -/

namespace Categorical

theorem le_of_mem_runningTotals {x : EReal} : ∀ {ws : List EReal} {start : EReal}, (∀ w ∈ ws, 0 ≤ w) →
    x ∈ runningTotals start ws → start ≤ x
  | [], _, _, h => by cases h
  | w :: ws, start, hws, h => by
    have hle : start ≤ start + w := le_add_of_nonneg_right (hws w List.mem_cons_self)
    rcases List.mem_cons.mp h with rfl | h
    · exact hle
    · exact hle.trans (le_of_mem_runningTotals (fun w hw => hws w (List.mem_cons_of_mem _ hw)) h)

/-- The number of bounds up to a point is the number of weights whose total has been reached there. -/
theorem countP_runningTotals {x : EReal} : ∀ {ws : List EReal} {start : EReal}, (∀ w ∈ ws, 0 ≤ w) → start ≤ x →
    x < start + ws.sum → ∀ i, (runningTotals start ws).dropLast.countP (fun bound => decide (bound ≤ x)) = i →
      start + (ws.take i).sum ≤ x ∧ x < start + (ws.take (i + 1)).sum
  | [], start, _, hle, hlt, _, _ => by
    rw [List.sum_nil, add_zero] at hlt
    exact absurd hle (not_le.mpr hlt)
  | [w], start, _, hle, hlt, i, hi => by
    obtain rfl : 0 = i := hi
    exact ⟨by simpa using hle, hlt⟩
  | w :: w' :: ws, start, hws, hle, hlt, i, hi => by
    have hws' : ∀ v ∈ w' :: ws, 0 ≤ v := fun v hv => hws v (List.mem_cons_of_mem _ hv)
    have hbounds : (runningTotals start (w :: w' :: ws)).dropLast =
        (start + w) :: (runningTotals (start + w) (w' :: ws)).dropLast := rfl
    rw [hbounds] at hi
    by_cases hw : start + w ≤ x
    · rw [List.countP_cons_of_pos (by simpa using hw)] at hi
      obtain ⟨j, rfl⟩ : ∃ j, i = j + 1 := ⟨_, hi.symm⟩
      rw [List.sum_cons, ← add_assoc] at hlt
      have ih := countP_runningTotals hws' hw hlt j (Nat.succ_injective hi)
      simpa [List.take_succ_cons, add_assoc] using ih
    · -- no later bound has been reached either
      have hnone : (runningTotals (start + w) (w' :: ws)).dropLast.countP (fun bound => decide (bound ≤ x)) = 0 := by
        rw [List.countP_eq_zero]
        intro y hy
        have hy' := le_of_mem_runningTotals hws' ((List.dropLast_sublist _).subset hy)
        simpa using lt_of_lt_of_le (not_le.mp hw) hy'
      rw [List.countP_cons_of_neg (by simpa using hw), hnone] at hi
      obtain rfl := hi
      simpa using ⟨hle, not_le.mp hw⟩

theorem sum_take_le {ws : List EReal} (hws : ∀ w ∈ ws, 0 ≤ w) {i j : ℕ} (h : i ≤ j) :
    (ws.take i).sum ≤ (ws.take j).sum := by
  have hsplit : ws.take j = ws.take i ++ (ws.drop i).take (j - i) := by
    rw [← List.take_add, Nat.add_sub_cancel' h]
  rw [hsplit, List.sum_append]
  exact le_add_of_nonneg_right (List.sum_nonneg fun w hw => hws w (List.mem_of_mem_drop (List.mem_of_mem_take hw)))

/-- A point lies in one part only. -/
theorem eq_of_between {ws : List EReal} (hws : ∀ w ∈ ws, 0 ≤ w) {x : EReal} {i j : ℕ}
    (hi : (ws.take i).sum ≤ x ∧ x < (ws.take (i + 1)).sum) (hj : (ws.take j).sum ≤ x ∧ x < (ws.take (j + 1)).sum) :
    i = j := by
  rcases Nat.lt_trichotomy i j with h | h | h
  · exact absurd ((sum_take_le hws h).trans hj.1) (not_le.mpr hi.2)
  · exact h
  · exact absurd ((sum_take_le hws h).trans hi.1) (not_le.mpr hj.2)

/-- **A draw picks the alternative in whose part of the total it lies.** -/
theorem index_eq_iff {α : Type} {c : Categorical α EReal} (hc : ∀ a ∈ c.alternatives, 0 ≤ c.weight a) {u total : ℝ}
    (htotal : c.total = total) (hsum : (c.alternatives.map c.weight).sum = total) (hpos : 0 < total) (hu : 0 ≤ u)
    (hu' : u < 1) (i : Fin c.alternatives.length) : c.index (Draw.ofUnit u) = i ↔
      ((c.alternatives.map c.weight).take i).sum ≤ ((u * total : ℝ) : EReal) ∧
        ((u * total : ℝ) : EReal) < ((c.alternatives.map c.weight).take (i + 1)).sum := by
  have hws : ∀ w ∈ c.alternatives.map c.weight, 0 ≤ w := by
    intro w hw
    obtain ⟨a, ha, rfl⟩ := List.mem_map.mp hw
    exact hc a ha
  have hpoint : (Draw.ofUnit u).categorical * Arith.drawScale c.total = ((u * total : ℝ) : EReal) := by
    rw [htotal, EReal.coe_mul]
    rfl
  have hlt : ((u * total : ℝ) : EReal) < 0 + (c.alternatives.map c.weight).sum := by
    rw [zero_add, hsum]
    exact EReal.coe_lt_coe_iff.mpr (by nlinarith)
  have hindex := countP_runningTotals hws (EReal.coe_nonneg.mpr (by positivity)) hlt (c.index (Draw.ofUnit u)).val
    (by rw [← hpoint]; rfl)
  simp only [zero_add] at hindex
  exact ⟨fun h => h ▸ hindex, fun h => Fin.ext (eq_of_between hws hindex h)⟩

end Categorical

/-! ## The draws that pick a rule -/

/-- The draws that pick the rule with some id: scaled to the total weight, they have reached the total of the rules
before it, but not yet the total with the rule itself. -/
def picking (rules : List (Rule EReal)) (id : Int) : Set ℝ :=
  {u | ∃ i : Fin rules.length, rules[i].id = id ∧
    Arith.total ((rules.take i).map (·.weight)) ≤ u * Arith.total (rules.map (·.weight)) ∧
      u * Arith.total (rules.map (·.weight)) < Arith.total ((rules.take (i + 1)).map (·.weight))}

section

variable {rules : List (Rule EReal)}

theorem nonneg_of_mem_map (hpos : ∀ r ∈ rules, Arith.isPositive r.weight = true) :
    ∀ w ∈ rules.map (·.weight), 0 ≤ w := by
  intro w hw
  obtain ⟨x, hx, rfl⟩ := Arith.exists_of_mem_map hpos w hw
  exact EReal.coe_nonneg.mpr hx.le

/-- A draw picks a rule in the sense of the distribution if it is among those that pick it. -/
theorem mem_picking_iff (hpos : ∀ r ∈ rules, Arith.isPositive r.weight = true) (hne : rules ≠ []) {u : ℝ}
    (hu : u ∈ Set.Ico (0 : ℝ) 1) (id : Int) : u ∈ picking rules id ↔
      ∃ c, Categorical.ofList (·.weight) rules = .ok c ∧ (c.alternatives.get (c.index (Draw.ofUnit u))).id = id := by
  have hweights := Arith.exists_of_mem_map hpos
  obtain ⟨c, hc⟩ := Categorical.exists_ofList_eq_ok hne fun r hr => Arith.isPositive_iff.mp (hpos r hr)
  obtain ⟨total, htotal, ht⟩ := Arith.exists_total_of_pos hweights (by simpa using hne)
  obtain ⟨rfl, hw, hct⟩ := Categorical.ofList_eq_ok hc
  have hnonneg : ∀ r ∈ c.alternatives, 0 ≤ c.weight r := by
    intro r hr
    rw [hw]
    exact nonneg_of_mem_map hpos _ (List.mem_map_of_mem hr)
  have hindex := Categorical.index_eq_iff hnonneg (hct.trans htotal)
    (by rw [hw, ← Arith.total_eq_sum, htotal]) ht hu.1 hu.2
  simp only [hw, ← List.map_take, ← Arith.total_eq_sum, EReal.coe_mul] at hindex
  constructor
  · rintro ⟨i, hid, hbounds⟩
    rw [htotal] at hbounds
    refine ⟨c, hc, ?_⟩
    rw [(hindex i).mpr hbounds]
    exact hid
  · rintro ⟨c', hc', hid⟩
    obtain rfl : c = c' := Except.ok.inj (hc.symm.trans hc')
    refine ⟨c.index (Draw.ofUnit u), hid, ?_⟩
    rw [htotal]
    exact (hindex _).mp rfl

/-- The total of the rules before one of them, its weight and the total of all are real numbers. -/
theorem exists_totals (hpos : ∀ r ∈ rules, Arith.isPositive r.weight = true) {i : ℕ} (hi : i < rules.length) :
    ∃ before weight total : ℝ, 0 ≤ before ∧ 0 < weight ∧ before + weight ≤ total ∧
      Arith.total ((rules.take i).map (·.weight)) = before ∧ rules[i].weight = weight ∧
      Arith.total ((rules.take (i + 1)).map (·.weight)) = ((before + weight : ℝ) : EReal) ∧
      Arith.total (rules.map (·.weight)) = total := by
  have hweights : ∀ w ∈ rules.map (·.weight), ∃ x : ℝ, 0 < x ∧ w = (x : EReal) := Arith.exists_of_mem_map hpos
  obtain ⟨before, weight, total, hbefore₀, _, hle, hbefore, hweight, hnext, htotal⟩ :=
    Arith.exists_parts (fun w hw => (hweights w hw).imp fun _ ⟨hx, he⟩ => ⟨hx.le, he⟩)
      (show i < (rules.map (·.weight)).length by simpa using hi)
  rw [List.getElem_map] at hweight
  rw [← List.map_take] at hbefore hnext
  have hpositive : 0 < weight := by
    obtain ⟨x, hx, he⟩ := hweights _ (List.mem_map_of_mem (List.getElem_mem hi))
    rwa [EReal.coe_eq_coe_iff.mp (hweight.symm.trans he)]
  exact ⟨before, weight, total, hbefore₀, hpositive, hle, hbefore, hweight, hnext, htotal⟩

/-- **The draws that pick a rule are an interval as long as its share in the total weight.** -/
theorem exists_picking_eq (hpos : ∀ r ∈ rules, Arith.isPositive r.weight = true) (hnodup : (rules.map (·.id)).Nodup)
    {r : Rule EReal} (hr : r ∈ rules) : ∃ lo hi : ℝ, 0 ≤ lo ∧ lo < hi ∧ hi ≤ 1 ∧ picking rules r.id = Set.Ico lo hi ∧
      ((hi - lo : ℝ) : EReal) = r.weight / Arith.total (rules.map (·.weight)) := by
  obtain ⟨i, hi, rfl⟩ := List.getElem_of_mem hr
  obtain ⟨a, w, total, ha₀, hw, hle, ha, hwi, hnext, htotal⟩ := exists_totals hpos hi
  have ht : 0 < total := by linarith
  have hscaled : ∀ u : ℝ, (u : EReal) * (total : EReal) = ((u * total : ℝ) : EReal) := fun u =>
    (EReal.coe_mul _ _).symm
  refine ⟨a / total, (a + w) / total, by positivity, by gcongr; linarith, (div_le_one ht).mpr hle, ?_, ?_⟩
  · ext u
    constructor
    · rintro ⟨j, hid, hreached, hleft⟩
      -- no other rule has the id
      have hrule : rules[j] = rules[i] := List.inj_on_of_nodup_map hnodup (List.getElem_mem _) hr hid
      have hj : (j : ℕ) = i := hnodup.of_map.getElem_inj_iff.mp hrule
      simp only [hj] at hreached hleft
      rw [ha, htotal, hscaled, EReal.coe_le_coe_iff] at hreached
      rw [hnext, htotal, hscaled, EReal.coe_lt_coe_iff] at hleft
      exact ⟨(div_le_iff₀ ht).mpr hreached, (lt_div_iff₀ ht).mpr hleft⟩
    · rintro ⟨hlo, hhi⟩
      refine ⟨⟨i, hi⟩, rfl, ?_, ?_⟩
      · rw [ha, htotal, hscaled, EReal.coe_le_coe_iff]
        exact (div_le_iff₀ ht).mp hlo
      · rw [hnext, htotal, hscaled, EReal.coe_lt_coe_iff]
        exact (lt_div_iff₀ ht).mp hhi
  · rw [← sub_div, add_sub_cancel_left, EReal.coe_div, hwi, htotal]

end

/-! ## The draws that make a tree -/

theorem forall₂_ofFn {α β : Type} {R : α → β → Prop} {bs : List β} {f : Fin bs.length → α} :
    List.Forall₂ R (List.ofFn f) bs ↔ ∀ i, R (f i) bs[i] := by
  rw [List.forall₂_iff_get]
  constructor
  · intro h i
    simpa using h.2 i (by simp) i.isLt
  · intro h
    exact ⟨by simp, fun i _ hi => by simpa using h ⟨i, hi⟩⟩

theorem sum_log {ι : Type} (s : Finset ι) (f : ι → ENNReal) :
    ∑ i ∈ s, ENNReal.log (f i) = ENNReal.log (∏ i ∈ s, f i) := by
  classical
  induction s using Finset.induction_on with
  | empty => simp
  | insert i s hi ih => rw [Finset.sum_insert hi, Finset.prod_insert hi, ENNReal.log_mul_add, ih]

namespace Grammar

open MeasureTheory

/-- The draws from the unit interval, one for every node of a tree, for which generation makes the tree when others
follow. -/
def drawsOf (g : Grammar EReal) (s : String) (depth : ℕ) (scope : Scope EReal) (t : Node EReal)
    (more : List (Draw EReal)) : Set (Fin t.places.length → ℝ) :=
  {u | (∀ i, u i ∈ Set.Ico (0 : ℝ) 1) ∧
    (g.generateIn s depth scope ((List.ofFn u).map Draw.ofUnit ++ more)).result = .ok t}

variable {g : Grammar EReal} {s : String} {depth : ℕ} {scope : Scope EReal} {t : Node EReal} {p : Place EReal}

/-- The weights that are visible at a place of a derivation are positive. -/
theorem isPositive_of_visibleAt (hg : g.WellStored) (hw : Arith.isPositive g.config.weight = true)
    (hscope : g.Stocks scope) (ht : g.DerivesNode scope.rules depth s t) (hp : p ∈ t.places) :
    ∀ r ∈ g.visibleAt scope.rules p, Arith.isPositive r.weight = true := by
  refine fun r hr => isPositive_of_visible hg hw (fun b hb => ?_) hr
  rcases List.mem_append.mp hb with hb | hb
  · exact hscope.isVariable b hb
  · exact ht.isVariable hg hp hb

/-- At a place of a derivation, the draws that pick the rule there are those of `picking`. -/
theorem chooses_iff (hg : g.WellStored) (hw : Arith.isPositive g.config.weight = true) (hscope : g.Stocks scope)
    (ht : g.DerivesNode scope.rules depth s t) (hp : p ∈ t.places) {u : ℝ} (hu : u ∈ Set.Ico (0 : ℝ) 1) :
    g.Chooses scope.rules (Draw.ofUnit u) p ↔ u ∈ picking (g.visibleAt scope.rules p) p.node.label.ruleId := by
  obtain ⟨r, hr, _⟩ := ht.exists_visibleAt hg hp
  exact (mem_picking_iff (isPositive_of_visibleAt hg hw hscope ht hp) (List.ne_nil_of_mem hr) hu _).symm

/-- A tree that is generated has used one draw a node, and each of them picks the rule of its node. -/
theorem generateIn_picking (hg : g.WellStored) (hw : Arith.isPositive g.config.weight = true) (hscope : g.Stocks scope)
    {us : List ℝ} (hus : ∀ u ∈ us, u ∈ Set.Ico (0 : ℝ) 1)
    (h : (g.generateIn s depth scope (us.map Draw.ofUnit)).result = .ok t) : ∃ used rest, us = used ++ rest ∧
      used.length = t.size ∧ (g.generateIn s depth scope (us.map Draw.ofUnit)).draws = rest.map Draw.ofUnit ∧
        List.Forall₂ (fun u p => u ∈ picking (g.visibleAt scope.rules p) p.node.label.ruleId) used t.places := by
  have ht := generateIn_derives h
  obtain ⟨ds, hds, hpicks⟩ := generateIn_picks hg h
  obtain ⟨used, rest, rfl, rfl, hrest⟩ := List.map_eq_append_iff.mp hds
  rw [List.forall₂_map_left_iff] at hpicks
  refine ⟨used, rest, rfl, by rw [hpicks.length_eq, Node.length_places], hrest.symm, ?_⟩
  rw [List.forall₂_iff_get] at hpicks ⊢
  refine ⟨hpicks.1, fun i h₁ h₂ => ?_⟩
  exact (chooses_iff hg hw hscope ht (List.get_mem _ _) (hus _ (List.mem_append_left _ (List.get_mem _ _)))).mp
    (hpicks.2 i h₁ h₂).chooses

/-- The draws for a place of a derivation are an interval. Its length is the share of the rule there, and its logarithm
is what the node records. -/
theorem DerivesNode.exists_interval (hg : g.WellStored) (hw : Arith.isPositive g.config.weight = true)
    (hscope : g.Stocks scope) (ht : g.DerivesNode scope.rules depth s t)
    (hids : t.variableIds = numbersBelow scope.lowest t.variableIds.length) (hp : p ∈ t.places) :
    ∃ lo hi : ℝ, 0 ≤ lo ∧ lo < hi ∧ hi ≤ 1 ∧
      picking (g.visibleAt scope.rules p) p.node.label.ruleId = Set.Ico lo hi ∧
      (∃ r ∈ g.visibleAt scope.rules p, r.id = p.node.label.ruleId ∧
        ((hi - lo : ℝ) : EReal) = r.weight / Arith.total ((g.visibleAt scope.rules p).map (·.weight))) ∧
      p.node.label.logProb = ENNReal.log (ENNReal.ofReal (hi - lo)) := by
  obtain ⟨r, hr, hid, hlog⟩ := ht.exists_visibleAt hg hp
  have hpos := isPositive_of_visibleAt hg hw hscope ht hp
  have hnodup := hg.nodup_visible (variablesFrom_of_place hscope.variablesFrom hids hp) p.node.label.nonterminal
  obtain ⟨lo, hi, hlo, hlt, hhi, hpick, hshare⟩ := exists_picking_eq hpos hnodup hr
  refine ⟨lo, hi, hlo, hlt, hhi, hid ▸ hpick, ⟨r, hr, hid, hshare⟩, ?_⟩
  obtain ⟨total, htotal, ht⟩ := Arith.exists_total_of_pos (Arith.exists_of_mem_map hpos)
    (List.ne_nil_of_mem (List.mem_map_of_mem hr))
  obtain ⟨w, hw, hwr⟩ := Arith.isPositive_iff.mp (hpos r hr)
  have hlength : hi - lo = w / total := by
    rw [htotal, hwr, ← EReal.coe_div, EReal.coe_eq_coe_iff] at hshare
    exact hshare
  rw [hlog, htotal, hwr, Arith.logShare_coe hw ht, hlength, ENNReal.log_ofReal_of_pos (by positivity)]

/-- The draws that make a derivation are a box. -/
theorem DerivesNode.drawsOf_eq (hg : g.WellStored) (hw : Arith.isPositive g.config.weight = true)
    (hscope : g.Stocks scope) (ht : g.DerivesNode scope.rules depth s t)
    (hids : t.variableIds = numbersBelow scope.lowest t.variableIds.length) {lo hi : Fin t.places.length → ℝ}
    (hlo : ∀ i, 0 ≤ lo i) (hhi : ∀ i, hi i ≤ 1)
    (hpick : ∀ i, picking (g.visibleAt scope.rules t.places[i]) t.places[i].node.label.ruleId = Set.Ico (lo i) (hi i))
    (more : List (Draw EReal)) :
    g.drawsOf s depth scope t more = Set.univ.pi fun i => Set.Ico (lo i) (hi i) := by
  ext u
  have hmakes : (g.generateIn s depth scope ((List.ofFn u).map Draw.ofUnit ++ more)).result = .ok t ↔
      ∀ i, g.Chooses scope.rules (Draw.ofUnit (u i)) t.places[i] := by
    have hpicks : ∀ i : Fin t.places.length, g.PicksIndex scope.rules depth (Draw.ofUnit (u i)) t.places[i] ↔
        g.Chooses scope.rules (Draw.ofUnit (u i)) t.places[i] := fun i =>
      picksIndex_iff hg ht (List.getElem_mem _) (variablesFrom_of_place hscope.variablesFrom hids (List.getElem_mem _))
    have hcountdown : t.variableIds = countdown scope.lowest t.variableIds.length :=
      hids.trans (numbersBelow_eq_countdown (hids ▸ ht.leastId_le hg))
    rw [generateIn_eq_ok_iff hg, List.map_ofFn]
    simp only [← hpicks]
    rw [← forall₂_ofFn]
    constructor
    · rintro ⟨-, -, used, rest, heq, hused⟩
      obtain ⟨rfl, -⟩ := List.append_inj heq (by simpa using hused.length_eq.symm)
      exact hused
    · exact fun hused => ⟨ht, hcountdown, _, more, rfl, hused⟩
  rw [Set.mem_univ_pi]
  constructor
  · rintro ⟨hu, hmade⟩ i
    rw [← hpick i]
    exact (chooses_iff hg hw hscope ht (List.getElem_mem _) (hu i)).mp (hmakes.mp hmade i)
  · intro hu
    have hunit : ∀ i, u i ∈ Set.Ico (0 : ℝ) 1 := fun i => Set.Ico_subset_Ico (hlo i) (hhi i) (hu i)
    refine ⟨hunit, hmakes.mpr fun i => ?_⟩
    refine (chooses_iff hg hw hscope ht (List.getElem_mem _) (hunit i)).mpr ?_
    exact hpick i ▸ hu i

/-- The log-probability of a tree is the logarithm of the product, if its nodes record the logarithms of the factors. -/
theorem logProbability_eq_log_prod {f : Fin t.places.length → ENNReal}
    (hf : ∀ i, t.places[i].node.label.logProb = ENNReal.log (f i)) : t.logProbability = ENNReal.log (∏ i, f i) := by
  have hplaces : t.nodes.map (·.label.logProb) = t.places.map (·.node.label.logProb) := by
    rw [← t.map_node_places, List.map_map]
    rfl
  rw [Node.logProbability, Arith.total_eq_sum, hplaces, ← Fin.sum_univ_fun_getElem, ← sum_log]
  exact Finset.sum_congr rfl fun i _ => hf i

/-- **Generation draws a tree with exactly the probability that it records.** It uses one draw a node, and each draw
picks the rule of its node. For a derivation with variables numbered on from the scope, with the numbers below its lowest
id, the draws that make it are a box with a side for every node, as long as the share of its rule in the weight that is
visible there. -/
theorem generateIn_exact (hg : g.Built) (hw : Arith.isPositive g.config.weight = true) (hscope : g.Stocks scope)
    (s : String) (depth : ℕ) :
    (∀ us t, (∀ u ∈ us, u ∈ Set.Ico (0 : ℝ) 1) →
      (g.generateIn s depth scope (us.map Draw.ofUnit)).result = .ok t →
        (∃ used rest, us = used ++ rest ∧ used.length = t.size ∧
          (g.generateIn s depth scope (us.map Draw.ofUnit)).draws = rest.map Draw.ofUnit ∧
          List.Forall₂ (fun u p => u ∈ picking (g.visibleAt scope.rules p) p.node.label.ruleId) used t.places) ∧
        g.DerivesNode scope.rules depth s t ∧ t.variableIds = countdown scope.lowest t.variableIds.length) ∧
    ∀ t, g.DerivesNode scope.rules depth s t → t.variableIds = numbersBelow scope.lowest t.variableIds.length →
      ∃ lo hi : Fin t.places.length → ℝ,
        (∀ i, 0 ≤ lo i ∧ lo i < hi i ∧ hi i ≤ 1 ∧
          ∃ r ∈ g.visibleAt scope.rules t.places[i], r.id = t.places[i].node.label.ruleId ∧
            ((hi i - lo i : ℝ) : EReal) =
              r.weight / Arith.total ((g.visibleAt scope.rules t.places[i]).map (·.weight))) ∧
        ∀ more, g.drawsOf s depth scope t more = (Set.univ.pi fun i => Set.Ico (lo i) (hi i)) ∧
          (g.drawsOf s depth scope t more).Nonempty ∧
          volume (g.drawsOf s depth scope t more) = ∏ i, ENNReal.ofReal (hi i - lo i) ∧
          t.logProbability = ENNReal.log (volume (g.drawsOf s depth scope t more)) := by
  have hs := hg.wellStored
  refine ⟨fun us t hus h => ?_, fun t ht hids => ?_⟩
  · exact ⟨generateIn_picking hs hw hscope hus h, generateIn_derives h, (generateIn_numbered h).1⟩
  · choose lo hi hlo hlt hhi hpick hshare hlog using fun i : Fin t.places.length =>
      ht.exists_interval hs hw hscope hids (List.getElem_mem i.isLt)
    refine ⟨lo, hi, fun i => ⟨hlo i, hlt i, hhi i, hshare i⟩, fun more => ?_⟩
    have hbox := ht.drawsOf_eq hs hw hscope hids hlo hhi hpick more
    have hvolume : volume (g.drawsOf s depth scope t more) = ∏ i, ENNReal.ofReal (hi i - lo i) := by
      rw [hbox, Real.volume_pi_Ico]
    refine ⟨hbox, ?_, hvolume, ?_⟩
    · rw [hbox, Set.univ_pi_nonempty_iff]
      exact fun i => Set.nonempty_Ico.mpr (hlt i)
    · rw [hvolume]
      exact logProbability_eq_log_prod hlog

/-! ## A variable under a binder -/

/-- Abstraction over a variable. -/
noncomputable def lambda : Rule EReal := ⟨⟨"EXPR", "lambda", .symbol "EXPR" .nil, 1, 1, ["EXPR"]⟩, 0⟩

/-- A constant. -/
noncomputable def unit : Rule EReal := ⟨⟨"EXPR", "unit", .nil, 1, 1, []⟩, 1⟩

/-- The grammar of abstraction and a constant, with equal weights. -/
noncomputable def binders : Grammar EReal := ⟨[("EXPR", [lambda, unit])], 2, ⟨1, 1, "y"⟩⟩

theorem built_binders : binders.Built := by
  have hl : lambda.toProduction.validate = .ok () :=
    Production.validate_eq_ok_iff.mpr ⟨by decide, Arith.isPositive_one, Arith.isNonnegative_one⟩
  have hu : unit.toProduction.validate = .ok () :=
    Production.validate_eq_ok_iff.mpr ⟨by decide, Arith.isPositive_one, Arith.isNonnegative_one⟩
  exact ((Built.empty ⟨1, 1, "y"⟩).add (add_of_validate hl)).add (add_of_validate hu)

/-- A scope with one variable. -/
noncomputable def outer : Scope EReal := binders.bindVariable Scope.empty "EXPR" 0

/-- The variable that an abstraction binds in that scope. -/
noncomputable def inner : Rule EReal := binders.variableRule "EXPR" 1 (-2)

/-- The abstraction of its own variable. -/
noncomputable def identity : Node EReal :=
  Node.ofRule lambda
    (Node.ofRule inner .nil (Arith.logShare 1 (binders.visibleTotal (outer.rules ++ [inner]) "EXPR")) [] 1).alone
    (Arith.logShare 1 (binders.visibleTotal outer.rules "EXPR")) [inner] 0

theorem identity_derives : binders.DerivesNode outer.rules 0 "EXPR" identity := by
  refine ⟨lambda, ⟨?_, rfl, rfl, rfl, rfl, rfl, ⟨-1, rfl⟩, rfl⟩, ?_⟩
  · exact List.mem_cons_self
  · refine Derives.node (r := inner) ?_ ⟨?_, rfl, rfl, rfl, rfl, rfl, ⟨0, rfl⟩, rfl⟩ .nil .nil
    · decide
    · show inner ∈ [lambda, unit, _, inner]
      simp

/-- Among equal weights, all have the same share. -/
theorem share_of_replicate {rules : List (Rule EReal)} {n : ℕ} (h : rules.map (·.weight) = List.replicate n 1)
    {r : Rule EReal} (hr : r ∈ rules) :
    r.weight / Arith.total (rules.map (·.weight)) = ((1 / n : ℝ) : EReal) := by
  have hone : r.weight = ((1 : ℝ) : EReal) := List.eq_of_mem_replicate (h ▸ List.mem_map_of_mem hr)
  have htotal : Arith.total (rules.map (·.weight)) = ((n : ℝ) : EReal) := by
    rw [h, Arith.total_eq_sum, List.sum_replicate, nsmul_one]
    rfl
  rw [hone, htotal, EReal.coe_div]

/-- The abstraction has the share of one of three equal weights, and its variable that of one of four. -/
theorem identity_sampled : ∃ us : List ℝ, us.length = 2 ∧ (∀ u ∈ us, u ∈ Set.Ico (0 : ℝ) 1) ∧
    (binders.generateIn "EXPR" 0 outer (us.map Draw.ofUnit)).result = .ok identity ∧
    (binders.generateIn "EXPR" 0 outer (us.map Draw.ofUnit)).draws = [] ∧
    volume (binders.drawsOf "EXPR" 0 outer identity []) = ENNReal.ofReal (1 / 3) * ENNReal.ofReal (1 / 4) := by
  obtain ⟨hmade, hall⟩ :=
    generateIn_exact built_binders Arith.isPositive_one (.bind "EXPR" 0 .empty (by decide)) "EXPR" 0
  obtain ⟨lo, hi, hsides, hdraws⟩ := hall identity identity_derives rfl
  obtain ⟨_, ⟨u, hu, hresult⟩, hvolume, _⟩ := hdraws []
  rw [List.append_nil] at hresult
  have hunit : ∀ x ∈ List.ofFn u, x ∈ Set.Ico (0 : ℝ) 1 := by
    intro x hx
    obtain ⟨i, rfl⟩ := List.mem_ofFn.mp hx
    exact hu i
  obtain ⟨⟨used, rest, hus, hused, hleft, _⟩, _⟩ := hmade _ _ hunit hresult
  obtain rfl : rest = [] := by
    have hlength := congrArg List.length hus
    rw [List.length_ofFn, Node.length_places, List.length_append, hused] at hlength
    exact List.length_eq_zero_iff.mp (by omega)
  refine ⟨List.ofFn u, List.length_ofFn, hunit, hresult, hleft, ?_⟩
  have hside : ∀ (i : Fin 2) (n : ℕ), (binders.visibleAt outer.rules (identity.places.get i)).map (·.weight) =
      List.replicate n 1 → hi i - lo i = 1 / n := by
    intro i n hweights
    obtain ⟨_, _, _, r, hr, _, hlength⟩ := hsides i
    exact EReal.coe_eq_coe_iff.mp (hlength.trans (share_of_replicate hweights hr))
  -- three rules are visible at the abstraction, and four at the variable
  have hproduct := Fin.prod_univ_two fun i : Fin 2 => ENNReal.ofReal (hi i - lo i)
  rw [hside 0 3 rfl, hside 1 4 rfl] at hproduct
  exact hvolume.trans hproduct

end Grammar

end ScopedGrammar

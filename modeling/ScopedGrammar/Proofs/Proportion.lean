import Mathlib
import ScopedGrammar.Proofs.Sampling
import ScopedGrammar.Proofs.Selectable

/-!
# The probability that a node is selected

With exact weights that are not negative, the weights of the accepted places divide the interval up to their total into
parts, one after another. A unit draw is scaled to the total, and the search stops in the part where the point lies
(`searchVisit_eq_ok`), so it never has to fall back. A point lies in one part only, and in none that has no length.
Hence the draws that select a place are a half-open interval, which is as long as the share of the place's weight in the
total (`Node.select_proportional`).
-/

namespace ScopedGrammar

/-- A search stops at the visit in whose part of the total the point lies. The induction is on the visits, with the
total of those before them in `running`. -/
theorem searchVisit_eq_ok {point : EReal} : ∀ {visits : List (Visit EReal)} {running : EReal} (last : Option Nat),
    (∀ v ∈ visits, 0 ≤ v.weight) → running ≤ point → point < running + (visits.map Visit.weight).sum →
      ∃ i, ∃ h : i < visits.length, searchVisit point running last visits = .ok visits[i] ∧
        running + ((visits.map Visit.weight).take i).sum ≤ point ∧
        point < running + ((visits.map Visit.weight).take (i + 1)).sum
  | [], running, _, _, hle, hlt => by
    rw [List.map_nil, List.sum_nil, add_zero] at hlt
    exact absurd hle (not_le.mpr hlt)
  | v :: rest, running, last, hpos, hle, hlt => by
    obtain ⟨hv, hrest⟩ := List.forall_mem_cons.mp hpos
    rw [List.map_cons, List.sum_cons, ← add_assoc] at hlt
    have hcons : ∀ i, running + (((v :: rest).map Visit.weight).take (i + 1)).sum =
        running + v.weight + ((rest.map Visit.weight).take i).sum := fun i => by
      rw [List.map_cons, List.take_succ_cons, List.sum_cons, ← add_assoc]
    unfold searchVisit
    split
    · rename_i hzero
      have hsame : running + v.weight = running := by rw [le_antisymm hzero hv]; exact add_zero _
      rw [hsame] at hlt
      obtain ⟨i, hi, hs, hlo, hhi⟩ := searchVisit_eq_ok last hrest hle hlt
      exact ⟨i + 1, Nat.succ_lt_succ hi, hs, by rwa [hcons, hsame], by rwa [hcons, hsame]⟩
    · split
      · rename_i hstop
        refine ⟨0, Nat.succ_pos _, rfl, by simpa using hle, ?_⟩
        rwa [hcons, List.take_zero, List.sum_nil, add_zero]
      · rename_i hgo
        obtain ⟨i, hi, hs, hlo, hhi⟩ := searchVisit_eq_ok (some v.index) hrest (not_lt.mp hgo) hlt
        exact ⟨i + 1, Nat.succ_lt_succ hi, hs, by rwa [hcons], by rwa [hcons]⟩

namespace Node

variable {t : Node EReal} {accepts : NodeTest EReal}

/-- The places of a tree differ, as each has another number of nodes before it. -/
theorem nodup_places (t : Node EReal) : t.places.Nodup := by
  have hindex := t.alone.map_index_tour true 0 Scope.empty 0
  rw [show t.alone.tour true 0 Scope.empty 0 = _ from t.tour_eq_places true, List.map_map] at hindex
  exact List.Nodup.of_map _ (hindex ▸ List.nodup_range')

/-- A point lies in the part of the total that an accepted place has: it has reached the total weight of the accepted
places before it, but not yet the total with its own weight. -/
def Spans (t : Node EReal) (accepts : NodeTest EReal) (i : Fin (t.accepted accepts).length) (point : EReal) : Prop :=
  Arith.total (((t.accepted accepts).take i).map Place.weight) ≤ point ∧
    point < Arith.total (((t.accepted accepts).take i).map Place.weight) + (t.accepted accepts)[i].weight

variable (hw : ∀ n ∈ t.nodes, Arith.isNonnegative n.label.resampleWeight = true)

include hw

theorem weight_real (accepts : NodeTest EReal) :
    ∀ w ∈ (t.accepted accepts).map Place.weight, ∃ x : ℝ, 0 ≤ x ∧ w = x := by
  intro w hmem
  obtain ⟨p, hp, rfl⟩ := List.mem_map.mp hmem
  refine Arith.isNonnegative_iff.mp (hw _ ?_)
  rw [← t.map_node_places]
  exact List.mem_map_of_mem (List.mem_filter.mp hp).1

omit hw in
/-- The parts of the accepted places are the steps of the totals of the first weights. -/
theorem spans_iff {i : Fin (t.accepted accepts).length} {point : EReal} :
    t.Spans accepts i point ↔ (((t.accepted accepts).map Place.weight).take i).sum ≤ point ∧
      point < (((t.accepted accepts).map Place.weight).take (i + 1)).sum := by
  have hstep : (((t.accepted accepts).map Place.weight).take (i + 1)).sum =
      (((t.accepted accepts).map Place.weight).take i).sum + (t.accepted accepts)[i].weight := by
    rw [List.take_succ_eq_append_getElem (by simp), List.sum_append, List.sum_singleton, List.getElem_map]
    rfl
  rw [Spans, hstep, Arith.total_eq_sum, List.map_take]

/-- The normalizer is a real number. -/
theorem exists_normalizer (hz : 0 < t.normalizer accepts) : ∃ total : ℝ, 0 < total ∧ t.normalizer accepts = total := by
  obtain ⟨total, htotal, _, _⟩ := Arith.exists_total_of_nonneg (weight_real hw accepts)
  rw [normalizer_eq_accepted, htotal] at hz ⊢
  exact ⟨total, EReal.coe_pos.mp hz, rfl⟩

/-- A unit draw leads the search to the place in whose part it lies. -/
theorem exists_span (hz : 0 < t.normalizer accepts) {u : ℝ} (hu : u ∈ Set.Ico (0 : ℝ) 1) :
    ∃ i, (∀ j, t.Spans accepts j (u * t.normalizer accepts) ↔ j = i) ∧
      searchVisit (u * t.normalizer accepts) Arith.zero none (t.visits accepts) =
        .ok ((t.accepted accepts)[i].visit true) := by
  have hnonneg : ∀ w ∈ (t.accepted accepts).map Place.weight, 0 ≤ w := fun w hmem => by
    obtain ⟨x, hx, rfl⟩ := weight_real hw accepts w hmem
    exact EReal.coe_nonneg.mpr hx
  have hweights : (t.visits accepts).map Visit.weight = (t.accepted accepts).map Place.weight := by
    rw [visits_eq_accepted, List.map_map]
    rfl
  have hpoint : 0 ≤ (u : EReal) * t.normalizer accepts ∧
      (u : EReal) * t.normalizer accepts < 0 + ((t.visits accepts).map Visit.weight).sum := by
    obtain ⟨total, htotal, hnorm⟩ := exists_normalizer hw hz
    rw [hweights, zero_add, ← Arith.total_eq_sum, ← normalizer_eq_accepted, hnorm, ← EReal.coe_mul]
    have hlt : u * total < total := by nlinarith [hu.2]
    exact ⟨EReal.coe_nonneg.mpr (mul_nonneg hu.1 htotal.le), EReal.coe_lt_coe_iff.mpr hlt⟩
  have hvisits : ∀ v ∈ t.visits accepts, 0 ≤ v.weight := fun v hv =>
    hnonneg _ (hweights ▸ List.mem_map_of_mem hv)
  obtain ⟨i, hi, hsearch, hlo, hhi⟩ := searchVisit_eq_ok none hvisits hpoint.1 hpoint.2
  rw [hweights, zero_add] at hlo hhi
  have hlength : i < (t.accepted accepts).length := by
    rwa [visits_eq_accepted, List.length_map] at hi
  refine ⟨⟨i, hlength⟩, fun j => ⟨fun hj => Fin.ext ?_, ?_⟩, hsearch.trans ?_⟩
  · exact Categorical.eq_of_between hnonneg (spans_iff.mp hj) ⟨hlo, hhi⟩
  · rintro rfl
    exact spans_iff.mpr ⟨hlo, hhi⟩
  · simp only [visits_eq_accepted, List.getElem_map]
    rfl

omit hw in
/-- Only a place with a positive weight has a part that a point can lie in. -/
theorem Spans.weight_pos {i : Fin (t.accepted accepts).length} {point : EReal} (h : t.Spans accepts i point) :
    0 < (t.accepted accepts)[i].weight := by
  by_contra hnot
  have hle := add_le_add_right (not_lt.mp hnot) (Arith.total (((t.accepted accepts).take i).map Place.weight))
  rw [add_zero] at hle
  exact absurd (h.1.trans_lt h.2) (not_lt.mpr hle)

/-- A unit draw selects the accepted place in whose part it lies. -/
theorem exists_selects (hz : 0 < t.normalizer accepts) (rest : List (Draw EReal)) {u : ℝ}
    (hu : u ∈ Set.Ico (0 : ℝ) 1) : ∃ i, (∀ j, t.Spans accepts j (u * t.normalizer accepts) ↔ j = i) ∧
      searchVisit (u * t.normalizer accepts) Arith.zero none (t.visits accepts) =
        .ok ((t.accepted accepts)[i].visit true) ∧
      ∃ s, t.select accepts (Draw.ofUnit u :: rest) = (.ok s, rest) ∧
        t.Selects (t.normalizer accepts) (t.accepted accepts)[i] s := by
  obtain ⟨i, hspan, hsearch⟩ := exists_span hw hz hu
  have hpos : Arith.isPositive (t.normalizer accepts) = true := Arith.isPositive_iff.mpr (exists_normalizer hw hz)
  exact ⟨i, hspan, hsearch, _, select_eq_of_search hpos hsearch rest,
    selects_ofVisit (List.mem_filter.mp (List.getElem_mem i.isLt)).1 _⟩

/-- A unit draw selects an accepted place if and only if it lies in its part. -/
theorem selects_iff (hz : 0 < t.normalizer accepts) (rest : List (Draw EReal)) {u : ℝ} (hu : u ∈ Set.Ico (0 : ℝ) 1)
    (i : Fin (t.accepted accepts).length) :
    (∃ s, t.select accepts (Draw.ofUnit u :: rest) = (.ok s, rest) ∧
      t.places[s.index]? = some (t.accepted accepts)[i]) ↔ t.Spans accepts i (u * t.normalizer accepts) := by
  obtain ⟨j, hspan, _, s, hs, hsel⟩ := exists_selects hw hz rest hu
  rw [hspan i]
  constructor
  · rintro ⟨s', hs', hplace⟩
    obtain rfl : s = s' := Except.ok.inj (congrArg Prod.fst (hs.symm.trans hs'))
    have hsame : (t.accepted accepts)[i] = (t.accepted accepts)[j] := Option.some.inj (hplace.symm.trans hsel.place)
    exact Fin.ext ((t.nodup_places.filter _).getElem_inj_iff.mp hsame)
  · rintro rfl
    exact ⟨s, hs, hsel.place⟩

/-- **Selection is proportional to weight.** A unit draw lies in the part of one accepted place only, which has a
positive weight, and selects this place, without falling back. The draws that select a place are an interval, as long as
the share of its weight in the total. -/
theorem select_proportional (hz : 0 < t.normalizer accepts) (rest : List (Draw EReal)) :
    (∀ u ∈ Set.Ico (0 : ℝ) 1, ∃ i, (∀ j, t.Spans accepts j (u * t.normalizer accepts) ↔ j = i) ∧
      0 < (t.accepted accepts)[i].weight ∧
      searchVisit (u * t.normalizer accepts) Arith.zero none (t.visits accepts) =
        .ok ((t.accepted accepts)[i].visit true) ∧
      ∃ s, t.select accepts (Draw.ofUnit u :: rest) = (.ok s, rest) ∧
        t.Selects (t.normalizer accepts) (t.accepted accepts)[i] s) ∧
      ∃ total : ℝ, t.normalizer accepts = total ∧ ∀ i : Fin (t.accepted accepts).length, ∃ before weight : ℝ,
        Arith.total (((t.accepted accepts).take i).map Place.weight) = before ∧
        (t.accepted accepts)[i].weight = weight ∧
        {u ∈ Set.Ico (0 : ℝ) 1 | ∃ s, t.select accepts (Draw.ofUnit u :: rest) = (.ok s, rest) ∧
            t.places[s.index]? = some (t.accepted accepts)[i]} =
          Set.Ico (before / total) (before / total + weight / total) := by
  refine ⟨fun u hu => ?_, ?_⟩
  · obtain ⟨i, hspan, hsearch, hs⟩ := exists_selects hw hz rest hu
    exact ⟨i, hspan, ((hspan i).mpr rfl).weight_pos, hsearch, hs⟩
  · obtain ⟨total, htotal, hnorm⟩ := exists_normalizer hw hz
    refine ⟨total, hnorm, fun i => ?_⟩
    obtain ⟨before, weight, all, hb, -, hle, hbefore, hweight, -, hall⟩ :=
      Arith.exists_parts (weight_real hw accepts) (i := i) (by simp)
    rw [← normalizer_eq_accepted, hnorm, EReal.coe_eq_coe_iff] at hall
    rw [← List.map_take] at hbefore
    rw [List.getElem_map] at hweight
    refine ⟨before, weight, hbefore, hweight, Set.ext fun u => ?_⟩
    have hspan : t.Spans accepts i (u * t.normalizer accepts) ↔
        u ∈ Set.Ico (before / total) (before / total + weight / total) := by
      rw [Spans, hbefore, hnorm, ← EReal.coe_mul, EReal.coe_le_coe_iff, Set.mem_Ico, ← add_div, div_le_iff₀ htotal,
        lt_div_iff₀ htotal, show (t.accepted accepts)[i].weight = weight from hweight, ← EReal.coe_add,
        EReal.coe_lt_coe_iff]
    constructor
    · rintro ⟨hu, hs⟩
      exact hspan.mp ((selects_iff hw hz rest hu i).mp hs)
    · intro hu
      have hunit : u ∈ Set.Ico (0 : ℝ) 1 := by
        have hone : before / total + weight / total ≤ 1 := by
          rw [← add_div, div_le_one htotal]
          exact hle.trans_eq hall.symm
        exact ⟨(div_nonneg hb htotal.le).trans hu.1, hu.2.trans_le hone⟩
      exact ⟨hunit, (selects_iff hw hz rest hunit i).mpr (hspan.mpr hu)⟩

omit hw

/-- Four nodes below another one, the first and the last of them without weight. -/
noncomputable def weighted : Node EReal where
  label := ⟨"EXPR", "four", 0, 0, 1, [], 0⟩
  children :=
    .node ⟨"EXPR", "unit", 1, 0, 0, [], 1⟩ .nil (.seq (.node ⟨"EXPR", "unit", 1, 0, 2, [], 1⟩ .nil
      (.node ⟨"EXPR", "unit", 1, 0, 1, [], 1⟩ .nil .nil)) (.node ⟨"EXPR", "unit", 1, 0, 0, [], 1⟩ .nil .nil))

/-- Every node but the root. -/
def belowRoot : NodeTest EReal := fun n _ => n.label.depth != 0

theorem accepted_weighted : (weighted.accepted belowRoot).map Place.weight = [0, 2, 1, 0] := rfl

theorem weighted_select_proportional : (weighted.accepted belowRoot).map Place.weight = [0, 2, 1, 0] ∧
    (∀ u ∈ Set.Ico (0 : ℝ) 1, ∃ i,
      (∀ j, weighted.Spans belowRoot j (u * weighted.normalizer belowRoot) ↔ j = i) ∧
      0 < (weighted.accepted belowRoot)[i].weight ∧
      searchVisit (u * weighted.normalizer belowRoot) Arith.zero none (weighted.visits belowRoot) =
        .ok ((weighted.accepted belowRoot)[i].visit true) ∧
      ∃ s, weighted.select belowRoot [Draw.ofUnit u] = (.ok s, []) ∧
        weighted.Selects (weighted.normalizer belowRoot) (weighted.accepted belowRoot)[i] s) ∧
      ∃ total : ℝ, weighted.normalizer belowRoot = total ∧
        ∀ i : Fin (weighted.accepted belowRoot).length, ∃ before weight : ℝ,
          Arith.total (((weighted.accepted belowRoot).take i).map Place.weight) = before ∧
          (weighted.accepted belowRoot)[i].weight = weight ∧
          {u ∈ Set.Ico (0 : ℝ) 1 | ∃ s, weighted.select belowRoot [Draw.ofUnit u] = (.ok s, []) ∧
              weighted.places[s.index]? = some (weighted.accepted belowRoot)[i]} =
            Set.Ico (before / total) (before / total + weight / total) := by
  refine ⟨accepted_weighted, select_proportional (fun n hn => ?_) ?_ []⟩
  · have hweights : weighted.nodes.map (·.label.resampleWeight) = [1, 0, 2, 1, 0] := rfl
    have hweight := hweights ▸ List.mem_map_of_mem (f := fun m : Node EReal => m.label.resampleWeight) hn
    simp only [List.mem_cons, List.not_mem_nil, or_false] at hweight
    refine Arith.isNonnegative_iff.mpr ?_
    rcases hweight with h | h | h | h | h
    · exact ⟨1, zero_le_one, h⟩
    · exact ⟨0, le_refl _, h⟩
    · exact ⟨2, zero_le_two, h⟩
    · exact ⟨1, zero_le_one, h⟩
    · exact ⟨0, le_refl _, h⟩
  · rw [normalizer_eq_accepted, accepted_weighted, Arith.total_eq_sum]
    norm_num

end Node

end ScopedGrammar

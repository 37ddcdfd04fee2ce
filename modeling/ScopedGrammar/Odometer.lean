import ScopedGrammar.LazyList

/-!
# Odometers

An odometer shows every combination of values, one from each of several sources, and makes them one by one
(`Odometer.next`). For each source it has a wheel, which shows a value and holds those to come. The rightmost wheel
turns first; a wheel that has no value to come is restarted, and the one on its left turns instead.

What an odometer shows from some state on is a list (`Odometer.ahead`) that every step takes the first row from
(`Odometer.ahead_of_next`). So it comes to an end, and from the start on it shows the product of its sources in
lexicographic order (`Odometer.toList_rows_start`).
-/

namespace ScopedGrammar

variable {α : Type}

/-- Every list with one element from each of the lists, in lexicographic order: the last element changes fastest. -/
def product : List (List α) → List (List α)
  | [] => [[]]
  | l :: rest => l.flatMap fun a => (product rest).map (a :: ·)

theorem product_eq_nil {ls : List (List α)} (h : [] ∈ ls) : product ls = [] := by
  induction ls with
  | nil => cases h
  | cons l rest ih =>
    rcases List.mem_cons.mp h with rfl | h
    · rfl
    · simp only [product, ih h, List.map_nil, List.flatMap_eq_nil_iff, implies_true]

/-! ## Wheels -/

/-- A wheel of an odometer: where its values come from, the value that it shows, and those to come. -/
structure Wheel (α : Type) where
  source : Unit → LazyList α
  value : α
  left : Unit → LazyList α

namespace Wheel

/-- A wheel that shows the first value of a source. There is none if the source is empty. -/
def start? (source : Unit → LazyList α) : Option (Wheel α) :=
  match source () with
  | .nil => none
  | .cons value left => some { source, value, left }

/-- All values of a wheel. -/
def values (w : Wheel α) : List α := (w.source ()).toList

/-- A wheel is fresh if it shows the first of its values and has all others to come. -/
def Fresh (w : Wheel α) : Prop := w.values = w.value :: (w.left ()).toList

theorem fresh_of_start? {source : Unit → LazyList α} {w : Wheel α} (h : start? source = some w) :
    w.Fresh ∧ w.source = source := by
  unfold start? at h
  split at h
  · cases h
  · rename_i hs
    cases h
    exact ⟨congrArg LazyList.toList hs, rfl⟩

theorem start?_eq_none {source : Unit → LazyList α} (h : start? source = none) : (source ()).toList = [] := by
  unfold start? at h
  split at h
  · rename_i hs
    rw [hs, LazyList.toList]
  · cases h

/-- The values that wheels show. -/
def row (wheels : List (Wheel α)) : List α := wheels.map (·.value)

/-- The rows that come after the one that wheels show. -/
def ahead : List (Wheel α) → List (List α)
  | [] => []
  | w :: rest =>
    (ahead rest).map (w.value :: ·) ++ (w.left ()).toList.flatMap fun a => (product (rest.map values)).map (a :: ·)

/-- Fresh wheels show the first row of the product of their values. -/
theorem product_of_fresh {wheels : List (Wheel α)} (h : ∀ w ∈ wheels, w.Fresh) :
    product (wheels.map values) = row wheels :: ahead wheels := by
  induction wheels with
  | nil => rfl
  | cons w rest ih =>
    obtain ⟨hw, hrest⟩ := List.forall_mem_cons.mp h
    rw [List.map_cons, product, hw, List.flatMap_cons, ih hrest, ahead, ih hrest]
    rfl

/-! ## Turning -/

/-- What comes of turning wheels. -/
inductive Turn (α : Type) where
  /-- One wheel shows its next value, and all on its right are restarted. -/
  | moved (wheels : List (Wheel α))
  /-- Every wheel was at its last value and is restarted. -/
  | carried (wheels : List (Wheel α))
  /-- A wheel could not be restarted. -/
  | stuck

/-- Turns the rightmost wheel that has a value to come. -/
def turn : List (Wheel α) → Turn α
  | [] => .carried []
  | w :: rest =>
    match turn rest with
    | .moved rest => .moved (w :: rest)
    | .stuck => .stuck
    | .carried rest =>
      match w.left () with
      | .cons value left => .moved ({ w with value, left } :: rest)
      | .nil =>
        match start? w.source with
        | some w => .carried (w :: rest)
        | none => .stuck

/-- What turning does to the rows to come. -/
theorem ahead_turn (wheels : List (Wheel α)) :
    match turn wheels with
    | .moved turned => ahead wheels = row turned :: ahead turned ∧ turned.map values = wheels.map values
    | .carried turned => ahead wheels = [] ∧ (∀ w ∈ turned, w.Fresh) ∧ turned.map values = wheels.map values
    | .stuck => ahead wheels = [] ∧ product (wheels.map values) = [] := by
  induction wheels with
  | nil => exact ⟨rfl, by simp, rfl⟩
  | cons w rest ih =>
    rw [turn]
    cases hrest : turn rest with
    | moved turned =>
      rw [hrest] at ih
      obtain ⟨ha, hv⟩ := ih
      exact ⟨by rw [ahead, ha, ahead, hv]; rfl, by rw [List.map_cons, hv, List.map_cons]⟩
    | stuck =>
      rw [hrest] at ih
      obtain ⟨ha, hp⟩ := ih
      exact ⟨by simp [ahead, ha, hp], by simp [product, hp]⟩
    | carried turned =>
      rw [hrest] at ih
      obtain ⟨ha, hfresh, hv⟩ := ih
      cases hleft : w.left () with
      | cons value left =>
        refine ⟨?_, by rw [List.map_cons, hv, List.map_cons]; rfl⟩
        -- the wheels on the right begin again, with the first row of their product
        have hp : product (rest.map values) = row turned :: ahead turned := hv ▸ product_of_fresh hfresh
        rw [ahead, ha, hleft, LazyList.toList, List.flatMap_cons, hp, ahead, hv, hp]
        rfl
      | nil =>
        have hnone : ahead (w :: rest) = [] := by simp [ahead, ha, hleft, LazyList.toList]
        cases hstart : start? w.source with
        | none =>
          refine ⟨hnone, ?_⟩
          rw [List.map_cons, product, values, start?_eq_none hstart, List.flatMap_nil]
        | some w' =>
          obtain ⟨hw, hs⟩ := fresh_of_start? hstart
          refine ⟨hnone, List.forall_mem_cons.mpr ⟨hw, hfresh⟩, ?_⟩
          rw [List.map_cons, hv, List.map_cons, values, hs]
          rfl

end Wheel

/-! ## Odometers -/

/-- The wheels of an odometer, and whether it has shown a row and has come to its end. -/
structure Odometer (α : Type) where
  wheels : List (Wheel α)
  started : Bool
  done : Bool

namespace Odometer

/-- An odometer with a wheel for each source. If a source is empty, there is nothing to show. -/
def start (sources : List (Unit → LazyList α)) : Odometer α :=
  let wheels := sources.map Wheel.start?
  { wheels := wheels.filterMap id, started := false, done := wheels.any (·.isNone) }

/-- The next row, and the odometer after it. -/
def next (o : Odometer α) : Option (List α) × Odometer α :=
  if o.done then (none, o)
  else if !o.started then (some (Wheel.row o.wheels), { o with started := true })
  else
    match Wheel.turn o.wheels with
    | .moved wheels => (some (Wheel.row wheels), { o with wheels })
    | _ => (none, { o with done := true })

/-- The rows to come. -/
def ahead (o : Odometer α) : List (List α) :=
  if o.done then []
  else if !o.started then Wheel.row o.wheels :: Wheel.ahead o.wheels
  else Wheel.ahead o.wheels

/-- A row that is shown is the first of the rows to come, and the others are still to come. -/
theorem ahead_of_next {o o' : Odometer α} {row : List α} (h : o.next = (some row, o')) : o.ahead = row :: o'.ahead := by
  obtain ⟨wheels, started, done⟩ := o
  cases done with
  | true => cases h
  | false =>
    cases started with
    | false => cases h; rfl
    | true =>
      have hturn := Wheel.ahead_turn wheels
      simp only [next, Bool.false_eq_true, Bool.not_true, if_false] at h
      split at h
      · rename_i ht
        rw [ht] at hturn
        cases h
        exact hturn.1
      · cases h

/-- If no row is shown, none was to come. -/
theorem ahead_of_next_none {o o' : Odometer α} (h : o.next = (none, o')) : o.ahead = [] ∧ o'.done = true := by
  obtain ⟨wheels, started, done⟩ := o
  cases done with
  | true => cases h; exact ⟨rfl, rfl⟩
  | false =>
    cases started with
    | false => cases h
    | true =>
      have hturn := Wheel.ahead_turn wheels
      simp only [next, Bool.false_eq_true, Bool.not_true, if_false] at h
      split at h
      · cases h
      · rename_i ht
        cases h
        refine ⟨?_, rfl⟩
        show Wheel.ahead wheels = []
        cases hw : Wheel.turn wheels with
        | moved turned => exact absurd hw (ht turned)
        | carried turned => rw [hw] at hturn; exact hturn.1
        | stuck => rw [hw] at hturn; exact hturn.1

/-- All rows to come, made one by one. -/
def rows (o : Odometer α) : LazyList (List α) :=
  match _h : o.next with
  | (none, _) => .nil
  | (some row, o') => .cons row fun _ => rows o'
termination_by o.ahead.length
decreasing_by rw [ahead_of_next _h]; exact Nat.lt_succ_self _

theorem toList_rows (o : Odometer α) : o.rows.toList = o.ahead := by
  fun_induction rows o with
  | case1 o o' h => rw [LazyList.toList, (ahead_of_next_none h).1]
  | case2 o row o' h ih => rw [LazyList.toList, ih, ahead_of_next h]

/-- Sources that are not empty start fresh wheels. -/
theorem fresh_start {sources : List (Unit → LazyList α)} (h : (sources.map Wheel.start?).any (·.isNone) = false) :
    (∀ w ∈ (start sources).wheels, w.Fresh) ∧
      (start sources).wheels.map Wheel.values = sources.map fun source => (source ()).toList := by
  induction sources with
  | nil => exact ⟨by simp [start], rfl⟩
  | cons source rest ih =>
    rw [List.map_cons, List.any_cons, Bool.or_eq_false_iff] at h
    obtain ⟨hfresh, hv⟩ := ih h.2
    obtain ⟨w, hw⟩ := Option.isSome_iff_exists.mp (Option.isNone_eq_false_iff.mp h.1)
    obtain ⟨hwf, hs⟩ := Wheel.fresh_of_start? hw
    have hwheels : (start (source :: rest)).wheels = w :: (start rest).wheels := by simp [start, hw]
    rw [hwheels]
    exact ⟨List.forall_mem_cons.mpr ⟨hwf, hfresh⟩, by rw [List.map_cons, hv, List.map_cons, Wheel.values, hs]⟩

/-- **From the start on, an odometer shows the product of its sources in lexicographic order.** -/
theorem toList_rows_start (sources : List (Unit → LazyList α)) :
    (start sources).rows.toList = product (sources.map fun source => (source ()).toList) := by
  rw [toList_rows]
  cases hdone : (sources.map Wheel.start?).any (·.isNone) with
  | true =>
    obtain ⟨w, hw, hnone⟩ := List.any_eq_true.mp hdone
    obtain ⟨source, hmem, rfl⟩ := List.mem_map.mp hw
    rw [product_eq_nil (List.mem_map.mpr ⟨source, hmem, Wheel.start?_eq_none (Option.isNone_iff_eq_none.mp hnone)⟩)]
    exact if_pos hdone
  | false =>
    obtain ⟨hfresh, hv⟩ := fresh_start hdone
    rw [← hv, Wheel.product_of_fresh hfresh]
    exact if_neg (by simp [start, hdone])

end Odometer

end ScopedGrammar

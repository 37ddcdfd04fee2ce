import Mathlib.Data.Int.Order.Basic
import Mathlib.Data.List.Nodup
import ScopedGrammar.Scope

/-!
# Ids that are handed out one after another

`countdown lowest k` are the next `k` ids where `lowest` is the lowest one in use, and `lowestAfter lowest k` is the
lowest one behind them. `HandsOut lowest ids lowest'` says that these are the ids between two points. As long as so many
are left (`leastId + k ≤ lowest`), they are the numbers below `lowest` without a gap (`countdown_eq`), so they are
distinct and new. When they run out, the count goes on from the greatest id.
-/

namespace ScopedGrammar

/-- As many ids as asked for, from the one that is handed out next. -/
def countdown (lowest : Int) : Nat → List Int
  | 0 => []
  | k + 1 => idBelow lowest :: countdown (idBelow lowest) k

/-- The lowest id in use when so many have been handed out. -/
def lowestAfter (lowest : Int) : Nat → Int
  | 0 => lowest
  | k + 1 => lowestAfter (idBelow lowest) k

/-- The numbers below another one, from the greatest downwards. -/
def numbersBelow (lowest : Int) (k : Nat) : List Int := (List.range k).map fun i : Nat => lowest - (i + 1)

/-! ## One run after another -/

theorem countdown_add (lowest : Int) : ∀ a b : Nat,
    countdown lowest (a + b) = countdown lowest a ++ countdown (lowestAfter lowest a) b
  | 0, b => by rw [Nat.zero_add, countdown, List.nil_append, lowestAfter]
  | a + 1, b => by
    rw [Nat.add_right_comm, countdown, countdown, lowestAfter, countdown_add (idBelow lowest) a b, List.cons_append]

theorem lowestAfter_add (lowest : Int) : ∀ a b : Nat,
    lowestAfter lowest (a + b) = lowestAfter (lowestAfter lowest a) b
  | 0, b => by rw [Nat.zero_add, lowestAfter]
  | a + 1, b => by rw [Nat.add_right_comm, lowestAfter, lowestAfter, lowestAfter_add (idBelow lowest) a b]

@[simp] theorem length_countdown (lowest : Int) (k : Nat) : (countdown lowest k).length = k := by
  induction k generalizing lowest with
  | zero => rfl
  | succ k ih => rw [countdown, List.length_cons, ih]

theorem countdown_split {lowest : Int} {k : Nat} {as bs : List Int} (h : as ++ bs = countdown lowest k) :
    as = countdown lowest as.length ∧ bs = countdown (lowestAfter lowest as.length) bs.length ∧
      k = as.length + bs.length := by
  have hk : k = as.length + bs.length := by
    rw [← List.length_append, h, length_countdown]
  rw [hk, countdown_add] at h
  obtain ⟨ha, hb⟩ := List.append_inj h (by simp)
  exact ⟨ha, hb, hk⟩

/-- Ids were handed out one after another, from a lowest one to another. -/
def HandsOut (lowest : Int) (ids : List Int) (lowest' : Int) : Prop :=
  ids = countdown lowest ids.length ∧ lowest' = lowestAfter lowest ids.length

theorem handsOut_countdown (lowest : Int) (k : Nat) :
    HandsOut lowest (countdown lowest k) (lowestAfter lowest k) := by
  rw [HandsOut, length_countdown]
  exact ⟨rfl, rfl⟩

theorem handsOut_nil (lowest : Int) : HandsOut lowest [] lowest := ⟨rfl, rfl⟩

theorem HandsOut.append {a b c : Int} {as bs : List Int} (h : HandsOut a as b) (h' : HandsOut b bs c) :
    HandsOut a (as ++ bs) c := by
  obtain ⟨has, rfl⟩ := h
  obtain ⟨hbs, rfl⟩ := h'
  rw [HandsOut, List.length_append, countdown_add, lowestAfter_add, ← has, ← hbs]
  exact ⟨rfl, rfl⟩

/-! ## The range of ids -/

theorem idBelow_eq {lowest : Int} (h : leastId < lowest) : idBelow lowest = lowest - 1 := if_neg (not_le.mpr h)

theorem idBelow_of_le {lowest : Int} (h : lowest ≤ leastId) : idBelow lowest = greatestId := if_pos h

/-- No id is below the least one. -/
theorem leastId_le_idBelow (lowest : Int) : leastId ≤ idBelow lowest := by
  rcases le_or_gt lowest leastId with h | h
  · rw [idBelow_of_le h]
    decide
  · rw [idBelow_eq h]
    omega

theorem leastId_le_of_mem_countdown {id : Int} : ∀ {k : Nat} {lowest : Int}, id ∈ countdown lowest k → leastId ≤ id
  | k + 1, lowest, h => by
    rcases List.mem_cons.mp h with rfl | h
    · exact leastId_le_idBelow lowest
    · exact leastId_le_of_mem_countdown h

/-- Up to the first id after the least one, all that are handed out are new: they lie below the lowest one in use, or are
the greatest id. -/
theorem lt_or_eq_of_mem_countdown {id : Int} {k : Nat} {lowest : Int} (hleast : leastId ≤ lowest)
    (hk : leastId + k ≤ lowest + 1) (h : id ∈ countdown lowest k) : id < lowest ∨ id = greatestId := by
  induction k generalizing lowest with
  | zero => cases h
  | succ k ih =>
    rcases le_or_gt lowest leastId with hle | hlt
    · have hlast : k = 0 := by omega
      rw [hlast, countdown, idBelow_of_le hle, countdown] at h
      exact .inr (List.mem_singleton.mp h)
    · rw [countdown, idBelow_eq hlt] at h
      rcases List.mem_cons.mp h with hid | h
      · exact .inl (by omega)
      · exact (ih (by omega) (by omega) h).imp_left fun hid => by omega

theorem take_countdown (lowest : Int) {j k : Nat} (h : j ≤ k) : (countdown lowest k).take j = countdown lowest j := by
  obtain ⟨rest, rfl⟩ := Nat.exists_eq_add_of_le h
  rw [countdown_add]
  exact List.take_left' (length_countdown lowest j)

/-! ## While ids last -/

theorem mem_numbersBelow {id lowest : Int} {k : Nat} :
    id ∈ numbersBelow lowest k ↔ lowest - k ≤ id ∧ id < lowest := by
  rw [numbersBelow, List.mem_map]
  constructor
  · rintro ⟨i, hi, rfl⟩
    rw [List.mem_range] at hi
    omega
  · rintro ⟨hle, hlt⟩
    exact ⟨(lowest - 1 - id).toNat, List.mem_range.mpr (by omega), by omega⟩

theorem nodup_numbersBelow (lowest : Int) (k : Nat) : (numbersBelow lowest k).Nodup := by
  refine List.nodup_range.map fun i j hij => ?_
  replace hij : lowest - ((i : Int) + 1) = lowest - ((j : Int) + 1) := hij
  omega

/-- As long as ids last, they are the numbers below those in use. -/
theorem countdown_eq : ∀ {k : Nat} {lowest : Int}, leastId + k ≤ lowest → countdown lowest k = numbersBelow lowest k
  | 0, _, _ => rfl
  | k + 1, lowest, h => by
    rw [countdown, idBelow_eq (by omega), countdown_eq (by omega), numbersBelow, numbersBelow, List.range_succ_eq_map,
      List.map_cons, List.map_map]
    congr 1
    refine List.map_congr_left fun i _ => ?_
    show lowest - 1 - ((i : Int) + 1) = lowest - (((i + 1 : Nat) : Int) + 1)
    omega

theorem lowestAfter_eq : ∀ {k : Nat} {lowest : Int}, leastId + k ≤ lowest → lowestAfter lowest k = lowest - k
  | 0, lowest, _ => by rw [lowestAfter, Int.natCast_zero, Int.sub_zero]
  | k + 1, lowest, h => by
    rw [lowestAfter, idBelow_eq (by omega), lowestAfter_eq (by omega)]
    omega

/-- As long as ids last, those that are handed out are numbers below the others. -/
theorem HandsOut.eq_numbersBelow {lowest lowest' : Int} {ids : List Int} (h : HandsOut lowest ids lowest')
    (hroom : leastId + ids.length ≤ lowest) :
    ids = numbersBelow lowest ids.length ∧ lowest' = lowest - ids.length :=
  ⟨h.1.trans (countdown_eq hroom), h.2.trans (lowestAfter_eq hroom)⟩

/-- As long as ids last, those that are handed out lie between the two lowest ones. -/
theorem HandsOut.between {lowest lowest' : Int} {ids : List Int} (h : HandsOut lowest ids lowest')
    (hroom : leastId + ids.length ≤ lowest) : lowest' ≤ lowest ∧ ∀ id ∈ ids, lowest' ≤ id ∧ id < lowest := by
  obtain ⟨hids, hlow⟩ := h.eq_numbersBelow hroom
  refine ⟨by omega, fun id hid => ?_⟩
  rw [hids] at hid
  rw [hlow]
  exact mem_numbersBelow.mp hid

/-- Numbers that are ids can be handed out. -/
theorem numbersBelow_eq_countdown {lowest : Int} {k : Nat} (h : ∀ id ∈ numbersBelow lowest k, leastId ≤ id) :
    numbersBelow lowest k = countdown lowest k := by
  cases k with
  | zero => rfl
  | succ k =>
    refine (countdown_eq ?_).symm
    have hlast := h (lowest - (k + 1 : Nat)) (mem_numbersBelow.mpr ⟨le_refl _, by omega⟩)
    omega

end ScopedGrammar

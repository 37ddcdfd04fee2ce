import Mathlib.Data.List.Nodup
import Mathlib.Data.String.Basic
import ScopedGrammar.Clause.Reader

/-!
# Grammars built by operations on the rules

`Grammar.Built` holds of the grammars that additions, removals and changes of weight lead to, and so of everything that
a grammar text adds (`Built.readClauses`). All of them are well stored (`Built.wellStored`): the groups of the table
stand in ascending order of their nonterminals (`RuleTable.Grouped`), no group is empty, a group holds rules of its
nonterminal with ascending ids, every rule is valid, and every id lies below the next one.
-/

namespace ScopedGrammar

variable {W : Type}

/-! ## Tables -/

namespace RuleTable

/-- Rules of one nonterminal, at least one, with ascending ids. -/
structure IsGroup (e : String × List (Rule W)) : Prop where
  nonempty : e.2 ≠ []
  owned : ∀ r ∈ e.2, r.nonterminal = e.1
  byAge : e.2.Pairwise fun a b => a.id < b.id

/-- Groups in ascending order of their nonterminals. -/
structure Grouped (t : RuleTable W) : Prop where
  ascending : (t.map (·.1)).Pairwise (· < ·)
  isGroup : ∀ e ∈ t, IsGroup e

theorem grouped_nil : Grouped ([] : RuleTable W) := ⟨List.Pairwise.nil, by simp⟩

theorem Grouped.tail {e : String × List (Rule W)} {t : RuleTable W} (h : Grouped (e :: t)) : Grouped t :=
  ⟨(List.pairwise_cons.mp h.ascending).2, fun e' he' => h.isGroup e' (List.mem_cons_of_mem _ he')⟩

theorem Grouped.head_lt {e : String × List (Rule W)} {t : RuleTable W} (h : Grouped (e :: t)) :
    ∀ e' ∈ t, e.1 < e'.1 := fun _ he' =>
  (List.pairwise_cons.mp h.ascending).1 _ (List.mem_map_of_mem he')

theorem mem_toList {t : RuleTable W} {r : Rule W} : r ∈ t.toList ↔ ∃ e ∈ t, r ∈ e.2 := List.mem_flatMap

/-- A nonterminal either has no rules or has those of a group. -/
theorem rules_eq_nil_or_mem : ∀ (t : RuleTable W) (s : String), t.rules s = [] ∨ (s, t.rules s) ∈ t
  | [], _ => Or.inl rfl
  | (nt, rs) :: rest, s => by
    by_cases h : nt = s
    · subst h
      exact Or.inr (by simp [rules])
    · rcases rules_eq_nil_or_mem rest s with hs | hs
      · exact Or.inl (by simpa [rules, h] using hs)
      · exact Or.inr (List.mem_cons_of_mem _ (by simpa [rules, h] using hs))

/-- The rules of a nonterminal are those of its group. -/
theorem Grouped.rules_of_mem {t : RuleTable W} (h : Grouped t) {nt : String} {rs : List (Rule W)}
    (hm : (nt, rs) ∈ t) : t.rules nt = rs := by
  induction t with
  | nil => cases hm
  | cons e rest ih =>
    rcases List.mem_cons.mp hm with rfl | hm
    · simp [rules]
    · have hne : e.1 ≠ nt := ne_of_lt (h.head_lt _ hm)
      simpa [rules, hne] using ih h.tail hm

theorem mem_of_mem_rules {t : RuleTable W} {s : String} {r : Rule W} (h : r ∈ t.rules s) : (s, t.rules s) ∈ t := by
  rcases rules_eq_nil_or_mem t s with hs | hs
  · rw [hs] at h; cases h
  · exact hs

/-! ## Changes of tables -/

/-- What an addition leaves in the table: the old groups, and one that ends with the new rule. -/
theorem mem_insert {r : Rule W} {e : String × List (Rule W)} : ∀ {t : RuleTable W}, e ∈ insert r t →
    e ∈ t ∨ e = (r.nonterminal, [r]) ∨ ∃ rs, (r.nonterminal, rs) ∈ t ∧ e = (r.nonterminal, rs ++ [r])
  | [], h => Or.inr (Or.inl (List.mem_singleton.mp h))
  | (nt, rs) :: rest, h => by
    unfold insert at h
    by_cases h₁ : nt = r.nonterminal
    · rw [if_pos (by simpa using h₁)] at h
      rcases List.mem_cons.mp h with rfl | h
      · exact Or.inr (Or.inr ⟨rs, by simp [h₁], by rw [h₁]⟩)
      · exact Or.inl (List.mem_cons_of_mem _ h)
    · rw [if_neg (by simpa using h₁)] at h
      by_cases h₂ : r.nonterminal < nt
      · rw [if_pos h₂] at h
        rcases List.mem_cons.mp h with h | h
        · exact Or.inr (Or.inl h)
        · exact Or.inl h
      · rw [if_neg h₂] at h
        rcases List.mem_cons.mp h with rfl | h
        · exact Or.inl List.mem_cons_self
        · rcases mem_insert h with h | h | ⟨rs', h, he⟩
          · exact Or.inl (List.mem_cons_of_mem _ h)
          · exact Or.inr (Or.inl h)
          · exact Or.inr (Or.inr ⟨rs', List.mem_cons_of_mem _ h, he⟩)

/-- The nonterminal of a new rule is in order with the others. -/
theorem ascending_insert (r : Rule W) : ∀ {t : RuleTable W}, (t.map (·.1)).Pairwise (· < ·) →
    ((insert r t).map (·.1)).Pairwise (· < ·)
  | [], _ => by simp [insert]
  | (nt, rs) :: rest, h => by
    obtain ⟨hlt, hrest⟩ := List.pairwise_cons.mp h
    unfold insert
    by_cases h₁ : nt = r.nonterminal
    · rw [if_pos (by simpa using h₁)]; exact h
    · rw [if_neg (by simpa using h₁)]
      by_cases h₂ : r.nonterminal < nt
      · rw [if_pos h₂]
        refine List.pairwise_cons.mpr ⟨fun s hs => ?_, h⟩
        rcases List.mem_cons.mp hs with rfl | hs
        · exact h₂
        · exact lt_trans h₂ (hlt s hs)
      · rw [if_neg h₂]
        refine List.pairwise_cons.mpr ⟨fun s hs => ?_, ascending_insert r hrest⟩
        obtain ⟨e, he, rfl⟩ := List.mem_map.mp hs
        have hnt : nt < r.nonterminal := lt_of_le_of_ne (not_lt.mp h₂) h₁
        rcases mem_insert he with he | rfl | ⟨_, _, rfl⟩
        · exact hlt _ (List.mem_map_of_mem he)
        · exact hnt
        · exact hnt

/-- An addition keeps the groups, if the id of the new rule lies above the others. -/
theorem Grouped.insert {t : RuleTable W} (h : Grouped t) {r : Rule W} (hr : ∀ r' ∈ t.toList, r'.id < r.id) :
    Grouped (insert r t) := by
  refine ⟨ascending_insert r h.ascending, fun e he => ?_⟩
  rcases mem_insert he with he | rfl | ⟨rs, hrs, rfl⟩
  · exact h.isGroup e he
  · exact ⟨by simp, by simp, List.pairwise_singleton ..⟩
  · have hg := h.isGroup _ hrs
    refine ⟨by simp, fun r' hr' => ?_, List.pairwise_append.mpr ⟨hg.byAge, List.pairwise_singleton .., ?_⟩⟩
    · rcases List.mem_append.mp hr' with hr' | hr'
      · exact hg.owned r' hr'
      · rw [List.mem_singleton.mp hr']
    · intro a ha b hb
      rw [List.mem_singleton.mp hb]
      exact hr a (mem_toList.mpr ⟨_, hrs, ha⟩)

theorem mem_toList_insert {t : RuleTable W} {r r' : Rule W} (h : r' ∈ (insert r t).toList) :
    r' = r ∨ r' ∈ t.toList := by
  obtain ⟨e, he, hr'⟩ := mem_toList.mp h
  rcases mem_insert he with he | rfl | ⟨rs, hrs, rfl⟩
  · exact Or.inr (mem_toList.mpr ⟨e, he, hr'⟩)
  · exact Or.inl (List.mem_singleton.mp hr')
  · rcases List.mem_append.mp hr' with hr' | hr'
    · exact Or.inr (mem_toList.mpr ⟨_, hrs, hr'⟩)
    · exact Or.inl (List.mem_singleton.mp hr')

/-- What a removal leaves in the table: old groups, and parts of them. -/
theorem mem_erase {nt : String} {id : Int} {e : String × List (Rule W)} : ∀ {t : RuleTable W}, e ∈ erase nt id t →
    e ∈ t ∨ e.2 ≠ [] ∧ ∃ rs, (e.1, rs) ∈ t ∧ e.2.Sublist rs
  | [], h => by cases h
  | (nt', rs) :: rest, h => by
    unfold erase at h
    by_cases h₁ : nt' = nt
    · rw [if_pos (by simpa using h₁)] at h
      simp only at h
      by_cases h₂ : (rs.eraseP (·.id == id)).isEmpty
      · rw [if_pos h₂] at h
        exact Or.inl (List.mem_cons_of_mem _ h)
      · rw [if_neg h₂] at h
        rcases List.mem_cons.mp h with rfl | h
        · exact Or.inr ⟨by simpa using h₂, rs, List.mem_cons_self, List.eraseP_sublist⟩
        · exact Or.inl (List.mem_cons_of_mem _ h)
    · rw [if_neg (by simpa using h₁)] at h
      rcases List.mem_cons.mp h with rfl | h
      · exact Or.inl List.mem_cons_self
      · rcases mem_erase h with h | ⟨hne, rs', h, hsub⟩
        · exact Or.inl (List.mem_cons_of_mem _ h)
        · exact Or.inr ⟨hne, rs', List.mem_cons_of_mem _ h, hsub⟩

theorem keys_erase_sublist (nt : String) (id : Int) : ∀ t : RuleTable W,
    ((erase nt id t).map (·.1)).Sublist (t.map (·.1))
  | [] => List.Sublist.slnil
  | (nt', rs) :: rest => by
    unfold erase
    by_cases h₁ : nt' = nt
    · rw [if_pos (by simpa using h₁)]
      simp only
      split
      · exact List.sublist_cons_self ..
      · exact List.Sublist.refl _
    · rw [if_neg (by simpa using h₁)]
      exact (keys_erase_sublist nt id rest).cons_cons _

/-- A removal keeps the groups. -/
theorem Grouped.erase {t : RuleTable W} (h : Grouped t) (nt : String) (id : Int) : Grouped (erase nt id t) := by
  refine ⟨h.ascending.sublist (keys_erase_sublist nt id t), fun e he => ?_⟩
  rcases mem_erase he with he | ⟨hne, rs, hrs, hsub⟩
  · exact h.isGroup e he
  · have hg := h.isGroup _ hrs
    exact ⟨hne, fun r hr => hg.owned r (hsub.subset hr), hg.byAge.sublist hsub⟩

theorem mem_toList_erase {t : RuleTable W} {nt : String} {id : Int} {r : Rule W} (h : r ∈ (erase nt id t).toList) :
    r ∈ t.toList := by
  obtain ⟨e, he, hr⟩ := mem_toList.mp h
  rcases mem_erase he with he | ⟨_, rs, hrs, hsub⟩
  · exact mem_toList.mpr ⟨e, he, hr⟩
  · exact mem_toList.mpr ⟨_, hrs, hsub.subset hr⟩

/-- The rule that takes the place of another when the weight of an id changes. -/
def reweigh (id : Int) (weight : W) (r : Rule W) : Rule W := if r.id == id then { r with weight := weight } else r

@[simp] theorem reweigh_id (id : Int) (weight : W) (r : Rule W) : (reweigh id weight r).id = r.id := by
  unfold reweigh; split <;> rfl

@[simp] theorem reweigh_nonterminal (id : Int) (weight : W) (r : Rule W) :
    (reweigh id weight r).nonterminal = r.nonterminal := by
  unfold reweigh; split <;> rfl

theorem setWeight_eq (t : RuleTable W) (id : Int) (weight : W) :
    t.setWeight id weight = t.map fun e => (e.1, e.2.map (reweigh id weight)) := rfl

/-- A change of weight keeps the groups. -/
theorem Grouped.setWeight {t : RuleTable W} (h : Grouped t) (id : Int) (weight : W) :
    Grouped (t.setWeight id weight) := by
  rw [setWeight_eq]
  refine ⟨by simpa [Function.comp_def] using h.ascending, fun e he => ?_⟩
  obtain ⟨e', he', rfl⟩ := List.mem_map.mp he
  have hg := h.isGroup e' he'
  refine ⟨by simpa using hg.nonempty, fun r hr => ?_, ?_⟩
  · obtain ⟨r', hr', rfl⟩ := List.mem_map.mp hr
    rw [reweigh_nonterminal]; exact hg.owned r' hr'
  · simpa [List.pairwise_map] using hg.byAge

theorem mem_toList_setWeight {t : RuleTable W} {id : Int} {weight : W} {r : Rule W}
    (h : r ∈ (t.setWeight id weight).toList) : ∃ r' ∈ t.toList, r = reweigh id weight r' := by
  obtain ⟨e, he, hr⟩ := mem_toList.mp h
  obtain ⟨e', he', rfl⟩ := List.mem_map.mp (by rwa [setWeight_eq] at he)
  obtain ⟨r', hr', rfl⟩ := List.mem_map.mp hr
  exact ⟨r', mem_toList.mpr ⟨e', he', hr'⟩, rfl⟩

end RuleTable

/-! ## Grammars -/

namespace Production

/-- The conditions that make a production valid. -/
theorem validate_eq_ok_iff [Arith W] {p : Production W} : p.validate = .ok () ↔
    (p.isLambda = true → p.children.length = 1) ∧ Arith.isPositive p.weight = true ∧
      Arith.isNonnegative p.resampleWeight = true := by
  unfold validate
  split
  · rename_i h
    simp only [Bool.and_eq_true, bne_iff_ne, ne_eq] at h
    simp [h]
  · rename_i h
    simp only [Bool.and_eq_true, bne_iff_ne, ne_eq, not_and, not_not] at h
    split
    · rename_i h'; simp_all
    · split
      · rename_i h'; simp_all
      · rename_i h₁ h₂; simp_all

end Production

namespace Grammar

variable [Arith W]

/-- The grammars that operations on the rules lead to. -/
inductive Built : Grammar W → Prop
  | empty (config : Config W) : Built (Grammar.empty config)
  | add {g g' : Grammar W} {p : Production W} {r : Rule W} : Built g → g.add p = .ok (r, g') → Built g'
  | remove {g g' : Grammar W} {nt : String} {id : Int} {r : Rule W} :
      Built g → g.remove? nt id = some (r, g') → Built g'
  | setWeight {g g' : Grammar W} {id : Int} {weight : W} : Built g → g.setWeight id weight = .ok g' → Built g'

/-- What every operation on the rules keeps. -/
structure WellStored (g : Grammar W) : Prop where
  grouped : g.table.Grouped
  valid : ∀ r ∈ g.allRules, r.toProduction.validate = .ok ()
  nonneg : ∀ r ∈ g.allRules, 0 ≤ r.id
  belowNext : ∀ r ∈ g.allRules, r.id < g.nextId

/-- A valid production is added under the next id. -/
theorem add_of_validate {g : Grammar W} {p : Production W} (h : p.validate = .ok ()) :
    g.add p = .ok ({ p with id := g.nextId },
      { g with table := g.table.insert { p with id := g.nextId }, nextId := g.nextId + 1 }) := by
  unfold add
  rw [h]
  rfl

/-- An addition that succeeds puts a valid production under the next id. -/
theorem add_eq_ok {g g' : Grammar W} {p : Production W} {r : Rule W} (h : g.add p = .ok (r, g')) :
    p.validate = .ok () ∧ r = { p with id := g.nextId } ∧
      g' = { g with table := g.table.insert r, nextId := g.nextId + 1 } := by
  unfold add at h
  cases hv : p.validate with
  | error e => rw [hv] at h; cases h
  | ok u =>
    rw [hv] at h
    cases h
    exact ⟨rfl, rfl, rfl⟩

theorem WellStored.add {g g' : Grammar W} {p : Production W} {r : Rule W} (hg : g.WellStored)
    (h : g.add p = .ok (r, g')) : g'.WellStored := by
  obtain ⟨hv, rfl, rfl⟩ := add_eq_ok h
  refine ⟨hg.grouped.insert hg.belowNext, fun r hr => ?_, fun r hr => ?_, fun r hr => ?_⟩ <;>
    rcases RuleTable.mem_toList_insert hr with rfl | hr
  · exact hv
  · exact hg.valid r hr
  · exact Int.natCast_nonneg _
  · exact hg.nonneg r hr
  · exact Int.ofNat_lt.mpr (Nat.lt_succ_self _)
  · exact lt_trans (hg.belowNext r hr) (Int.ofNat_lt.mpr (Nat.lt_succ_self _))

theorem WellStored.remove {g g' : Grammar W} {nt : String} {id : Int} {r : Rule W} (hg : g.WellStored)
    (h : g.remove? nt id = some (r, g')) : g'.WellStored := by
  obtain ⟨r', _, h⟩ := Option.map_eq_some_iff.mp h
  cases h
  refine ⟨hg.grouped.erase nt id, fun r hr => ?_, fun r hr => ?_, fun r hr => ?_⟩ <;>
    have hr' := RuleTable.mem_toList_erase hr
  · exact hg.valid r hr'
  · exact hg.nonneg r hr'
  · exact hg.belowNext r hr'

theorem WellStored.setWeight {g g' : Grammar W} {id : Int} {weight : W} (hg : g.WellStored)
    (h : g.setWeight id weight = .ok g') : g'.WellStored := by
  unfold Grammar.setWeight at h
  split at h
  · cases h
  · split at h
    · rename_i hw
      cases h
      refine ⟨hg.grouped.setWeight id weight, fun r hr => ?_, fun r hr => ?_, fun r hr => ?_⟩ <;>
        obtain ⟨r', hr', rfl⟩ := RuleTable.mem_toList_setWeight hr
      · obtain ⟨hl, hw', hn⟩ := Production.validate_eq_ok_iff.mp (hg.valid r' hr')
        unfold RuleTable.reweigh
        split
        · exact Production.validate_eq_ok_iff.mpr ⟨hl, hw, hn⟩
        · exact hg.valid r' hr'
      · rw [RuleTable.reweigh_id]; exact hg.nonneg r' hr'
      · rw [RuleTable.reweigh_id]; exact hg.belowNext r' hr'
    · cases h

/-- All grammars that are built are well stored. -/
theorem Built.wellStored {g : Grammar W} (h : g.Built) : g.WellStored := by
  induction h with
  | empty config => exact ⟨RuleTable.grouped_nil, by simp [allRules, Grammar.empty, RuleTable.toList],
      by simp [allRules, Grammar.empty, RuleTable.toList], by simp [allRules, Grammar.empty, RuleTable.toList]⟩
  | add _ h ih => exact ih.add h
  | remove _ h ih => exact ih.remove h
  | setWeight _ h ih => exact ih.setWeight h

/-- A grammar text only adds rules, also where reading it fails. -/
theorem Built.addClauses [Numeral W] : ∀ (fuel : Nat) {g : Grammar W} (r : Reader W), g.Built →
    (Grammar.addClauses fuel g r).2.Built
  | 0, _, _, hg => hg
  | fuel + 1, g, r, hg => by
    unfold Grammar.addClauses
    split
    · exact hg
    · split
      · exact hg
      · split
        · exact hg
        · rename_i h
          exact addClauses fuel _ (hg.add h)

theorem Built.readClauses [Numeral W] {g : Grammar W} (hg : g.Built) (text : List Char) :
    (g.readClauses text).2.Built := by
  unfold Grammar.readClauses
  split
  · exact hg
  · exact hg.addClauses _ _

namespace WellStored

variable {g : Grammar W} {nt : String} {r : Rule W}

theorem nonterminal_eq (hg : g.WellStored) (h : r ∈ g.rules nt) : r.nonterminal = nt :=
  (hg.grouped.isGroup _ (RuleTable.mem_of_mem_rules h)).owned r h

theorem mem_allRules (_ : g.WellStored) (h : r ∈ g.rules nt) : r ∈ g.allRules :=
  RuleTable.mem_toList.mpr ⟨_, RuleTable.mem_of_mem_rules h, h⟩

/-- The rules of a nonterminal have distinct ids. -/
theorem byAge (hg : g.WellStored) (nt : String) : (g.rules nt).Pairwise fun a b => a.id < b.id := by
  rcases RuleTable.rules_eq_nil_or_mem g.table nt with h | h
  · rw [rules, h]; exact List.Pairwise.nil
  · exact (hg.grouped.isGroup _ h).byAge

theorem nodup_rules (hg : g.WellStored) (nt : String) : (g.rules nt).Nodup :=
  (hg.byAge nt).imp fun hlt he => by rw [he] at hlt; exact lt_irrefl _ hlt

theorem eq_of_id_eq (hg : g.WellStored) {r' : Rule W} (h : r ∈ g.rules nt) (h' : r' ∈ g.rules nt)
    (hid : r.id = r'.id) : r = r' := by
  have hids : ((g.rules nt).map (·.id)).Nodup := List.pairwise_map.mpr ((hg.byAge nt).imp fun hlt => hlt.ne)
  exact List.inj_on_of_nodup_map hids h h' hid

/-- A rule is found by its id among the rules of its nonterminal. -/
theorem find?_rules_id (hg : g.WellStored) (h : r ∈ g.rules nt) : (g.rules nt).find? (·.id == r.id) = some r := by
  cases hfound : (g.rules nt).find? (·.id == r.id) with
  | none => exact absurd (List.find?_eq_none.mp hfound r h) (by simp)
  | some r' =>
    have hid : r'.id = r.id := by simpa using List.find?_some hfound
    rw [hg.eq_of_id_eq (List.mem_of_find?_eq_some hfound) h hid]

/-- The nonterminals are the symbols that have rules. -/
theorem isNonterminal_iff (hg : g.WellStored) : g.isNonterminal nt = true ↔ g.rules nt ≠ [] := by
  unfold isNonterminal nonterminals
  rw [List.contains_iff_mem]
  constructor
  · intro h
    obtain ⟨e, he, rfl⟩ := List.mem_map.mp h
    rw [rules, hg.grouped.rules_of_mem he]
    exact (hg.grouped.isGroup e he).nonempty
  · intro h
    rcases RuleTable.rules_eq_nil_or_mem g.table nt with h' | h'
    · exact absurd h' h
    · exact List.mem_map_of_mem h'

/-- Visible rules expand the nonterminal that they are visible for. -/
theorem nonterminal_eq_of_visible (hg : g.WellStored) {bound : List (Rule W)} (h : r ∈ g.visible bound nt) :
    r.nonterminal = nt := by
  rcases List.mem_append.mp h with h | h
  · exact hg.nonterminal_eq h
  · simpa using (List.mem_filter.mp h).2

end WellStored

end Grammar

end ScopedGrammar

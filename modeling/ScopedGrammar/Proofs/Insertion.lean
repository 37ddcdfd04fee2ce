import ScopedGrammar.Proofs.Store

/-!
# Many additions

Productions that are added one after another get ids that count up (`RuleTable.numbered`), and a nonterminal gets those
of its own in the same order (`rules_insertAll`). The productions of a table, added in their order, make the same table
with other ids (`insertAll_eq`), as they come group by group and every one goes to the end.
-/

namespace ScopedGrammar

variable {W : Type}

namespace RuleTable

/-- Productions as rules with ids from `n` up. -/
def numbered : Nat → List (Production W) → List (Rule W)
  | _, [] => []
  | n, p :: ps => { p with id := n } :: numbered (n + 1) ps

/-- The table of the same productions with ids from `n` up. -/
def renumber : Nat → RuleTable W → RuleTable W
  | _, [] => []
  | n, (nt, rs) :: t => (nt, numbered n (rs.map (·.toProduction))) :: renumber (n + rs.length) t

/-- Adds productions under ids from `n` up. -/
def insertAll : Nat → List (Production W) → RuleTable W → RuleTable W
  | _, [], t => t
  | n, p :: ps, t => insertAll (n + 1) ps (insert { p with id := n } t)

theorem map_toProduction_numbered : ∀ (n : Nat) (ps : List (Production W)),
    (numbered n ps).map (·.toProduction) = ps
  | _, [] => rfl
  | n, p :: ps => by rw [numbered, List.map_cons, map_toProduction_numbered (n + 1) ps]

theorem map_id_numbered : ∀ (n : Nat) (ps : List (Production W)),
    (numbered n ps).map (·.id) = (List.range' n ps.length).map Int.ofNat
  | _, [] => rfl
  | n, p :: ps => by
    rw [numbered, List.map_cons, map_id_numbered (n + 1) ps, List.length_cons, List.range'_succ]
    rfl

theorem keys_renumber : ∀ (n : Nat) (t : RuleTable W), (renumber n t).map (·.1) = t.map (·.1)
  | _, [] => rfl
  | n, (nt, rs) :: t => by rw [renumber, List.map_cons, keys_renumber (n + rs.length) t, List.map_cons]

theorem rules_renumber (s : String) : ∀ (n : Nat) (t : RuleTable W),
    ((renumber n t).rules s).map (·.toProduction) = (t.rules s).map (·.toProduction)
  | _, [] => rfl
  | n, (nt, rs) :: t => by
    rw [renumber, rules, rules]
    split
    · exact map_toProduction_numbered n _
    · exact rules_renumber s (n + rs.length) t

theorem toList_cons (e : String × List (Rule W)) (t : RuleTable W) : toList (e :: t) = e.2 ++ t.toList :=
  List.flatMap_cons

theorem map_toProduction_renumber : ∀ (n : Nat) (t : RuleTable W),
    (renumber n t).toList.map (·.toProduction) = t.toList.map (·.toProduction)
  | _, [] => rfl
  | n, (nt, rs) :: t => by
    rw [renumber, toList_cons, toList_cons, List.map_append, List.map_append, map_toProduction_numbered,
      map_toProduction_renumber]

theorem map_id_renumber : ∀ (n : Nat) (t : RuleTable W),
    (renumber n t).toList.map (·.id) = (List.range' n t.toList.length).map Int.ofNat
  | _, [] => rfl
  | n, (nt, rs) :: t => by
    rw [renumber, toList_cons, toList_cons, List.map_append, map_id_numbered, map_id_renumber, List.length_append,
      List.length_map, ← List.map_append, ← List.range'_append]
    simp

/-! ## The rules of a nonterminal -/

theorem rules_eq_nil {t : RuleTable W} {s : String} (h : ∀ s' ∈ t.map (·.1), s < s') : t.rules s = [] := by
  rcases rules_eq_nil_or_mem t s with hs | hs
  · exact hs
  · exact absurd (h s (List.mem_map_of_mem hs)) (lt_irrefl s)

/-- A rule goes to the end of the rules of its nonterminal, and the rules of the others stay. -/
theorem rules_insert (r : Rule W) (s : String) : ∀ {t : RuleTable W}, (t.map (·.1)).Pairwise (· < ·) →
    (insert r t).rules s = t.rules s ++ [r].filter fun r => r.nonterminal == s
  | [], _ => by
    by_cases hs : r.nonterminal = s <;> simp [insert, rules, hs]
  | (nt, rs) :: t, h => by
    obtain ⟨hlt, htail⟩ := List.pairwise_cons.mp h
    unfold insert
    by_cases h₁ : nt = r.nonterminal
    · by_cases hs : nt = s <;> simp [rules, ← h₁, hs]
    by_cases h₂ : r.nonterminal < nt
    · rw [if_neg (by simpa using h₁), if_pos h₂]
      by_cases hs : r.nonterminal = s
      · -- a nonterminal in front of all groups has had no rules
        have hnone : rules ((nt, rs) :: t) s = [] := by
          refine rules_eq_nil fun s' hs' => ?_
          rcases List.mem_cons.mp hs' with rfl | hs'
          · exact hs ▸ h₂
          · exact hs ▸ lt_trans h₂ (hlt s' hs')
        rw [hnone]
        simp [rules, hs]
      · simp [rules, hs]
    · rw [if_neg (by simpa using h₁), if_neg h₂]
      by_cases hs : nt = s
      · have hne : r.nonterminal ≠ s := fun h => h₁ (hs.trans h.symm)
        simp [rules, hs, hne]
      · rw [rules, rules, if_neg (by simpa using hs), if_neg (by simpa using hs), rules_insert r s htail]

/-- The rules of a nonterminal stand in the order in which they were added. -/
theorem rules_insertAll (s : String) : ∀ (n : Nat) (ps : List (Production W)) {t : RuleTable W},
    (t.map (·.1)).Pairwise (· < ·) →
      (insertAll n ps t).rules s = t.rules s ++ (numbered n ps).filter fun r => r.nonterminal == s
  | _, [], _, _ => (List.append_nil _).symm
  | n, p :: ps, t, h => by
    rw [insertAll, rules_insertAll s (n + 1) ps (ascending_insert _ h), rules_insert _ s h, List.append_assoc,
      ← List.filter_append, numbered]
    rfl

theorem toList_insert_perm (r : Rule W) : ∀ t : RuleTable W, (insert r t).toList.Perm (t.toList ++ [r])
  | [] => by simp [insert, toList]
  | (nt, rs) :: t => by
    have ih := toList_insert_perm r t
    unfold insert
    by_cases h₁ : nt = r.nonterminal
    · rw [if_pos (by simpa using h₁), toList_cons, toList_cons, List.append_assoc, List.append_assoc]
      exact List.perm_append_comm.append_left rs
    rw [if_neg (by simpa using h₁)]
    by_cases h₂ : r.nonterminal < nt
    · rw [if_pos h₂, toList_cons]
      exact List.perm_append_comm
    · rw [if_neg h₂, toList_cons, toList_cons, List.append_assoc]
      exact ih.append_left rs

/-- All rules are those that have been added, in some order. -/
theorem toList_insertAll_perm : ∀ (n : Nat) (ps : List (Production W)) (t : RuleTable W),
    (insertAll n ps t).toList.Perm (t.toList ++ numbered n ps)
  | _, [], t => by rw [insertAll, numbered, List.append_nil]
  | n, p :: ps, t => by
    rw [insertAll, numbered, List.append_cons]
    exact (toList_insertAll_perm (n + 1) ps _).trans ((toList_insert_perm _ t).append_right _)

/-! ## Groups -/

/-- A rule of the last group goes to the end of it. -/
theorem insert_append_last {r : Rule W} (rs : List (Rule W)) : ∀ {t : RuleTable W},
    (∀ e ∈ t, e.1 < r.nonterminal) → insert r (t ++ [(r.nonterminal, rs)]) = t ++ [(r.nonterminal, rs ++ [r])]
  | [], _ => by simp [insert]
  | (nt, rs') :: t, h => by
    have hlt : nt < r.nonterminal := h _ List.mem_cons_self
    have ih := insert_append_last (r := r) rs fun e he => h e (List.mem_cons_of_mem _ he)
    rw [List.cons_append, insert, if_neg (by simpa using hlt.ne), if_neg (not_lt.mpr hlt.le), ih, List.cons_append]

/-- A rule of a nonterminal beyond all others makes a new last group. -/
theorem insert_append {r : Rule W} : ∀ {t : RuleTable W}, (∀ e ∈ t, e.1 < r.nonterminal) →
    insert r t = t ++ [(r.nonterminal, [r])]
  | [], _ => rfl
  | (nt, rs') :: t, h => by
    have hlt : nt < r.nonterminal := h _ List.mem_cons_self
    have ih := insert_append (r := r) fun e he => h e (List.mem_cons_of_mem _ he)
    rw [insert, if_neg (by simpa using hlt.ne), if_neg (not_lt.mpr hlt.le), ih, List.cons_append]

theorem insertAll_append : ∀ (n : Nat) (ps qs : List (Production W)) (t : RuleTable W),
    insertAll n (ps ++ qs) t = insertAll (n + ps.length) qs (insertAll n ps t)
  | _, [], _, _ => rfl
  | n, p :: ps, qs, t => by
    rw [List.cons_append, insertAll, insertAll_append (n + 1) ps, insertAll, List.length_cons]
    congr 1
    omega

theorem insertAll_last {nt : String} : ∀ (n : Nat) {ps : List (Production W)} {rs : List (Rule W)} {t : RuleTable W},
    (∀ p ∈ ps, p.nonterminal = nt) → (∀ e ∈ t, e.1 < nt) →
      insertAll n ps (t ++ [(nt, rs)]) = t ++ [(nt, rs ++ numbered n ps)]
  | _, [], rs, t, _, _ => by rw [insertAll, numbered, List.append_nil]
  | n, p :: ps, rs, t, hps, ht => by
    obtain rfl := hps p List.mem_cons_self
    have hinsert := insert_append_last (r := { p with id := n }) rs ht
    rw [insertAll, hinsert, insertAll_last (n + 1) (fun q hq => hps q (List.mem_cons_of_mem _ hq)) ht, numbered,
      List.append_assoc]
    rfl

/-- The productions of a group make a new last group. -/
theorem insertAll_group {e : String × List (Rule W)} (he : IsGroup e) (n : Nat) {t : RuleTable W}
    (ht : ∀ e' ∈ t, e'.1 < e.1) :
    insertAll n (e.2.map (·.toProduction)) t = t ++ [(e.1, numbered n (e.2.map (·.toProduction)))] := by
  obtain ⟨nt, rs⟩ := e
  cases rs with
  | nil => exact absurd rfl he.nonempty
  | cons r rs =>
    have howned : ∀ p ∈ (r :: rs).map (·.toProduction), p.nonterminal = nt := by
      intro p hp
      obtain ⟨r', hr', rfl⟩ := List.mem_map.mp hp
      exact he.owned r' hr'
    obtain rfl : r.nonterminal = nt := he.owned r List.mem_cons_self
    have hinsert := insert_append (r := { r with id := n }) ht
    rw [List.map_cons, insertAll, hinsert,
      insertAll_last (n + 1) (fun p hp => howned p (List.mem_cons_of_mem _ hp)) ht]
    rfl

/-- The productions of a table, added in their order, make the same table with other ids. -/
theorem insertAll_eq : ∀ (n : Nat) {t front : RuleTable W}, Grouped t → (∀ e ∈ t, ∀ e' ∈ front, e'.1 < e.1) →
    insertAll n (t.toList.map (·.toProduction)) front = front ++ renumber n t
  | n, [], front, _, _ => by rw [renumber, List.append_nil]; rfl
  | n, (nt, rs) :: t, front, ht, hfront => by
    have hgroup := insertAll_group (ht.isGroup _ List.mem_cons_self) n (hfront _ List.mem_cons_self)
    rw [toList_cons, List.map_append, insertAll_append, hgroup, List.length_map, insertAll_eq _ ht.tail, renumber,
      List.append_assoc]
    · rfl
    · intro e he e' he'
      rcases List.mem_append.mp he' with he' | he'
      · exact hfront e (List.mem_cons_of_mem _ he) e' he'
      · rw [List.mem_singleton.mp he']
        exact ht.head_lt e he

end RuleTable

end ScopedGrammar

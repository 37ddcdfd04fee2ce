import Mathlib.Data.List.Sort
import ScopedGrammar.Proofs.Insertion

/-!
# The rules of a grammar as one list

A `Ledger` is a list of rules in the order in which they were added, with a counter for ids. Additions, removals,
changes of weight and grammar texts do to a grammar what they do to a ledger (`Grammar.store_refines_ledger`): they give
the same answers, and all that can be looked up in the grammar can be read off the list (`Grammar.Shows`). One operation
keeps the correspondence (`Keeps.perform`), and the run lemma follows by induction on the operations. No id is given
twice, also not after a removal (`Ledger.Continues`).
-/

namespace ScopedGrammar

variable {W : Type}

/-! ## Operations -/

/-- An operation that changes the rules. -/
inductive StoreOp (W : Type) where
  | add (p : Production W)
  /-- Removes the rule that is the same alternative as the one given. -/
  | remove (r : Rule W)
  | setWeight (id : Int) (weight : W)
  | read (text : List Char)

/-- What an operation that changes the rules answers. -/
inductive StoreAnswer (W : Type) where
  | added (result : Except (GrammarError W) (Rule W))
  | removed (result : Option (Rule W))
  | reweighed (result : Except (GrammarError W) Unit)
  | read (result : Except (ClauseError W) Unit)

/-- Performs operations one after another, and gives their answers with the last state. -/
def StoreOp.run {σ : Type} (perform : σ → StoreOp W → StoreAnswer W × σ) :
    σ → List (StoreOp W) → List (StoreAnswer W) × σ
  | s, [] => ([], s)
  | s, op :: ops =>
    let first := perform s op
    let rest := run perform first.2 ops
    (first.1 :: rest.1, rest.2)

theorem StoreOp.run_append {σ : Type} (perform : σ → StoreOp W → StoreAnswer W × σ) :
    ∀ (s : σ) (ops more : List (StoreOp W)),
      (run perform s (ops ++ more)).2 = (run perform (run perform s ops).2 more).2
  | _, [], _ => rfl
  | s, op :: ops, more => run_append perform (perform s op).2 ops more

/-- Performs an operation on a grammar, which stays as it is if the operation is refused. -/
def Grammar.perform [Arith W] [Numeral W] (g : Grammar W) : StoreOp W → StoreAnswer W × Grammar W
  | .add p =>
    match g.add p with
    | .error e => (.added (.error e), g)
    | .ok (r, g') => (.added (.ok r), g')
  | .remove r =>
    match g.remove? r.nonterminal r.id with
    | none => (.removed none, g)
    | some (r', g') => (.removed (some r'), g')
  | .setWeight id weight =>
    match g.setWeight id weight with
    | .error e => (.reweighed (.error e), g)
    | .ok g' => (.reweighed (.ok ()), g')
  | .read text =>
    let (result, g') := g.readClauses text
    (.read result, g')

/-! ## Ledgers -/

/-- The productions of the clauses up to the first one that cannot be read or is not valid, with the error there. -/
def Reader.accepted [Arith W] [Numeral W] : Nat → Reader W → Except (ClauseError W) Unit × List (Production W)
  | 0, _ => (.ok (), [])
  | fuel + 1, r =>
    match r.current with
    | .eof => (.ok (), [])
    | _ =>
      match Reader.production.run.run r with
      | (.error e, _) => (.error e, [])
      | (.ok p, r') =>
        match p.validate with
        | .error e => (.error (.refused e), [])
        | .ok () =>
          let (result, ps) := accepted fuel r'
          (result, p :: ps)

/-- The productions that a grammar text adds. -/
def acceptedProductions [Arith W] [Numeral W] (text : List Char) : Except (ClauseError W) Unit × List (Production W) :=
  match Reader.ofText text with
  | .error e => (.error e, [])
  | .ok r => Reader.accepted (text.length + 1) r

/-- Rules in the order in which they were added, and the id of the next one. -/
structure Ledger (W : Type) where
  rules : List (Rule W)
  next : Nat

namespace Ledger

/-- No rule has been added. -/
def empty : Ledger W := ⟨[], 0⟩

/-- Puts productions at the end, under the next ids. -/
def append (l : Ledger W) (ps : List (Production W)) : Ledger W :=
  ⟨l.rules ++ RuleTable.numbered l.next ps, l.next + ps.length⟩

/-- Performs an operation on a ledger. -/
def perform [Arith W] [Numeral W] (l : Ledger W) : StoreOp W → StoreAnswer W × Ledger W
  | .add p =>
    match p.validate with
    | .error e => (.added (.error e), l)
    | .ok () => (.added (.ok { p with id := l.next }), l.append [p])
  | .remove r => (.removed (l.rules.find? (· == r)), { l with rules := l.rules.filter (!· == r) })
  | .setWeight id weight =>
    match l.rules.find? (·.id == id) with
    | none => (.reweighed (.error (.unknownRule id)), l)
    | some r =>
      if Arith.isPositive weight then
        (.reweighed (.ok ()), { l with rules := l.rules.map (RuleTable.reweigh id weight) })
      else (.reweighed (.error (.invalidWeight .generation weight r.name r.nonterminal)), l)
  | .read text => (.read (acceptedProductions text).1, l.append (acceptedProductions text).2)

/-- Ids go up from zero and stay below the next one. -/
structure Ordered (l : Ledger W) : Prop where
  ascending : l.rules.Pairwise fun a b => a.id < b.id
  nonneg : ∀ r ∈ l.rules, 0 ≤ r.id
  belowNext : ∀ r ∈ l.rules, r.id < l.next

/-- What operations can make of a ledger: ids only go up, and a rule with an id that had been given before was already
there, with some weight. -/
structure Continues (l l' : Ledger W) : Prop where
  next : l.next ≤ l'.next
  old : ∀ r ∈ l'.rules, r.id < l.next → ∃ r₀ ∈ l.rules, r = { r₀ with weight := r.weight }

end Ledger

/-! ## Look-up -/

/-- By nonterminal, in code point order. -/
def Rule.precedes (a b : Rule W) : Bool := decide (a.nonterminal ≤ b.nonterminal)

/-- All that can be looked up in a grammar is read off a ledger. -/
structure Grammar.Shows [Arith W] [Numeral W] (g : Grammar W) (l : Ledger W) : Prop where
  nextId : g.nextId = l.next
  rules : ∀ nt, g.rules nt = l.rules.filter fun r => r.nonterminal == nt
  rule : ∀ id, g.rule? id = l.rules.find? (·.id == id)
  sorted : g.nonterminals.Pairwise (· < ·)
  nonterminals : ∀ s, s ∈ g.nonterminals ↔ ∃ r ∈ l.rules, r.nonterminal = s
  isNonterminal : ∀ s, g.isNonterminal s = l.rules.any fun r => r.nonterminal == s
  allRules : g.allRules = l.rules.mergeSort Rule.precedes
  print : g.print = (l.rules.mergeSort Rule.precedes).flatMap fun r => r.print ++ ['\n']
  ruleCount : g.ruleCount = l.rules.length
  isEmpty : g.isEmpty = l.rules.isEmpty

/-! ## Lists that are sorted by nonterminal -/

namespace Rule

theorem precedes_iff {a b : Rule W} : a.precedes b = true ↔ a.nonterminal ≤ b.nonterminal := decide_eq_true_iff

theorem precedes_trans (a b c : Rule W) (hab : a.precedes b = true) (hbc : b.precedes c = true) : a.precedes c = true :=
  precedes_iff.mpr ((precedes_iff.mp hab).trans (precedes_iff.mp hbc))

theorem precedes_total (a b : Rule W) : (a.precedes b || b.precedes a) = true := by
  simp only [precedes, Bool.or_eq_true, decide_eq_true_eq]
  exact le_total _ _

end Rule

/-- Sorting leaves the rules of a nonterminal in their order. -/
theorem filter_mergeSort (rs : List (Rule W)) (s : String) :
    (rs.mergeSort Rule.precedes).filter (·.nonterminal == s) = rs.filter (·.nonterminal == s) := by
  have hown : ∀ r ∈ rs.filter (·.nonterminal == s), r.nonterminal = s := fun r hr => by
    simpa using (List.mem_filter.mp hr).2
  have hsorted : (rs.filter (·.nonterminal == s)).Pairwise fun a b => a.precedes b = true :=
    List.pairwise_iff_forall_sublist.mpr fun hab => Rule.precedes_iff.mpr
      ((hown _ (hab.subset (by simp))).trans (hown _ (hab.subset (by simp))).symm).le
  have hsub := (List.sublist_mergeSort Rule.precedes_trans Rule.precedes_total hsorted List.filter_sublist).filter
    (·.nonterminal == s)
  simp only [List.filter_filter, Bool.and_self] at hsub
  exact (hsub.eq_of_length ((List.mergeSort_perm rs _).filter _).length_eq.symm).symm

/-- In sorted lists that have the same rules for every nonterminal, the first rules have the same nonterminal. -/
theorem nonterminal_le_of_filter_eq {r r' : Rule W} {rs rs' : List (Rule W)}
    (hrs' : (r' :: rs').Pairwise fun a b => a.nonterminal ≤ b.nonterminal)
    (h : (r :: rs).filter (·.nonterminal == r.nonterminal) = (r' :: rs').filter (·.nonterminal == r.nonterminal)) :
    r'.nonterminal ≤ r.nonterminal := by
  have hmem : r ∈ (r' :: rs').filter (·.nonterminal == r.nonterminal) := h ▸ by simp
  rcases List.mem_cons.mp (List.mem_of_mem_filter hmem) with rfl | hr
  · exact le_refl _
  · exact (List.pairwise_cons.mp hrs').1 r hr

/-- Two sorted lists with the same rules for every nonterminal, in the same order, are the same list. -/
theorem eq_of_filter_eq : ∀ {rs rs' : List (Rule W)}, rs.Pairwise (fun a b => a.nonterminal ≤ b.nonterminal) →
    rs'.Pairwise (fun a b => a.nonterminal ≤ b.nonterminal) →
    (∀ s, rs.filter (·.nonterminal == s) = rs'.filter (·.nonterminal == s)) → rs = rs'
  | [], [], _, _, _ => rfl
  | [], r :: rs', _, _, h => by simpa using h r.nonterminal
  | r :: rs, [], _, _, h => by simpa using h r.nonterminal
  | r :: rs, r' :: rs', hrs, hrs', h => by
    have hnt : r'.nonterminal = r.nonterminal := le_antisymm (nonterminal_le_of_filter_eq hrs' (h r.nonterminal))
      (nonterminal_le_of_filter_eq hrs (h r'.nonterminal).symm)
    have hheads := h r.nonterminal
    simp only [List.filter_cons, hnt, beq_self_eq_true, if_true, List.cons.injEq] at hheads
    obtain ⟨rfl, -⟩ := hheads
    refine congrArg _ (eq_of_filter_eq hrs.of_cons hrs'.of_cons fun s => ?_)
    have htails := h s
    simp only [List.filter_cons] at htails
    split at htails
    · exact (List.cons.inj htails).2
    · exact htails

/-- Lists with the same elements agree on the one that passes a test, if only one does. -/
theorem find?_eq_of_mem_iff {α : Type} {p : α → Bool} {as bs : List α} (hmem : ∀ a, a ∈ as ↔ a ∈ bs)
    (hone : ∀ a ∈ as, ∀ b ∈ as, p a = true → p b = true → a = b) : as.find? p = bs.find? p := by
  cases ha : as.find? p with
  | none =>
    refine (List.find?_eq_none.mpr fun b hb => ?_).symm
    exact List.find?_eq_none.mp ha b ((hmem b).mpr hb)
  | some a =>
    cases hb : bs.find? p with
    | none =>
      have hbelongs := (hmem a).mp (List.mem_of_find?_eq_some ha)
      exact absurd (List.find?_some ha) (List.find?_eq_none.mp hb a hbelongs)
    | some b =>
      exact congrArg some (hone a (List.mem_of_find?_eq_some ha) b ((hmem b).mpr (List.mem_of_find?_eq_some hb))
        (List.find?_some ha) (List.find?_some hb))

/-! ## Tables -/

namespace RuleTable

/-- The nonterminal of the first group has no rules in the others. -/
theorem Grouped.rules_tail {t : RuleTable W} {nt : String} {rs : List (Rule W)} (h : Grouped ((nt, rs) :: t)) :
    rules t nt = [] := by
  refine rules_eq_nil fun s hs => ?_
  obtain ⟨e, he, rfl⟩ := List.mem_map.mp hs
  exact h.head_lt e he

/-- The rules of a nonterminal are those of the table that have it. -/
theorem Grouped.filter_toList : ∀ {t : RuleTable W}, Grouped t → ∀ s,
    t.toList.filter (·.nonterminal == s) = t.rules s
  | [], _, _ => rfl
  | (nt, rs) :: t, h, s => by
    have howned : ∀ r ∈ rs, r.nonterminal = nt := (h.isGroup _ List.mem_cons_self).owned
    rw [toList_cons, List.filter_append, h.tail.filter_toList, rules]
    by_cases hs : nt = s
    · rw [if_pos (by simpa using hs), ← hs, h.rules_tail, List.append_nil]
      exact List.filter_eq_self.mpr fun r hr => by simpa using howned r hr
    · rw [if_neg (by simpa using hs), List.filter_eq_nil_iff.mpr, List.nil_append]
      exact fun r hr => by simpa [howned r hr] using hs

/-- The rules of a table stand in the order of their nonterminals. -/
theorem Grouped.sorted_toList : ∀ {t : RuleTable W}, Grouped t →
    t.toList.Pairwise fun a b => a.nonterminal ≤ b.nonterminal
  | [], _ => .nil
  | (nt, rs) :: t, h => by
    have howned : ∀ r ∈ rs, r.nonterminal = nt := (h.isGroup _ List.mem_cons_self).owned
    rw [toList_cons]
    refine List.pairwise_append.mpr ⟨?_, h.tail.sorted_toList, fun a ha b hb => ?_⟩
    · exact List.pairwise_iff_forall_sublist.mpr fun hab =>
        ((howned _ (hab.subset (by simp))).trans (howned _ (hab.subset (by simp))).symm).le
    · obtain ⟨e, he, hb⟩ := mem_toList.mp hb
      rw [howned a ha, (h.tail.isGroup e he).owned b hb]
      exact (h.head_lt e he).le

/-- In a list in which ids go up, one rule at most has a given id. -/
theorem eraseP_id_eq_filter (id : Int) : ∀ {rs : List (Rule W)}, rs.Pairwise (fun a b => a.id < b.id) →
    rs.eraseP (·.id == id) = rs.filter (!·.id == id)
  | [], _ => rfl
  | r :: rs, h => by
    obtain ⟨hlt, hrs⟩ := List.pairwise_cons.mp h
    by_cases hr : r.id = id
    · rw [List.eraseP_cons_of_pos (by simpa using hr), List.filter_cons_of_neg (by simpa using hr)]
      exact (List.filter_eq_self.mpr fun r' hr' => by simpa using (hr ▸ hlt r' hr').ne').symm
    · rw [List.eraseP_cons_of_neg (by simpa using hr), List.filter_cons_of_pos (by simpa using hr),
        eraseP_id_eq_filter id hrs]

/-- A removal takes the rule with an id from the rules of its nonterminal, and leaves the others. -/
theorem rules_erase (nt : String) (id : Int) (s : String) : ∀ {t : RuleTable W}, Grouped t →
    (erase nt id t).rules s = if nt == s then (t.rules s).filter (!·.id == id) else t.rules s
  | [], _ => by simp [erase, rules]
  | (nt', rs) :: t, h => by
    have hkept := eraseP_id_eq_filter id (h.isGroup _ List.mem_cons_self).byAge
    unfold erase
    by_cases h₁ : nt' = nt
    · subst h₁
      rw [if_pos (by simp), hkept]
      by_cases hs : nt' = s
      · subst hs
        simp only [rules, beq_self_eq_true, if_true]
        split
        · rename_i hempty
          rw [h.rules_tail, List.isEmpty_iff.mp hempty]
        · simp [rules]
      · simp only [rules, beq_eq_false_iff_ne.mpr hs, Bool.false_eq_true, if_false]
        split
        · rfl
        · simp [rules, hs]
    · rw [if_neg (by simpa using h₁), rules, rules, rules_erase nt id s h.tail]
      by_cases hs : nt' = s
      · have hne : nt ≠ s := fun hnt => h₁ (hs.trans hnt.symm)
        simp [hs, hne]
      · simp [hs]

theorem rules_setWeight (id : Int) (weight : W) (s : String) : ∀ t : RuleTable W,
    (t.setWeight id weight).rules s = (t.rules s).map (reweigh id weight)
  | [] => rfl
  | (nt, rs) :: t => by
    have ih := rules_setWeight id weight s t
    rw [setWeight_eq] at ih ⊢
    rw [List.map_cons, rules, rules]
    split
    · rfl
    · exact ih

end RuleTable

/-! ## Runs of ledgers -/

namespace RuleTable

theorem mem_numbered {r : Rule W} : ∀ {n : Nat} {ps : List (Production W)}, r ∈ numbered n ps →
    n ≤ r.id ∧ r.id < n + ps.length
  | _, [], h => by cases h
  | n, p :: ps, h => by
    rw [List.length_cons]
    rcases List.mem_cons.mp h with rfl | h
    · show (n : Int) ≤ n ∧ (n : Int) < _
      omega
    · have := mem_numbered h
      omega

theorem pairwise_numbered : ∀ (n : Nat) (ps : List (Production W)), (numbered n ps).Pairwise fun a b => a.id < b.id
  | _, [] => .nil
  | n, p :: ps => List.pairwise_cons.mpr ⟨fun r hr => by
      have := (mem_numbered hr).1
      show (n : Int) < _
      omega, pairwise_numbered (n + 1) ps⟩

end RuleTable

namespace Ledger

variable {l l' l'' : Ledger W}

theorem ordered_empty : (empty : Ledger W).Ordered := ⟨.nil, by simp [empty], by simp [empty]⟩

theorem append_nil (l : Ledger W) : l.append [] = l := by simp [append, RuleTable.numbered]

theorem append_cons (l : Ledger W) (p : Production W) (ps : List (Production W)) :
    l.append (p :: ps) = (l.append [p]).append ps := by
  simp only [append, RuleTable.numbered, List.length_cons, List.length_nil, List.append_assoc, List.singleton_append,
    Nat.zero_add, mk.injEq, true_and]
  omega

theorem Ordered.append (h : l.Ordered) (ps : List (Production W)) : (l.append ps).Ordered := by
  refine ⟨List.pairwise_append.mpr ⟨h.ascending, RuleTable.pairwise_numbered _ _, fun a ha b hb => ?_⟩,
    fun r hr => ?_, fun r hr => ?_⟩
  · exact (h.belowNext a ha).trans_le (RuleTable.mem_numbered hb).1
  · rcases List.mem_append.mp hr with hr | hr
    · exact h.nonneg r hr
    · exact (Int.natCast_nonneg _).trans (RuleTable.mem_numbered hr).1
  · show r.id < ((l.next + ps.length : Nat) : Int)
    rcases List.mem_append.mp hr with hr | hr
    · have := h.belowNext r hr
      omega
    · have := (RuleTable.mem_numbered hr).2
      omega

theorem Ordered.filter (h : l.Ordered) (p : Rule W → Bool) : Ordered { l with rules := l.rules.filter p } :=
  ⟨h.ascending.sublist List.filter_sublist, fun r hr => h.nonneg r (List.mem_of_mem_filter hr),
    fun r hr => h.belowNext r (List.mem_of_mem_filter hr)⟩

theorem Ordered.reweigh (h : l.Ordered) (id : Int) (weight : W) :
    Ordered { l with rules := l.rules.map (RuleTable.reweigh id weight) } := by
  refine ⟨List.pairwise_map.mpr (by simpa using h.ascending), fun r hr => ?_, fun r hr => ?_⟩ <;>
    obtain ⟨r', hr', rfl⟩ := List.mem_map.mp hr <;> rw [RuleTable.reweigh_id]
  · exact h.nonneg r' hr'
  · exact h.belowNext r' hr'

/-- The rules of a ledger have distinct ids. -/
theorem Ordered.eq_of_id_eq (h : l.Ordered) {r r' : Rule W} (hr : r ∈ l.rules) (hr' : r' ∈ l.rules)
    (hid : r.id = r'.id) : r = r' := by
  have hids : (l.rules.map (·.id)).Nodup := List.pairwise_map.mpr (h.ascending.imp fun hlt => hlt.ne)
  exact List.inj_on_of_nodup_map hids hr hr' hid

theorem Continues.refl (l : Ledger W) : l.Continues l := ⟨le_refl _, fun r hr _ => ⟨r, hr, rfl⟩⟩

theorem Continues.trans (h : l.Continues l') (h' : l'.Continues l'') : l.Continues l'' := by
  refine ⟨h.next.trans h'.next, fun r hr hid => ?_⟩
  have hnext : (l.next : Int) ≤ l'.next := Int.ofNat_le.mpr h.next
  obtain ⟨r', hr', he⟩ := h'.old r hr (hid.trans_le hnext)
  have hid' : r'.id = r.id := by rw [he]
  obtain ⟨r₀, hr₀, he₀⟩ := h.old r' hr' (hid' ▸ hid)
  refine ⟨r₀, hr₀, ?_⟩
  rw [he, he₀]

theorem continues_append (l : Ledger W) (ps : List (Production W)) : l.Continues (l.append ps) := by
  refine ⟨Nat.le_add_right _ _, fun r hr hid => ?_⟩
  rcases List.mem_append.mp hr with hr | hr
  · exact ⟨r, hr, rfl⟩
  · exact absurd (RuleTable.mem_numbered hr).1 (not_le.mpr hid)

theorem continues_filter (l : Ledger W) (p : Rule W → Bool) : l.Continues { l with rules := l.rules.filter p } :=
  ⟨le_refl _, fun r hr _ => ⟨r, List.mem_of_mem_filter hr, rfl⟩⟩

theorem continues_reweigh (l : Ledger W) (id : Int) (weight : W) :
    l.Continues { l with rules := l.rules.map (RuleTable.reweigh id weight) } := by
  refine ⟨le_refl _, fun r hr _ => ?_⟩
  obtain ⟨r', hr', rfl⟩ := List.mem_map.mp hr
  refine ⟨r', hr', ?_⟩
  unfold RuleTable.reweigh
  split <;> rfl

variable [Arith W] [Numeral W]

/-- What an operation can do to a ledger. -/
theorem perform_cases (l : Ledger W) (op : StoreOp W) :
    (l.perform op).2 = l ∨ (∃ ps, (l.perform op).2 = l.append ps) ∨
      (∃ p, (l.perform op).2 = { l with rules := l.rules.filter p }) ∨
      ∃ id weight, (l.perform op).2 = { l with rules := l.rules.map (RuleTable.reweigh id weight) } := by
  cases op with
  | add p =>
    simp only [perform]
    split
    · exact Or.inl rfl
    · exact Or.inr (Or.inl ⟨[p], rfl⟩)
  | remove r => exact Or.inr (Or.inr (Or.inl ⟨_, rfl⟩))
  | setWeight id weight =>
    simp only [perform]
    split
    · exact Or.inl rfl
    · split
      · exact Or.inr (Or.inr (Or.inr ⟨id, weight, rfl⟩))
      · exact Or.inl rfl
  | read text => exact Or.inr (Or.inl ⟨_, rfl⟩)

theorem continues_perform (l : Ledger W) (op : StoreOp W) : l.Continues (l.perform op).2 := by
  rcases l.perform_cases op with he | ⟨ps, he⟩ | ⟨p, he⟩ | ⟨id, weight, he⟩ <;> rw [he]
  · exact .refl l
  · exact l.continues_append ps
  · exact l.continues_filter p
  · exact l.continues_reweigh id weight

/-- Operations on a ledger never give an id again. -/
theorem continues_run : ∀ (ops : List (StoreOp W)) (l : Ledger W), l.Continues (StoreOp.run perform l ops).2
  | [], l => .refl l
  | op :: ops, l => (l.continues_perform op).trans (continues_run ops _)

end Ledger

/-! ## Grammars and ledgers -/

namespace Grammar

variable [Arith W] {g : Grammar W} {l : Ledger W}

/-- A well stored grammar has the rules of a ledger, those of every nonterminal in their order there. -/
structure Keeps (g : Grammar W) (l : Ledger W) : Prop where
  stored : g.WellStored
  ordered : l.Ordered
  nextId : g.nextId = l.next
  rules : ∀ nt, g.rules nt = l.rules.filter fun r => r.nonterminal == nt

/-- An invalid production is refused. -/
theorem add_of_validate_error {p : Production W} {e : GrammarError W} (h : p.validate = .error e) :
    g.add p = .error e := by
  unfold Grammar.add
  rw [h]
  rfl

namespace Keeps

theorem empty (config : Config W) : (Grammar.empty config).Keeps Ledger.empty :=
  ⟨(Built.empty config).wellStored, Ledger.ordered_empty, rfl, fun _ => rfl⟩

theorem allRules_eq (h : g.Keeps l) : g.allRules = l.rules.mergeSort Rule.precedes := by
  have hsorted : (l.rules.mergeSort Rule.precedes).Pairwise fun a b => a.nonterminal ≤ b.nonterminal :=
    (List.pairwise_mergeSort Rule.precedes_trans Rule.precedes_total l.rules).imp Rule.precedes_iff.mp
  refine eq_of_filter_eq h.stored.grouped.sorted_toList hsorted fun s => ?_
  rw [allRules, h.stored.grouped.filter_toList s, filter_mergeSort]
  exact h.rules s

theorem mem_allRules_iff (h : g.Keeps l) {r : Rule W} : r ∈ g.allRules ↔ r ∈ l.rules := by
  rw [h.allRules_eq]
  exact (List.mergeSort_perm _ _).mem_iff

theorem rule?_eq (h : g.Keeps l) (id : Int) : g.rule? id = l.rules.find? (·.id == id) := by
  refine find?_eq_of_mem_iff (fun r => h.mem_allRules_iff) fun a ha b hb hida hidb => ?_
  rw [beq_iff_eq] at hida hidb
  exact h.ordered.eq_of_id_eq (h.mem_allRules_iff.mp ha) (h.mem_allRules_iff.mp hb) (hida.trans hidb.symm)

theorem isNonterminal_iff (h : g.Keeps l) {s : String} :
    g.isNonterminal s = true ↔ ∃ r ∈ l.rules, r.nonterminal = s := by
  rw [h.stored.isNonterminal_iff, h.rules s, Ne, List.filter_eq_nil_iff]
  simp

theorem mem_nonterminals_iff (h : g.Keeps l) {s : String} :
    s ∈ g.nonterminals ↔ ∃ r ∈ l.rules, r.nonterminal = s := by
  rw [← h.isNonterminal_iff, isNonterminal, List.contains_iff_mem]

theorem isEmpty_eq (h : g.Keeps l) : g.isEmpty = l.rules.isEmpty := by
  rw [Bool.eq_iff_iff, isEmpty, List.isEmpty_iff, List.isEmpty_iff, List.eq_nil_iff_forall_not_mem,
    List.eq_nil_iff_forall_not_mem]
  constructor
  · intro hnone r hr
    obtain ⟨e, he, -⟩ := List.mem_map.mp (h.mem_nonterminals_iff.mpr ⟨r, hr, rfl⟩)
    exact hnone e he
  · intro hnone e he
    obtain ⟨r, hr, -⟩ := h.mem_nonterminals_iff.mp (List.mem_map_of_mem he)
    exact hnone r hr

/-- What a grammar shows is what its ledger says. -/
theorem shows [Numeral W] (h : g.Keeps l) : g.Shows l where
  nextId := h.nextId
  rules := h.rules
  rule := h.rule?_eq
  sorted := h.stored.grouped.ascending
  nonterminals _ := h.mem_nonterminals_iff
  isNonterminal s := by
    rw [Bool.eq_iff_iff, h.isNonterminal_iff, List.any_eq_true]
    simp
  allRules := h.allRules_eq
  print := by rw [print, h.allRules_eq]
  ruleCount := by rw [ruleCount, h.allRules_eq, List.length_mergeSort]
  isEmpty := h.isEmpty_eq

/-! ## One operation -/

/-- A production that is added to a grammar comes to the end of its ledger. -/
theorem add (h : g.Keeps l) {g' : Grammar W} {p : Production W} {r : Rule W} (hadd : g.add p = .ok (r, g')) :
    g'.Keeps (l.append [p]) := by
  refine ⟨h.stored.add hadd, h.ordered.append [p], ?_, fun s => ?_⟩
  all_goals obtain ⟨-, rfl, rfl⟩ := add_eq_ok hadd
  · exact congrArg (· + 1) h.nextId
  · have hrules : (g.table.insert _).rules s = g.rules s ++ _ :=
      RuleTable.rules_insert { p with id := g.nextId } s h.stored.grouped.ascending
    show (g.table.insert _).rules s = _
    rw [hrules, h.rules, h.nextId, ← List.filter_append]
    rfl

/-- A rule that is removed from a grammar goes from its ledger, and the others stay. -/
theorem remove (h : g.Keeps l) {g' : Grammar W} {r r' : Rule W}
    (hremove : g.remove? r.nonterminal r.id = some (r', g')) :
    g'.Keeps { l with rules := l.rules.filter (!· == r) } := by
  refine ⟨h.stored.remove hremove, h.ordered.filter _, ?_, fun s => ?_⟩
  all_goals
    obtain ⟨_, -, hg'⟩ := Option.map_eq_some_iff.mp hremove
    cases hg'
  · exact h.nextId
  · have hrules : (g.table.erase r.nonterminal r.id).rules s = _ :=
      RuleTable.rules_erase r.nonterminal r.id s h.stored.grouped
    have hold : g.table.rules s = _ := h.rules s
    show (g.table.erase r.nonterminal r.id).rules s = _
    rw [hrules, hold, List.filter_filter, List.filter_filter]
    split
    · rename_i hs
      rw [beq_iff_eq] at hs
      refine List.filter_congr fun a _ => ?_
      show (!a.id == r.id && a.nonterminal == s) =
        (a.nonterminal == s && !(a.id == r.id && a.nonterminal == r.nonterminal))
      rw [hs]
      cases a.nonterminal == s <;> simp
    · rename_i hs
      refine List.filter_congr fun a _ => ?_
      show _ = (a.nonterminal == s && !(a.id == r.id && a.nonterminal == r.nonterminal))
      by_cases ha : a.nonterminal = s
      · have hne : a.nonterminal ≠ r.nonterminal := fun he => hs (by simpa using he.symm.trans ha)
        simp [hne]
      · simp [ha]

theorem setWeight (h : g.Keeps l) {g' : Grammar W} {id : Int} {weight : W} (hset : g.setWeight id weight = .ok g') :
    g'.Keeps { l with rules := l.rules.map (RuleTable.reweigh id weight) } := by
  refine ⟨h.stored.setWeight hset, h.ordered.reweigh id weight, ?_, fun s => ?_⟩
  all_goals
    unfold Grammar.setWeight at hset
    split at hset
    · cases hset
    split at hset
    case isFalse => cases hset
    cases hset
  · exact h.nextId
  · have hold : g.table.rules s = _ := h.rules s
    show (g.table.setWeight id weight).rules s = _
    rw [RuleTable.rules_setWeight, hold, List.filter_map]
    congr 1
    refine List.filter_congr fun a _ => ?_
    simp

/-- Reading clauses adds the productions that are accepted, up to the error that is met. -/
theorem addClauses [Numeral W] : ∀ (fuel : Nat) {g : Grammar W} {l : Ledger W} (r : Reader W), g.Keeps l →
    (g.addClauses fuel r).1 = (Reader.accepted fuel r).1 ∧
      (g.addClauses fuel r).2.Keeps (l.append (Reader.accepted fuel r).2)
  | 0, g, l, _, h => ⟨rfl, l.append_nil.symm ▸ h⟩
  | fuel + 1, g, l, r, h => by
    have hstop : g.Keeps (l.append []) := l.append_nil.symm ▸ h
    by_cases hcurrent : r.current = .eof
    · simp only [Grammar.addClauses, Reader.accepted, hcurrent]
      exact ⟨trivial, hstop⟩
    rcases hrun : Reader.production.run.run r with ⟨e | p, r'⟩
    · simp only [Grammar.addClauses, Reader.accepted, hrun]
      exact ⟨trivial, hstop⟩
    cases hvalid : p.validate with
    | error e =>
      simp only [Grammar.addClauses, Reader.accepted, hrun, hvalid, add_of_validate_error hvalid]
      exact ⟨trivial, hstop⟩
    | ok u =>
      have hadd := add_of_validate (g := g) hvalid
      have hothers := addClauses fuel r' (h.add hadd)
      rw [← l.append_cons] at hothers
      simp only [Grammar.addClauses, Reader.accepted, hrun, hvalid, hadd]
      exact hothers

/-- A grammar text adds the productions that are accepted. -/
theorem readClauses [Numeral W] (h : g.Keeps l) (text : List Char) :
    (g.readClauses text).1 = (acceptedProductions text).1 ∧
      (g.readClauses text).2.Keeps (l.append (acceptedProductions text).2) := by
  unfold Grammar.readClauses acceptedProductions
  cases Reader.ofText (W := W) text with
  | error e => exact ⟨rfl, l.append_nil.symm ▸ h⟩
  | ok r => exact addClauses (text.length + 1) r h

/-- The rule of a nonterminal with an id is found as the one that is the same alternative. -/
theorem find?_rules (h : g.Keeps l) (r : Rule W) :
    (g.rules r.nonterminal).find? (·.id == r.id) = l.rules.find? (· == r) := by
  rw [h.rules, List.find?_filter]
  congr 1
  funext a
  show _ = (a.id == r.id && a.nonterminal == r.nonterminal)
  rw [Bool.eq_iff_iff]
  simp [and_comm]

variable [Numeral W]

/-- **An operation on a grammar does what it does to its ledger.** -/
theorem perform (h : g.Keeps l) (op : StoreOp W) :
    (g.perform op).1 = (l.perform op).1 ∧ (g.perform op).2.Keeps (l.perform op).2 := by
  cases op with
  | add p =>
    cases hvalid : p.validate with
    | error e =>
      simp only [Grammar.perform, Ledger.perform, hvalid, add_of_validate_error hvalid]
      exact ⟨trivial, h⟩
    | ok u =>
      have hadd := add_of_validate (g := g) hvalid
      simp only [Grammar.perform, Ledger.perform, hvalid, hadd]
      exact ⟨by rw [h.nextId], h.add hadd⟩
  | remove r =>
    have hfind := h.find?_rules r
    cases hr : l.rules.find? (· == r) with
    | none =>
      -- nothing is dropped from the ledger either
      have hrules : l.rules.filter (!· == r) = l.rules :=
        List.filter_eq_self.mpr fun a ha => by simpa using List.find?_eq_none.mp hr a ha
      have hremove : g.remove? r.nonterminal r.id = none := by
        unfold Grammar.remove?
        rw [hfind, hr]
        rfl
      simp only [Grammar.perform, Ledger.perform, hremove, hr, hrules]
      exact ⟨trivial, h⟩
    | some r' =>
      have hremove : g.remove? r.nonterminal r.id =
          some (r', { g with table := g.table.erase r.nonterminal r.id }) := by
        unfold Grammar.remove?
        rw [hfind, hr]
        rfl
      simp only [Grammar.perform, Ledger.perform, hremove, hr]
      exact ⟨trivial, h.remove hremove⟩
  | setWeight id weight =>
    have hrule := h.rule?_eq id
    cases hr : l.rules.find? (·.id == id) with
    | none =>
      have hset : g.setWeight id weight = .error (.unknownRule id) := by
        unfold Grammar.setWeight
        rw [hrule, hr]
      simp only [Grammar.perform, Ledger.perform, hset, hr]
      exact ⟨trivial, h⟩
    | some r =>
      cases hweight : Arith.isPositive weight with
      | false =>
        have hset : g.setWeight id weight = .error (.invalidWeight .generation weight r.name r.nonterminal) := by
          unfold Grammar.setWeight
          rw [hrule, hr, hweight]
          rfl
        simp only [Grammar.perform, Ledger.perform, hset, hr, hweight]
        exact ⟨rfl, h⟩
      | true =>
        have hset : g.setWeight id weight = .ok { g with table := g.table.setWeight id weight } := by
          unfold Grammar.setWeight
          rw [hrule, hr, hweight]
          rfl
        simp only [Grammar.perform, Ledger.perform, hset, hr, hweight]
        exact ⟨rfl, h.setWeight hset⟩
  | read text => exact ⟨congrArg _ (h.readClauses text).1, (h.readClauses text).2⟩

/-! ## Runs -/

/-- Operations on a grammar do what they do to its ledger, one after another. -/
theorem run : ∀ (ops : List (StoreOp W)) {g : Grammar W} {l : Ledger W}, g.Keeps l →
    (StoreOp.run Grammar.perform g ops).1 = (StoreOp.run Ledger.perform l ops).1 ∧
      (StoreOp.run Grammar.perform g ops).2.Keeps (StoreOp.run Ledger.perform l ops).2
  | [], _, _, h => ⟨rfl, h⟩
  | op :: ops, _, _, h => by
    obtain ⟨hanswer, hkeeps⟩ := h.perform op
    obtain ⟨hanswers, hrest⟩ := run ops hkeeps
    exact ⟨congrArg₂ List.cons hanswer hanswers, hrest⟩

end Keeps

/-- A grammar that was built keeps the rules of a ledger. -/
theorem Built.exists_keeps (hg : g.Built) : ∃ l, g.Keeps l := by
  induction hg with
  | empty config => exact ⟨_, Keeps.empty config⟩
  | add _ h ih =>
    obtain ⟨l, hl⟩ := ih
    exact ⟨_, hl.add h⟩
  | @remove _ _ nt id r _ h ih =>
    obtain ⟨l, hl⟩ := ih
    exact ⟨_, hl.remove (r := { r with nonterminal := nt, id := id }) h⟩
  | setWeight _ h ih =>
    obtain ⟨l, hl⟩ := ih
    exact ⟨_, hl.setWeight h⟩

/-- No two rules have the same id, also not under different nonterminals. -/
theorem Built.eq_of_id_eq (hg : g.Built) {nt nt' : String} {r r' : Rule W} (hr : r ∈ g.rules nt)
    (hr' : r' ∈ g.rules nt') (h : r.id = r'.id) : r = r' := by
  obtain ⟨l, hl⟩ := hg.exists_keeps
  exact hl.ordered.eq_of_id_eq (hl.mem_allRules_iff.mp (hl.stored.mem_allRules hr))
    (hl.mem_allRules_iff.mp (hl.stored.mem_allRules hr')) h

/-- **The rules of a grammar are one list with a counter.** From an empty grammar, operations give the answers that they
give on an empty ledger, and then all that can be looked up is read off the ledger. Its ids go up and lie below the next
one, and whatever is done afterwards, no id that has been given comes back. -/
theorem store_refines_ledger [Numeral W] (config : Config W) (ops : List (StoreOp W)) :
    (StoreOp.run perform (Grammar.empty config) ops).1 = (StoreOp.run Ledger.perform Ledger.empty ops).1 ∧
      (StoreOp.run perform (Grammar.empty config) ops).2.Shows (StoreOp.run Ledger.perform Ledger.empty ops).2 ∧
      (StoreOp.run Ledger.perform (Ledger.empty : Ledger W) ops).2.Ordered ∧
      ∀ more, (StoreOp.run Ledger.perform (Ledger.empty : Ledger W) ops).2.Continues
        (StoreOp.run Ledger.perform (Ledger.empty : Ledger W) (ops ++ more)).2 := by
  obtain ⟨hanswers, hkeeps⟩ := (Keeps.empty config).run ops
  refine ⟨hanswers, hkeeps.shows, hkeeps.ordered, fun more => ?_⟩
  rw [StoreOp.run_append]
  exact Ledger.continues_run more _

end Grammar

end ScopedGrammar

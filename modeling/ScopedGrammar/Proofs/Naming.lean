import ScopedGrammar.Proofs.Drawing

/-!
# Depths and the names of variables

Along a chain, the depth that a node records is the number of its ancestors, whatever was proposed before. A variable is
named for the depth of the children of its binder. So the names of the variables in scope tell by which ancestors they
were introduced (`Chain.named`).
-/

namespace ScopedGrammar

variable {W : Type}

/-! ## Numbered names -/

theorem numbered_inj {stem : String} {a b : Nat} : stem ++ toString a = stem ++ toString b ↔ a = b := by
  refine ⟨fun h => ?_, fun h => h ▸ rfl⟩
  have hlists := congrArg String.toList h
  simp only [String.toList_append, List.append_cancel_left_eq, Nat.toString_eq_repr, Nat.toList_repr] at hlists
  have hvalues := congrArg (Nat.ofDigitChars 10 · 0) hlists
  simpa only [Nat.ofDigitChars_ten_toDigits] using hvalues

/-! ## Ancestors of ancestors -/

/-- An ancestor of a place has a place of its own, and there its ancestors are those further out. -/
theorem Forest.exists_place_of_ancestor {p : Place W} {a : Node W} {i : Nat} {forest : Forest W} :
    ∀ {earlier ancestors : List (Node W)}, p ∈ forest.places earlier ancestors → ancestors.length ≤ i →
      p.ancestors[i]? = some a → ∃ q ∈ forest.places earlier ancestors, q.node = a ∧ q.ancestors.length = i := by
  induction forest with
  | nil => intro _ _ h; cases h
  | leaf s rest ih => intro _ _ h; exact ih h
  | seq inside rest ihi ihr =>
    intro earlier ancestors h hi ha
    rcases List.mem_append.mp h with h | h
    · obtain ⟨q, hq, hnode⟩ := ihi h hi ha
      exact ⟨q, List.mem_append_left _ hq, hnode⟩
    · obtain ⟨q, hq, hnode⟩ := ihr h hi ha
      exact ⟨q, List.mem_append_right _ hq, hnode⟩
  | node label children rest ihc ihr =>
    intro earlier ancestors h hi ha
    rcases List.mem_cons.mp h with rfl | h
    · exact absurd ha (by simp [List.getElem?_eq_none hi])
    · rcases List.mem_append.mp h with h | h
      · rcases Nat.eq_or_lt_of_le hi with rfl | hlt
        · obtain ⟨above, habove, -⟩ := exists_ancestors h
          refine ⟨_, List.mem_cons_self .., ?_, rfl⟩
          rw [habove, List.append_assoc, List.getElem?_append_right (Nat.le_refl _), Nat.sub_self] at ha
          exact Option.some.inj ha
        · obtain ⟨q, hq, hnode⟩ := ihc h (by rw [List.length_append]; exact hlt) ha
          exact ⟨q, List.mem_cons_of_mem _ (List.mem_append_left _ hq), hnode⟩
      · obtain ⟨q, hq, hnode⟩ := ihr h hi ha
        exact ⟨q, List.mem_cons_of_mem _ (List.mem_append_right _ hq), hnode⟩

namespace Grammar

/-- What is recorded at a place follows from where it is: the depth is the number of ancestors, the variables are named
for the depth below, and those in scope have one name if they have one binder only. -/
structure Named (g : Grammar W) (p : Place W) : Prop where
  depth : p.node.label.depth = p.ancestors.length
  name : ∀ r ∈ p.node.label.introduced, r.name = g.config.stem ++ toString (p.node.label.depth + 1)
  binder : ∀ {i j : Nat} {a b : Node W}, p.ancestors[i]? = some a → p.ancestors[j]? = some b →
    ∀ r ∈ a.label.introduced, ∀ r' ∈ b.label.introduced, (r.name = r'.name ↔ i = j)

variable [Arith W] {g : Grammar W} {bound : List (Rule W)} {depth k : Nat} {s start : String} {t : Node W}

theorem Records.name_eq {r v : Rule W} {l : Label W} (hr : g.Records bound depth s r l) (hv : v ∈ l.introduced) :
    v.name = g.config.stem ++ toString (depth + 1) := by
  obtain ⟨lowest, hintroduced⟩ := hr.introduced
  obtain ⟨nt, id, rfl⟩ := mem_variableRules (hintroduced ▸ hv)
  rfl

/-- **Along a chain, recorded depths and names follow the position.** The walk reports at every place the number of
ancestors as the depth, and the rules that they introduce as those in scope. -/
theorem Chain.named (hg : g.Built) (ht : g.Chain start k t) :
    (∀ tracks accepts, (Walk.ofTree t accepts tracks).toList =
      (t.places.map (Place.visit tracks)).filter fun v => accepts v.node v.scope) ∧ ∀ p ∈ t.places, g.Named p := by
  have hrecords : ∀ p ∈ t.places, ∃ s r, g.Records p.introduced p.ancestors.length s r p.node.label := by
    intro p hp
    obtain ⟨r, hr, _⟩ := (ht.derives hg.wellStored).derivesBy hg.wellStored hp
    rw [List.nil_append, Nat.zero_add] at hr
    exact ⟨_, r, hr⟩
  refine ⟨fun tracks accepts => ?_, fun p hp => ⟨?_, ?_, ?_⟩⟩
  · rw [Walk.toList_eq_tour, Node.tour_eq_places]
  · obtain ⟨_, _, hr⟩ := hrecords p hp
    exact hr.depth
  · obtain ⟨_, _, hr⟩ := hrecords p hp
    exact fun v hv => hr.depth ▸ hr.name_eq hv
  · -- an ancestor names its variables as the node that it is itself
    have hname : ∀ {i a}, p.ancestors[i]? = some a → ∀ v ∈ a.label.introduced,
        v.name = g.config.stem ++ toString (i + 1) := by
      intro i a ha v hv
      obtain ⟨q, hq, rfl, rfl⟩ := Forest.exists_place_of_ancestor hp (Nat.zero_le _) ha
      obtain ⟨_, _, hr⟩ := hrecords q hq
      exact hr.name_eq hv
    intro i j a b ha hb v hv v' hv'
    rw [hname ha v hv, hname hb v' hv', numbered_inj, Nat.add_right_cancel_iff]

/-- Below an abstraction, another one is generated anew, with its variable as its body. -/
def nestedAbstractionRun : Option (Node Float) := do
  let t ← (abstractions.generate "EXPR" [⟨0.25, 0.25⟩, ⟨0.25, 0.25⟩, ⟨0.375, 0.375⟩]).result.toOption
  let p ← (abstractions.proposeWith t everyOther true [⟨0.25, 0.25⟩, ⟨0.125, 0.125⟩, ⟨0.875, 0.875⟩]).1.toOption
  return p.tree

theorem introduced_nestedAbstractionRun : nestedAbstractionRun.map (·.nodes.map fun n =>
    (n.label.name, n.label.introduced.map (·.name))) = some [("lambda", ["y1"]), ("lambda", ["y2"]), ("y2", [])] := by
  decide +kernel

theorem abstractions_named : ∃ k t, abstractions.Chain "EXPR" k t ∧ t.nodes.map (fun n =>
      (n.label.name, n.label.introduced.map (·.name))) = [("lambda", ["y1"]), ("lambda", ["y2"]), ("y2", [])] ∧
    (∀ tracks accepts, (Walk.ofTree t accepts tracks).toList =
      (t.places.map (Place.visit tracks)).filter fun v => accepts v.node v.scope) ∧
    ∀ p ∈ t.places, abstractions.Named p := by
  obtain ⟨t, ht, hnames⟩ := Option.map_eq_some_iff.mp introduced_nestedAbstractionRun
  obtain ⟨k, hchain⟩ := chain_of_run ht
  exact ⟨k, t, hchain, hnames, Chain.named built_abstractions hchain⟩

end Grammar

end ScopedGrammar

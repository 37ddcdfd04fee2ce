import ScopedGrammar.Proofs.Numbering

/-!
# Which draws make a tree

Generation uses one draw a node, in preorder, and each of them picks the rule of its node among those visible at its
place (`generateIn_picks`). A derivation with variables numbered as generation numbers them is made by all draws that
pick its rules and by no others (`generateIn_eq_ok_iff`).

- `Grammar.PicksIndex` says that the rule of a node is the visible one with the index that a draw picks;
- `Grammar.Chooses` says it of the id of the rule. As long as the ids in scope are distinct (`VariablesFrom`), this is
  the same (`picksIndex_iff`);
- `Grammar.Stocks` are the scopes into which rules come by binding variables only. There ids are distinct.
-/

namespace ScopedGrammar

variable {W : Type}

/-! ## Lists split in two -/

theorem exists_append_of_forall₂ {α β : Type} {R : α → β → Prop} {as : List α} {bs cs : List β}
    (h : List.Forall₂ R as (bs ++ cs)) : ∃ xs ys, as = xs ++ ys ∧ List.Forall₂ R xs bs ∧ List.Forall₂ R ys cs :=
  ⟨_, _, (List.take_append_drop bs.length as).symm, List.forall₂_take_append as bs cs h,
    List.forall₂_drop_append as bs cs h⟩

/-! ## Places below an ancestor -/

/-- The places of a tree, with the nodes before it and above it. -/
def Node.placesAmid (earlier ancestors : List (Node W)) (n : Node W) : List (Place W) :=
  ⟨earlier, ancestors, n⟩ :: n.children.places (earlier ++ [n]) (ancestors ++ [n])

theorem Forest.places_node (earlier ancestors : List (Node W)) (n : Node W) (rest : Forest W) :
    (node n.label n.children rest).places earlier ancestors =
      n.placesAmid earlier ancestors ++ rest.places (earlier ++ n.nodes) ancestors := rfl

theorem Node.places_eq (t : Node W) : t.places = t.placesAmid [] [] := by
  rw [places, alone, Forest.places_node]
  exact List.append_nil _

namespace Grammar

/-! ## Draws and rules -/

section

variable [Arith W] (g : Grammar W)

/-- The rules that are visible for the node at a place, where some rules are bound around the tree. -/
def visibleAt (bound : List (Rule W)) (p : Place W) : List (Rule W) :=
  g.visible (bound ++ p.introduced) p.node.label.nonterminal

/-- A draw picks an index, and the node at a place of a tree is a derivation by the rule that has this index among those
visible there. The permanent rules come first, then the bound ones. The root of the tree is at a depth of its own. -/
def PicksIndex (bound : List (Rule W)) (depth : Nat) (d : Draw W) (p : Place W) : Prop :=
  ∃ c r, Categorical.ofList (·.weight) (g.visibleAt bound p) = .ok c ∧
    (g.visibleAt bound p)[(c.index d).val]? = some r ∧
    g.DerivesBy (bound ++ p.introduced) (depth + p.ancestors.length) p.node.label.nonterminal r p.node

/-- A draw picks a rule with the id of the node at a place among those visible there. -/
def Chooses (bound : List (Rule W)) (d : Draw W) (p : Place W) : Prop :=
  ∃ c, Categorical.ofList (·.weight) (g.visibleAt bound p) = .ok c ∧
    (c.alternatives.get (c.index d)).id = p.node.label.ruleId

end

open Generator

variable [Arith W] {g : Grammar W} {base bound : List (Rule W)} {start depth : Nat} {s : String}

/-- The index that a draw picks is that of a visible rule. -/
theorem getElem?_visible_index {c : Categorical (Rule W) W}
    (hc : Categorical.ofList (·.weight) (g.visible bound s) = .ok c) (d : Draw W) :
    (g.visible bound s)[(c.index d).val]? = some (c.alternatives.get (c.index d)) := by
  rw [← visibleAtIndex_eq, visibleAtIndex_index hc]

/-! ## Choices at places -/

omit [Arith W] in
/-- Below a node, the rules that it introduces are bound as well. -/
theorem bound_below {ancestors : List (Node W)} (h : bound = base ++ ancestors.flatMap (·.label.introduced))
    (n : Node W) : bound ++ n.label.introduced = base ++ (ancestors ++ [n]).flatMap (·.label.introduced) := by
  rw [List.flatMap_append, List.flatMap_singleton, ← List.append_assoc, ← h]

omit [Arith W] in
/-- Below a node is one more ancestor. -/
theorem depth_below {ancestors : List (Node W)} (h : depth = start + ancestors.length) (n : Node W) :
    depth + 1 = start + (ancestors ++ [n]).length := by
  rw [List.length_append, List.length_singleton, h, Nat.add_assoc]

/-- At every place of a derivation there is a derivation by a rule, as deep as the place has ancestors. -/
theorem Derives.derivesBy {items : Items} {forest : Forest W} (h : g.Derives bound depth items forest) :
    ∀ {earlier ancestors : List (Node W)}, bound = base ++ ancestors.flatMap (·.label.introduced) →
      depth = start + ancestors.length → ∀ p ∈ forest.places earlier ancestors,
        ∃ s r, g.DerivesBy (base ++ p.introduced) (start + p.ancestors.length) s r p.node := by
  induction h with
  | nil => intro _ _ _ _ p hp; cases hp
  | leaf _ _ ih => intro _ _ hbase hdepth p hp; exact ih hbase hdepth p hp
  | seq _ _ ihi ihr =>
    intro _ _ hbase hdepth p hp
    rcases List.mem_append.mp hp with hp | hp
    · exact ihi hbase hdepth p hp
    · exact ihr hbase hdepth p hp
  | @node bound depth s items r l children forest _ hr hc _ ihc ihr =>
    intro earlier ancestors hbase hdepth p hp
    rcases List.mem_cons.mp hp with rfl | hp
    · have hown : g.DerivesBy bound depth s r ⟨l, children⟩ := ⟨hr, hc⟩
      exact ⟨s, r, hbase ▸ hdepth ▸ hown⟩
    · rcases List.mem_append.mp hp with hp | hp
      · exact ihc (bound_below hbase ⟨l, children⟩) (depth_below hdepth ⟨l, children⟩) p hp
      · exact ihr hbase hdepth p hp

section

variable {t : Node W} {p : Place W}

/-- At every place of a tree that is a derivation, a rule of the nonterminal there was chosen. -/
theorem DerivesNode.derivesBy (hg : g.WellStored) (ht : g.DerivesNode base depth s t) (hp : p ∈ t.places) :
    ∃ r, g.DerivesBy (base ++ p.introduced) (depth + p.ancestors.length) p.node.label.nonterminal r p.node := by
  obtain ⟨s', r, hr⟩ := ((derives_alone_iff hg).mpr ht).derivesBy (List.append_nil _).symm rfl p hp
  obtain rfl : p.node.label.nonterminal = s' := hr.1.nonterminal.trans (hg.nonterminal_eq_of_visible hr.1.visible)
  exact ⟨r, hr⟩

/-- The rule of a node is visible at its place, and has the log-probability that the node records. -/
theorem DerivesNode.exists_visibleAt (hg : g.WellStored) (ht : g.DerivesNode base depth s t) (hp : p ∈ t.places) :
    ∃ r ∈ g.visibleAt base p, r.id = p.node.label.ruleId ∧
      p.node.label.logProb = Arith.logShare r.weight (Arith.total ((g.visibleAt base p).map (·.weight))) := by
  obtain ⟨r, hr, _⟩ := ht.derivesBy hg hp
  exact ⟨r, hr.visible, hr.ruleId.symm, hr.logProb⟩

/-- The rules that are bound at a place are those bound around the tree, and rules for variables of it. -/
theorem DerivesNode.isVariable (hg : g.WellStored) (ht : g.DerivesNode base depth s t) (hp : p ∈ t.places)
    {r : Rule W} (hr : r ∈ p.introduced) : g.IsVariable r := by
  obtain ⟨a, ha, hr⟩ := List.mem_flatMap.mp hr
  have hl : a.label ∈ t.alone.labels := by
    rw [Node.labels_alone]
    exact List.mem_map_of_mem ((Node.ancestors_sublist hp).subset ha)
  exact ((derives_alone_iff hg).mpr ht).mem_introduced _ hl r hr

end

/-! ## What is generated has been drawn -/

/-- The children for a right-hand side are drawn node by node, if those of its nonterminals are. -/
theorem fill_picks {ancestors : List (Node W)} {expandSymbol : String → Generator W (Node W)}
    (hexp : ∀ s n supply supply', (expandSymbol s).Gives supply n supply' → ∀ earlier, ∃ used,
      supply.draws = used ++ supply'.draws ∧
        List.Forall₂ (g.PicksIndex base start) used (n.placesAmid earlier ancestors)) {items : Items} :
    ∀ {forest : Forest W} {supply supply' : Supply W} (earlier : List (Node W)),
      (g.fill bound expandSymbol items).Gives supply forest supply' → ∃ used, supply.draws = used ++ supply'.draws ∧
        List.Forall₂ (g.PicksIndex base start) used (forest.places earlier ancestors) := by
  induction items with
  | nil =>
    intro forest supply supply' earlier h
    obtain ⟨rfl, rfl⟩ := gives_fill_nil.mp h
    exact ⟨[], rfl, .nil⟩
  | symbol s rest ih =>
    intro forest supply supply' earlier h
    cases hs : g.isNonterminalIn bound s with
    | true =>
      obtain ⟨n, mid, more, hn, hm, rfl⟩ := (gives_fill_nonterminal hs).mp h
      obtain ⟨own, hown, hpicks⟩ := hexp s n _ _ hn earlier
      obtain ⟨others, hothers, hrest⟩ := ih (earlier ++ n.nodes) hm
      refine ⟨own ++ others, by rw [hown, hothers, List.append_assoc], ?_⟩
      rw [Forest.places_node]
      exact List.rel_append hpicks hrest
    | false =>
      obtain ⟨more, hm, rfl⟩ := (gives_fill_terminal hs).mp h
      obtain ⟨used, hused, hpicks⟩ := ih earlier hm
      exact ⟨used, hused, hpicks⟩
  | seq inside rest ihi ihr =>
    intro forest supply supply' earlier h
    obtain ⟨below, mid, more, hb, hm, rfl⟩ := gives_fill_seq.mp h
    obtain ⟨inner, hinner, hin⟩ := ihi earlier hb
    obtain ⟨others, hothers, hrest⟩ := ihr (earlier ++ below.nodes) hm
    exact ⟨inner ++ others, by rw [hinner, hothers, List.append_assoc], List.rel_append hin hrest⟩

/-- A tree is drawn node by node. The induction is on the fuel, which bounds the height. -/
theorem expand_picks (hg : g.WellStored) {fuel : Nat} : ∀ {bound : List (Rule W)} {s : String} {depth : Nat}
    {supply supply' : Supply W} {n : Node W} {ancestors : List (Node W)},
    bound = base ++ ancestors.flatMap (·.label.introduced) → depth = start + ancestors.length →
      (g.expand fuel bound s depth).Gives supply n supply' → ∀ earlier, ∃ used,
        supply.draws = used ++ supply'.draws ∧
          List.Forall₂ (g.PicksIndex base start) used (n.placesAmid earlier ancestors) := by
  induction fuel with
  | zero =>
    intro bound s depth supply supply' n ancestors _ _ h
    obtain ⟨fuel', _, _, _, _, hf, _⟩ := gives_expand h
    cases hf
  | succ fuel ih =>
    intro bound s depth supply supply' n ancestors hbound hdepth h earlier
    obtain ⟨fuel', r, lp, children, mid, hf, _, hdraw, hfill, rfl⟩ := gives_expand h
    cases hf
    obtain ⟨c, d, hc, hdraws, _, hr, _⟩ := gives_drawRule hdraw
    obtain ⟨hvisible, rfl⟩ := gives_drawRule_visible hdraw
    have hnt := hg.nonterminal_eq_of_visible hvisible
    let n := Node.ofRule r children (Arith.logShare r.weight (g.visibleTotal bound s))
      (g.variableRules (depth + 1) r.binds mid.lowest) depth
    have hderives : g.DerivesBy bound depth s r n :=
      derivesBy_ofRule hvisible (fill_derives (fun _ _ _ _ hn => expand_derives hn) hfill)
    obtain ⟨used, hused, hpicks⟩ := fill_picks
      (fun _ _ _ _ hn => ih (bound_below hbound n) (depth_below hdepth n) hn) (earlier ++ [n]) hfill
    have hown : g.visibleAt base ⟨earlier, ancestors, n⟩ = g.visible bound s := by
      rw [hbound, ← hnt]
      rfl
    refine ⟨d :: used, ?_, .cons ⟨c, r, hown ▸ hc, ?_, ?_⟩ hpicks⟩
    · rw [hdraws, List.cons_append]
      exact congrArg _ hused
    · rw [hown, hr]
      exact getElem?_visible_index hc d
    · show g.DerivesBy (base ++ ancestors.flatMap (·.label.introduced)) (start + ancestors.length) r.nonterminal r n
      rwa [← hbound, ← hdepth, hnt]

/-- **Generation uses one draw a node, and each picks the rule of its node.** -/
theorem generateIn_picks (hg : g.WellStored) {scope : Scope W} {draws : List (Draw W)} {t : Node W}
    (h : (g.generateIn s depth scope draws).result = .ok t) : ∃ used,
      draws = used ++ (g.generateIn s depth scope draws).draws ∧
        List.Forall₂ (g.PicksIndex scope.rules depth) used t.places := by
  rw [Node.places_eq]
  have hroot : depth = depth + ([] : List (Node W)).length := rfl
  exact expand_picks hg (List.append_nil _).symm hroot (gives_of_generateIn h) []

/-! ## What is drawn is generated -/

omit [Arith W] in
theorem variableRules_congr {depth : Nat} : ∀ {binds : List String} {lowest lowest' : Int},
    countdown lowest binds.length = countdown lowest' binds.length →
      g.variableRules depth binds lowest = g.variableRules depth binds lowest'
  | [], _, _, _ => rfl
  | nt :: binds, lowest, lowest', h => by
    obtain ⟨hid, -⟩ := List.cons.inj h
    rw [variableRules, variableRules, hid]

/-- The steps of generation from a nonterminal. -/
theorem expand_gives {fuel : Nat} {r : Rule W} {lp : W} {children : Forest W} {supply mid supply' : Supply W}
    (hs : g.isNonterminalIn bound s = true) (hdraw : (g.drawRule bound s).Gives supply (r, lp) mid)
    (hfill : (g.fill (bound ++ g.variableRules (depth + 1) r.binds mid.lowest)
      (fun s' => g.expand fuel (bound ++ g.variableRules (depth + 1) r.binds mid.lowest) s' (depth + 1))
      r.children).Gives ⟨lowestAfter mid.lowest r.binds.length, mid.draws⟩ children supply') :
    (g.expand (fuel + 1) bound s depth).Gives supply
      (Node.ofRule r children lp (g.variableRules (depth + 1) r.binds mid.lowest) depth) supply' := by
  unfold expand
  rw [hs]
  refine gives_bind.mpr ⟨_, mid, hdraw, ?_⟩
  refine gives_bind.mpr ⟨_, _, gives_introduce _ _, ?_⟩
  exact gives_bind.mpr ⟨_, _, hfill, gives_pure.mpr ⟨rfl, rfl⟩⟩

/-- A draw that picks the rule that a label records gives this rule, with the log-probability that the label records. -/
theorem Records.gives_drawRule {r : Rule W} {l : Label W} (hr : g.Records bound depth s r l)
    {c : Categorical (Rule W) W} (hc : Categorical.ofList (·.weight) (g.visible bound s) = .ok c) {d : Draw W}
    (hpicked : (g.visible bound s)[(c.index d).val]? = some r) (lowest : Int) (rest : List (Draw W)) :
    (g.drawRule bound s).Gives ⟨lowest, d :: rest⟩ (r, l.logProb) ⟨lowest, rest⟩ := by
  obtain ⟨_, hw, ht⟩ := Categorical.ofList_eq_ok hc
  have hget : c.alternatives.get (c.index d) = r :=
    Option.some.inj ((getElem?_visible_index hc d).symm.trans hpicked)
  have hlog : c.logProb (c.index d) = l.logProb := by
    show Arith.logShare (c.weight (c.alternatives.get (c.index d))) c.total = _
    rw [hget, hw, ht, hr.logProb]
    rfl
  have hgives := gives_drawRule_of_eq_ok hc lowest d rest
  rwa [hget, hlog] at hgives

/-- A label with ids that are handed out next introduces the rules that generation binds. -/
theorem Records.introduced_eq {r : Rule W} {l : Label W} (hr : g.Records bound depth s r l) {lowest : Int} {k : Nat}
    (h : l.variableIds = countdown lowest k) :
    l.introduced = g.variableRules (depth + 1) r.binds lowest ∧ k = r.binds.length := by
  obtain ⟨low, hintroduced⟩ := hr.introduced
  rw [Label.variableIds, hintroduced, map_id_variableRules] at h
  have hk : k = r.binds.length := by
    rw [← length_countdown lowest k, ← h, length_countdown]
  rw [hk] at h
  exact ⟨hintroduced.trans (variableRules_congr h), hk⟩

theorem Records.ofRule_eq {r : Rule W} {l : Label W} (hr : g.Records bound depth s r l) (children : Forest W) :
    Node.ofRule r children l.logProb l.introduced depth = ⟨l, children⟩ := by
  unfold Node.ofRule
  rw [← hr.nonterminal, ← hr.name, ← hr.ruleId, ← hr.resampleWeight, ← hr.depth]

/-- A node is generated if its draw picks the rule that it records, its variables are numbered on, and its children are
generated below it. -/
theorem Records.node_gives (hs : g.isNonterminalIn bound s = true) {r : Rule W} {l : Label W}
    (hr : g.Records bound depth s r l) {lowest : Int}
    (hids : l.variableIds = countdown lowest l.variableIds.length) {c : Categorical (Rule W) W}
    (hc : Categorical.ofList (·.weight) (g.visible bound s) = .ok c) {d : Draw W}
    (hpicked : (g.visible bound s)[(c.index d).val]? = some r) {children : Forest W} {fuel : Nat}
    {rest : List (Draw W)} {supply : Supply W}
    (hfill : (g.fill (bound ++ l.introduced) (fun s => g.expand fuel (bound ++ l.introduced) s (depth + 1))
      r.children).Gives ⟨lowestAfter lowest l.variableIds.length, rest⟩ children supply) :
    (g.expand (fuel + 1) bound s depth).Gives ⟨lowest, d :: rest⟩ ⟨l, children⟩ supply := by
  obtain ⟨hintroduced, hbinds⟩ := hr.introduced_eq hids
  rw [hintroduced, hbinds] at hfill
  have hnode := expand_gives hs (hr.gives_drawRule hc hpicked lowest rest) hfill
  rwa [← hintroduced, hr.ofRule_eq] at hnode

/-- What a draw picks at a place, said of the rules in scope there. The children are those of the rule that is picked,
which may be another one than the rule that made the node. -/
theorem PicksIndex.exists_rule {ancestors earlier : List (Node W)} {l : Label W} {children : Forest W} {d : Draw W}
    (hbase : bound = base ++ ancestors.flatMap (·.label.introduced)) (hdepth : depth = start + ancestors.length)
    (hnt : l.nonterminal = s) (hd : g.PicksIndex base start d ⟨earlier, ancestors, ⟨l, children⟩⟩) :
    ∃ c r, Categorical.ofList (·.weight) (g.visible bound s) = .ok c ∧
      (g.visible bound s)[(c.index d).val]? = some r ∧ g.Records bound depth s r l ∧
        g.Derives (bound ++ l.introduced) (depth + 1) r.children children := by
  obtain ⟨c, r, hc, hpicked, hr, hchildren⟩ := hd
  have hvisible : g.visibleAt base ⟨earlier, ancestors, ⟨l, children⟩⟩ = g.visible bound s := by
    rw [hbase, ← hnt]
    rfl
  rw [hvisible] at hc hpicked
  rw [hbase, hdepth]
  refine ⟨c, r, ?_, ?_, ?_, hchildren⟩
  · rwa [← hbase]
  · rwa [← hbase]
  · rw [← hnt]
    exact hr

/-- The draws that pick the rules of a derivation, with variables numbered on, make it. The induction is on the forest,
as the children of a node have to be those of the rule that is picked. -/
theorem Derives.fill_gives (hg : g.WellStored) {forest : Forest W} : ∀ {bound : List (Rule W)} {depth : Nat}
    {items : Items}, g.Derives bound depth items forest → ∀ (fuel : Nat) {ancestors earlier : List (Node W)}
      {lowest : Int} {k : Nat} {used : List (Draw W)} (rest : List (Draw W)),
      bound = base ++ ancestors.flatMap (·.label.introduced) → depth = start + ancestors.length →
      forest.labels.flatMap Label.variableIds = countdown lowest k →
      List.Forall₂ (g.PicksIndex base start) used (forest.places earlier ancestors) → used.length ≤ fuel →
        (g.fill bound (fun s => g.expand fuel bound s depth) items).Gives ⟨lowest, used ++ rest⟩ forest
          ⟨lowestAfter lowest k, rest⟩ := by
  induction forest with
  | nil =>
    intro bound depth items h fuel ancestors earlier lowest k used rest _ _ hids hused _
    cases h
    cases hused
    cases k with
    | zero => exact gives_fill_nil.mpr ⟨rfl, rfl⟩
    | succ k => cases hids
  | leaf s more ih =>
    intro bound depth items h fuel ancestors earlier lowest k used rest hbase hdepth hids hused hfuel
    cases h with
    | leaf hs h => exact (gives_fill_terminal hs).mpr ⟨_, ih h fuel rest hbase hdepth hids hused hfuel, rfl⟩
  | seq below more ihi ihr =>
    intro bound depth items h fuel ancestors earlier lowest k used rest hbase hdepth hids hused hfuel
    cases h with
    | seq hin hmore =>
      obtain ⟨inner, others, rfl, hinner, hothers⟩ := exists_append_of_forall₂ hused
      rw [Forest.labels_seq, List.flatMap_append] at hids
      obtain ⟨hinnerIds, hothersIds, rfl⟩ := countdown_split hids
      rw [List.length_append] at hfuel
      have hi := ihi hin fuel (others ++ rest) hbase hdepth hinnerIds hinner (by omega)
      have hr := ihr hmore fuel rest hbase hdepth hothersIds hothers (by omega)
      rw [List.append_assoc, lowestAfter_add]
      exact gives_fill_seq.mpr ⟨_, _, _, hi, hr, rfl⟩
  | node l children more ihc ihr =>
    intro bound depth items h fuel ancestors earlier lowest k used rest hbase hdepth hids hused hfuel
    cases h with
    | @node _ _ s _ r' _ _ _ hs hr' _ hmore =>
      have hnt : l.nonterminal = s := hr'.nonterminal.trans (hg.nonterminal_eq_of_visible hr'.visible)
      obtain ⟨own, others, rfl, hown, hothers⟩ := exists_append_of_forall₂
        (show List.Forall₂ _ used (Node.placesAmid earlier ancestors ⟨l, children⟩ ++ more.places _ _) from hused)
      cases hown with
      | @cons d _ below _ hd hbelow =>
        obtain ⟨fuel, rfl⟩ : ∃ f, fuel = f + 1 := ⟨fuel - 1, by simp at hfuel; omega⟩
        simp only [List.length_append, List.length_cons] at hfuel
        obtain ⟨c, r, hc, hpicked, hr, hchildren⟩ := hd.exists_rule hbase hdepth hnt
        -- the ids of the node, those below it and those behind it
        rw [Forest.labels_node, List.flatMap_cons, List.flatMap_append] at hids
        obtain ⟨hl, hothersIds, rfl⟩ := countdown_split hids
        obtain ⟨hchildrenIds, hmoreIds, hk⟩ := countdown_split hothersIds
        have hfill := ihc hchildren fuel (others ++ rest) (bound_below hbase ⟨l, children⟩)
          (depth_below hdepth ⟨l, children⟩) hchildrenIds hbelow (by omega)
        have hrest := ihr hmore (fuel + 1) rest hbase hdepth hmoreIds hothers (by omega)
        rw [List.append_assoc, List.cons_append, hk, lowestAfter_add, lowestAfter_add]
        exact (gives_fill_nonterminal hs).mpr ⟨_, _, _, hr.node_gives hs hl hc hpicked hfill, hrest, rfl⟩

/-- **The draws that make a derivation are those that pick its rules.** The ids of its variables have to be those that
generation hands out. -/
theorem generateIn_eq_ok_iff (hg : g.WellStored) {scope : Scope W} {t : Node W} {draws : List (Draw W)} :
    (g.generateIn s depth scope draws).result = .ok t ↔ g.DerivesNode scope.rules depth s t ∧
      t.variableIds = countdown scope.lowest t.variableIds.length ∧
        ∃ used rest, draws = used ++ rest ∧ List.Forall₂ (g.PicksIndex scope.rules depth) used t.places := by
  constructor
  · intro h
    obtain ⟨used, hused, hpicks⟩ := generateIn_picks hg h
    exact ⟨generateIn_derives h, (generateIn_numbered h).1, used, _, hused, hpicks⟩
  · rintro ⟨ht, hids, used, rest, rfl, hpicks⟩
    have hs := ht.isNonterminalIn hg
    rw [Node.variableIds_eq, ← Node.labels_alone] at hids
    have hfill := ((derives_alone_iff hg).mpr ht).fill_gives hg (used ++ rest).length rest (List.append_nil _).symm
      rfl hids hpicks (by simp)
    -- generation of the one nonterminal is generation of a right-hand side that is this nonterminal
    obtain ⟨n, mid, more, hn, hm, halone⟩ := (gives_fill_nonterminal hs).mp hfill
    obtain ⟨rfl, -⟩ := gives_fill_nil.mp hm
    obtain rfl : t = n := Node.alone_injective halone
    rw [generateIn_eq]
    exact congrArg Prod.fst hn

end Grammar

/-! ## Where ids are distinct -/

/-- Rules for variables with distinct negative ids, all of them from `lowest` up. -/
structure VariablesFrom (bound : List (Rule W)) (lowest : Int) : Prop where
  nonpos : lowest ≤ 0
  nodup : (bound.map (·.id)).Nodup
  neg : ∀ r ∈ bound, r.id < 0
  above : ∀ r ∈ bound, lowest ≤ r.id

/-- Rules with some of the ids below come to those in scope. -/
theorem VariablesFrom.append {bound rules : List (Rule W)} {lowest : Int} {k : Nat} (h : VariablesFrom bound lowest)
    (hids : (rules.map (·.id)).Sublist (numbersBelow lowest k)) : VariablesFrom (bound ++ rules) (lowest - k) := by
  have hnonpos := h.nonpos
  have hbelow : ∀ r ∈ rules, lowest - k ≤ r.id ∧ r.id < lowest := fun r hr =>
    mem_numbersBelow.mp (hids.subset (List.mem_map_of_mem hr))
  refine ⟨by omega, ?_, fun r hr => ?_, fun r hr => ?_⟩
  · rw [List.map_append]
    refine List.nodup_append.mpr ⟨h.nodup, (nodup_numbersBelow _ _).sublist hids, fun id hid id' hid' => ?_⟩
    obtain ⟨r, hr, rfl⟩ := List.mem_map.mp hid
    have := h.above r hr
    have := (mem_numbersBelow.mp (hids.subset hid')).2
    omega
  · rcases List.mem_append.mp hr with hr | hr
    · exact h.neg r hr
    · have := (hbelow r hr).2
      omega
  · rcases List.mem_append.mp hr with hr | hr
    · have := h.above r hr
      omega
    · exact (hbelow r hr).1

namespace Grammar

/-- Scopes into which rules come only by binding variables, as long as ids last. Some may have been dropped again, and
ids may have been reserved. -/
inductive Stocks (g : Grammar W) : Scope W → Prop
  | empty : Stocks g Scope.empty
  | startBelow (lowest : Int) : Stocks g (Scope.below lowest)
  | bind {scope : Scope W} (nonterminal : String) (depth : Nat) : Stocks g scope → leastId < scope.lowest →
      Stocks g (g.bindVariable scope nonterminal depth)
  | truncate {scope : Scope W} (mark : Nat) : Stocks g scope → Stocks g (scope.truncate mark)
  | reserveBelow {scope : Scope W} (lowest : Int) : Stocks g scope → Stocks g (scope.reserveBelow lowest)

variable {g : Grammar W} {scope : Scope W}

/-- A variable that is bound gets the next id. -/
theorem variablesFrom_bindVariable (h : VariablesFrom scope.rules scope.lowest) (hroom : leastId < scope.lowest)
    (nonterminal : String) (depth : Nat) :
    VariablesFrom (g.bindVariable scope nonterminal depth).rules (g.bindVariable scope nonterminal depth).lowest := by
  rw [bindVariable_eq, idBelow_eq hroom]
  exact h.append (k := 1) (List.Sublist.refl _)

theorem Stocks.variablesFrom (h : g.Stocks scope) : VariablesFrom scope.rules scope.lowest := by
  induction h with
  | empty => exact ⟨le_refl _, List.nodup_nil, by simp [Scope.empty], by simp [Scope.empty]⟩
  | startBelow lowest => exact ⟨min_le_right _ _, List.nodup_nil, by simp [Scope.below], by simp [Scope.below]⟩
  | bind nt depth _ hroom ih => exact variablesFrom_bindVariable ih hroom nt depth
  | truncate mark _ ih =>
    exact ⟨ih.nonpos, ih.nodup.sublist ((List.take_sublist _ _).map _),
      fun r hr => ih.neg r (List.mem_of_mem_take hr), fun r hr => ih.above r (List.mem_of_mem_take hr)⟩
  | @reserveBelow scope lowest _ ih =>
    have hle : (scope.reserveBelow lowest).lowest ≤ scope.lowest := min_le_left _ _
    exact ⟨hle.trans ih.nonpos, ih.nodup, ih.neg, fun r hr => hle.trans (ih.above r hr)⟩

theorem Stocks.isVariable (h : g.Stocks scope) : ∀ r ∈ scope.rules, g.IsVariable r := by
  induction h with
  | empty => intro r hr; cases hr
  | startBelow lowest => intro r hr; cases hr
  | bind nt depth _ _ ih =>
    intro r hr
    rcases List.mem_append.mp hr with hr | hr
    · exact ih r hr
    · exact ⟨nt, depth, _, List.mem_singleton.mp hr⟩
  | truncate mark _ ih => exact fun r hr => ih r (List.mem_of_mem_take hr)
  | reserveBelow lowest _ ih => exact ih

variable [Arith W] {base : List (Rule W)} {lowest : Int}

/-- Visible rules have distinct ids. -/
theorem WellStored.nodup_visible (hg : g.WellStored) {bound : List (Rule W)} (hbound : VariablesFrom bound lowest)
    (s : String) : ((g.visible bound s).map (·.id)).Nodup := by
  rw [visible, List.map_append]
  refine List.nodup_append.mpr ⟨?_, ?_, fun id hid id' hid' => ?_⟩
  · exact List.pairwise_map.mpr ((hg.byAge s).imp fun h => h.ne)
  · exact hbound.nodup.sublist (List.filter_sublist.map _)
  · obtain ⟨r, hr, rfl⟩ := List.mem_map.mp hid
    obtain ⟨r', hr', rfl⟩ := List.mem_map.mp hid'
    have := hg.nonneg r (hg.mem_allRules hr)
    have := hbound.neg r' (List.mem_filter.mp hr').1
    omega

omit [Arith W] in
/-- Where the variables of a tree are numbered on, the rules bound at a place have distinct ids. -/
theorem variablesFrom_of_place {t : Node W} {p : Place W} {k : Nat} (hbase : VariablesFrom base lowest)
    (hids : t.variableIds = numbersBelow lowest k) (hp : p ∈ t.places) :
    VariablesFrom (base ++ p.introduced) (lowest - k) := by
  refine hbase.append ?_
  rw [← hids, Place.introduced, List.map_flatMap]
  exact (Node.ancestors_sublist hp).flatMap _

theorem PicksIndex.chooses {depth : Nat} {p : Place W} {d : Draw W} (h : g.PicksIndex base depth d p) :
    g.Chooses base d p := by
  obtain ⟨c, r, hc, hr, hrecords, _⟩ := h
  obtain rfl : c.alternatives.get (c.index d) = r := Option.some.inj ((getElem?_visible_index hc d).symm.trans hr)
  exact ⟨c, hc, hrecords.ruleId.symm⟩

/-- At a place of a derivation, where ids are distinct, a draw picks the rule of the node exactly if it picks one with
the id of that rule. -/
theorem picksIndex_iff (hg : g.WellStored) {s : String} {depth : Nat} {t : Node W} {p : Place W} {d : Draw W}
    (ht : g.DerivesNode base depth s t) (hp : p ∈ t.places) (hbound : VariablesFrom (base ++ p.introduced) lowest) :
    g.PicksIndex base depth d p ↔ g.Chooses base d p := by
  refine ⟨PicksIndex.chooses, fun ⟨c, hc, hid⟩ => ?_⟩
  obtain ⟨r, hderives⟩ := ht.derivesBy hg hp
  have hpicked := getElem?_visible_index hc d
  have hr : c.alternatives.get (c.index d) = r := List.inj_on_of_nodup_map (hg.nodup_visible hbound _)
    (List.mem_of_getElem? hpicked) hderives.1.visible (hid.trans hderives.1.ruleId)
  exact ⟨c, r, hc, hr ▸ hpicked, hderives⟩

end Grammar

end ScopedGrammar

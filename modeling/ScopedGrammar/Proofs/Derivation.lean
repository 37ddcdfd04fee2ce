import ScopedGrammar.Proofs.Expansion
import ScopedGrammar.Proofs.Hole
import ScopedGrammar.Proofs.Store

/-!
# Derivations in a scope

`Derives g bound depth items forest` says that a forest stands for a right-hand side where the rules `bound` are in
scope: a node records a choice among the visible rules of its nonterminal (`Records`), the rules it introduces are in
scope for its children only, and a symbol without visible rules is a leaf. What generation gives is a derivation
(`generateIn_derives`), and a node of a derivation can be replaced by another derivation of its nonterminal in the same
scope (`Derives.exists_site`).
-/

namespace ScopedGrammar

variable {W : Type}

/-! ## Runs of generators -/

namespace Generator

variable {α β : Type}

/-- A generator turns a supply into a result and the supply that is left. -/
def Gives (gen : Generator W α) (s : Supply W) (a : α) (s' : Supply W) : Prop := gen.run.run s = (.ok a, s')

variable {s s' : Supply W}

theorem gives_pure {a b : α} : Gives (pure a) s b s' ↔ b = a ∧ s' = s := by
  constructor
  · intro h; cases h; exact ⟨rfl, rfl⟩
  · rintro ⟨rfl, rfl⟩; rfl

theorem not_gives_throw {e : Failure W} {a : α} : ¬ Gives (throw e) s a s' := fun h => by cases h

/-- A sequence of generators gives what its parts give one after another. -/
theorem gives_bind {gen : Generator W α} {f : α → Generator W β} {b : β} :
    Gives (gen >>= f) s b s' ↔ ∃ a s₁, Gives gen s a s₁ ∧ Gives (f a) s₁ b s' := by
  unfold Gives
  rcases hgen : gen.run.run s with ⟨e | a, s₁⟩
  · rw [run_bind_error hgen]
    constructor
    · intro h; cases h
    · rintro ⟨_, _, h, _⟩; cases h
  · rw [run_bind_ok hgen]
    constructor
    · exact fun h => ⟨a, s₁, rfl, h⟩
    · rintro ⟨_, _, h₁, h₂⟩; cases h₁; exact h₂

/-- A function on what a generator gives uses up nothing. -/
theorem gives_map {gen : Generator W α} {f : α → β} {b : β} :
    Gives (f <$> gen) s b s' ↔ ∃ a, Gives gen s a s' ∧ b = f a := by
  rw [map_eq_pure_bind, gives_bind]
  constructor
  · rintro ⟨a, _, ha, h⟩
    obtain ⟨rfl, rfl⟩ := gives_pure.mp h
    exact ⟨a, ha, rfl⟩
  · rintro ⟨a, ha, rfl⟩
    exact ⟨a, s', ha, gives_pure.mpr ⟨rfl, rfl⟩⟩

theorem gives_nextDraw {d : Draw W} : Gives nextDraw s d s' ↔ s.draws = d :: s'.draws ∧ s'.lowest = s.lowest := by
  obtain ⟨lowest, draws⟩ := s
  obtain ⟨lowest', draws'⟩ := s'
  cases draws with
  | nil =>
    constructor
    · intro h; cases h
    · rintro ⟨h, _⟩; cases h
  | cons d' rest =>
    constructor
    · intro h; cases h; exact ⟨rfl, rfl⟩
    · rintro ⟨h, rfl⟩; cases h; rfl

end Generator

/-- A distribution over a list holds that list. -/
theorem Categorical.ofList_eq_ok [Arith W] {α : Type} {weight : α → W} {as : List α} {c : Categorical α W}
    (h : ofList weight as = .ok c) :
    c.alternatives = as ∧ c.weight = weight ∧ c.total = Arith.total (as.map weight) := by
  simp only [ofList] at h
  split at h
  · cases h
  · split at h
    · cases h
    · split at h
      · cases h
      · split at h
        · cases h
        · cases h; exact ⟨rfl, rfl, rfl⟩

/-! ## Ids of introduced rules -/

/-- The ids of the rules that a label introduces. -/
def Label.variableIds (l : Label W) : List Int := l.introduced.map (·.id)

/-- The ids of the rules that are introduced in a tree, in preorder. -/
def Node.variableIds (t : Node W) : List Int := t.nodes.flatMap (·.label.variableIds)

/-- The ids of the variables in a tree that another tree does not have. -/
def Node.newVariableIds (t old : Node W) : List Int := t.variableIds.filter (· ∉ old.variableIds)

theorem Node.variableIds_eq (t : Node W) : t.variableIds = t.labels.flatMap Label.variableIds := by
  rw [variableIds, labels, List.flatMap_map]

namespace Grammar

/-! ## Derivations -/

theorem map_nonterminal_variableRules (g : Grammar W) (depth : Nat) : ∀ (binds : List String) (lowest : Int),
    (g.variableRules depth binds lowest).map (·.nonterminal) = binds
  | [], _ => rfl
  | nt :: rest, lowest => by
    rw [variableRules, List.map_cons, map_nonterminal_variableRules g depth rest]
    rfl

theorem map_id_variableRules (g : Grammar W) (depth : Nat) : ∀ (binds : List String) (lowest : Int),
    (g.variableRules depth binds lowest).map (·.id) = countdown lowest binds.length
  | [], _ => rfl
  | nt :: rest, lowest => by
    rw [variableRules, List.map_cons, map_id_variableRules g depth rest]
    rfl

/-- The values of a rule for a bound variable are those of the configuration. -/
def IsVariable (g : Grammar W) (r : Rule W) : Prop := ∃ nt depth id, r = g.variableRule nt depth id

theorem mem_variableRules {g : Grammar W} {depth : Nat} {v : Rule W} : ∀ {binds : List String} {lowest : Int},
    v ∈ g.variableRules depth binds lowest → ∃ nt id, v = g.variableRule nt depth id
  | nt :: rest, lowest, h => by
    rcases List.mem_cons.mp h with rfl | h
    · exact ⟨nt, _, rfl⟩
    · exact mem_variableRules h

theorem isVariable_of_mem_variableRules {g : Grammar W} {depth : Nat} {binds : List String} {lowest : Int} {v : Rule W}
    (h : v ∈ g.variableRules depth binds lowest) : g.IsVariable v := by
  obtain ⟨nt, id, rfl⟩ := mem_variableRules h
  exact ⟨nt, depth, id, rfl⟩

section Judgement

variable [Arith W] (g : Grammar W)

/-- The total weight of the visible rules of a nonterminal. -/
def visibleTotal (bound : List (Rule W)) (s : String) : W := Arith.total ((g.visible bound s).map (·.weight))

/-- A label records the choice of a rule for a nonterminal at a depth, where some rules are bound. -/
structure Records (bound : List (Rule W)) (depth : Nat) (s : String) (r : Rule W) (l : Label W) : Prop where
  visible : r ∈ g.visible bound s
  nonterminal : l.nonterminal = r.nonterminal
  name : l.name = r.name
  ruleId : l.ruleId = r.id
  logProb : l.logProb = Arith.logShare r.weight (g.visibleTotal bound s)
  resampleWeight : l.resampleWeight = r.resampleWeight
  introduced : ∃ lowest, l.introduced = g.variableRules (depth + 1) r.binds lowest
  depth : l.depth = depth

/-- A forest stands for a right-hand side at a depth, where some rules are bound. -/
inductive Derives : List (Rule W) → Nat → Items → Forest W → Prop
  | nil {bound : List (Rule W)} {depth : Nat} : Derives bound depth .nil .nil
  | leaf {bound : List (Rule W)} {depth : Nat} {s : String} {items : Items} {forest : Forest W} :
      g.isNonterminalIn bound s = false → Derives bound depth items forest →
        Derives bound depth (.symbol s items) (.leaf s forest)
  | seq {bound : List (Rule W)} {depth : Nat} {inside items : Items} {below forest : Forest W} :
      Derives bound depth inside below → Derives bound depth items forest →
        Derives bound depth (.seq inside items) (.seq below forest)
  | node {bound : List (Rule W)} {depth : Nat} {s : String} {items : Items} {r : Rule W} {l : Label W}
      {children forest : Forest W} :
      g.isNonterminalIn bound s = true → g.Records bound depth s r l →
        Derives (bound ++ l.introduced) (depth + 1) r.children children → Derives bound depth items forest →
        Derives bound depth (.symbol s items) (.node l children forest)

/-- A tree is a derivation of a nonterminal by a rule. -/
def DerivesBy (bound : List (Rule W)) (depth : Nat) (s : String) (r : Rule W) (t : Node W) : Prop :=
  g.Records bound depth s r t.label ∧ g.Derives (bound ++ t.label.introduced) (depth + 1) r.children t.children

/-- A tree is a derivation of a nonterminal at a depth, where some rules are bound. -/
def DerivesNode (bound : List (Rule W)) (depth : Nat) (s : String) (t : Node W) : Prop :=
  ∃ r, g.DerivesBy bound depth s r t

end Judgement

variable [Arith W] {g : Grammar W} {bound : List (Rule W)} {depth : Nat}

/-- A symbol with a visible rule is a nonterminal. -/
theorem isNonterminalIn_of_visible (hg : g.WellStored) {s : String} {r : Rule W} (h : r ∈ g.visible bound s) :
    g.isNonterminalIn bound s = true := by
  unfold Grammar.isNonterminalIn
  rcases List.mem_append.mp h with hm | hm
  · have hne : g.rules s ≠ [] := List.ne_nil_of_mem hm
    simp [hg.isNonterminal_iff.mpr hne]
  · obtain ⟨hm, hs⟩ := List.mem_filter.mp hm
    simp only [Bool.or_eq_true, List.any_eq_true]
    exact Or.inr ⟨r, hm, hs⟩

/-- A derivation starts from a nonterminal. -/
theorem DerivesNode.isNonterminalIn (hg : g.WellStored) {s : String} {t : Node W} (h : g.DerivesNode bound depth s t) :
    g.isNonterminalIn bound s = true := by
  obtain ⟨r, hr, _⟩ := h
  exact isNonterminalIn_of_visible hg hr.visible

/-- A tree is a derivation of a nonterminal exactly if, on its own, it stands for that nonterminal. -/
theorem derives_alone_iff (hg : g.WellStored) {s : String} {t : Node W} :
    g.Derives bound depth (.symbol s .nil) t.alone ↔ g.DerivesNode bound depth s t := by
  constructor
  · intro h
    cases h with
    | node _ hr hc _ => exact ⟨_, hr, hc⟩
  · intro h
    have hs := h.isNonterminalIn hg
    obtain ⟨r, hr, hc⟩ := h
    exact .node hs hr hc .nil

/-- What stands in a hole of a derivation can be replaced: by any derivation of its nonterminal in the scope there. -/
theorem Derives.exists_site {hole : Hole W} {n : Node W} : ∀ {bound : List (Rule W)} {depth : Nat} {items : Items},
    g.Derives bound depth items (hole.plug n) →
      ∃ s, g.DerivesNode (bound ++ hole.introduced) (depth + hole.depth) s n ∧
        ∀ n', g.DerivesNode (bound ++ hole.introduced) (depth + hole.depth) s n' →
          g.Derives bound depth items (hole.plug n') := by
  induction hole with
  | here rest =>
    intro bound depth items h
    cases h with
    | @node _ _ s _ r _ _ _ hs hr hc hrest =>
      simp only [Hole.introduced, Hole.depth, List.append_nil, Nat.add_zero]
      exact ⟨s, ⟨r, hr, hc⟩, fun n' ⟨r', hr', hc'⟩ => .node hs hr' hc' hrest⟩
  | afterLeaf s hole ih =>
    intro bound depth items h
    cases h with
    | leaf hs hrest =>
      obtain ⟨nt, hn, hall⟩ := ih hrest
      exact ⟨nt, hn, fun n' hn' => .leaf hs (hall n' hn')⟩
  | inSeq hole rest ih =>
    intro bound depth items h
    cases h with
    | seq hin hrest =>
      obtain ⟨nt, hn, hall⟩ := ih hin
      exact ⟨nt, hn, fun n' hn' => .seq (hall n' hn') hrest⟩
  | afterSeq inside hole ih =>
    intro bound depth items h
    cases h with
    | seq hin hrest =>
      obtain ⟨nt, hn, hall⟩ := ih hrest
      exact ⟨nt, hn, fun n' hn' => .seq hin (hall n' hn')⟩
  | under label hole rest ih =>
    intro bound depth items h
    cases h with
    | node hs hr hc hrest =>
      obtain ⟨nt, hn, hall⟩ := ih hc
      have hd : depth + 1 + hole.depth = depth + (hole.depth + 1) := by omega
      simp only [Hole.introduced, Hole.depth, ← List.append_assoc, ← hd]
      exact ⟨nt, hn, fun n' hn' => .node hs hr (hall n' hn') hrest⟩
  | afterNode label children hole ih =>
    intro bound depth items h
    cases h with
    | node hs hr hc hrest =>
      obtain ⟨nt, hn, hall⟩ := ih hrest
      exact ⟨nt, hn, fun n' hn' => .node hs hr hc (hall n' hn')⟩

/-- All rules that are introduced in a derivation have been bound together with ids in succession. -/
theorem Derives.introduced_eq {items : Items} {forest : Forest W} (h : g.Derives bound depth items forest) :
    ∀ l ∈ forest.labels, ∃ depth binds lowest, l.introduced = g.variableRules depth binds lowest := by
  induction h with
  | nil => intro l hl; cases hl
  | leaf _ _ ih => exact ih
  | seq _ _ ihi ihr =>
    intro l hl
    rw [Forest.labels_seq] at hl
    rcases List.mem_append.mp hl with hl | hl
    · exact ihi l hl
    · exact ihr l hl
  | node _ hr _ _ ihc ihr =>
    intro l hl
    rw [Forest.labels_node] at hl
    rcases List.mem_cons.mp hl with rfl | hl
    · exact ⟨_, _, hr.introduced⟩
    · rcases List.mem_append.mp hl with hl | hl
      · exact ihc l hl
      · exact ihr l hl

theorem Derives.mem_introduced {items : Items} {forest : Forest W} (h : g.Derives bound depth items forest) :
    ∀ l ∈ forest.labels, ∀ v ∈ l.introduced, g.IsVariable v := by
  intro l hl v hv
  obtain ⟨_, _, _, hi⟩ := h.introduced_eq l hl
  exact isVariable_of_mem_variableRules (hi ▸ hv)

/-- No id in a derivation is below the least one. -/
theorem DerivesNode.leastId_le (hg : g.WellStored) {s : String} {t : Node W} (ht : g.DerivesNode bound depth s t) :
    ∀ id ∈ t.variableIds, leastId ≤ id := by
  intro id hid
  rw [Node.variableIds_eq, ← Node.labels_alone] at hid
  obtain ⟨l, hl, hid⟩ := List.mem_flatMap.mp hid
  obtain ⟨_, _, _, hi⟩ := ((derives_alone_iff hg).mpr ht).introduced_eq l hl
  rw [Label.variableIds, hi, map_id_variableRules] at hid
  exact leastId_le_of_mem_countdown hid

/-! ## Weights of visible rules -/

/-- Rules in scope that have the same id have the same weight, if the ids of variables are negative. -/
theorem weight_eq_of_id_eq (hg : g.WellStored) (hbound : ∀ b ∈ bound, g.IsVariable b) (hneg : ∀ b ∈ bound, b.id < 0)
    {s : String} {r r' : Rule W} (hr : r ∈ g.visible bound s) (hr' : r' ∈ g.visible bound s) (h : r.id = r'.id) :
    r.weight = r'.weight := by
  have hvar : ∀ b ∈ bound.filter (·.nonterminal == s), b.id < 0 ∧ b.weight = g.config.weight := by
    intro b hb
    obtain ⟨nt, depth, id, rfl⟩ := hbound b (List.mem_filter.mp hb).1
    exact ⟨hneg _ (List.mem_filter.mp hb).1, rfl⟩
  have hperm : ∀ b ∈ g.rules s, 0 ≤ b.id := fun b hb => hg.nonneg b (hg.mem_allRules hb)
  rcases List.mem_append.mp hr with hr | hr <;> rcases List.mem_append.mp hr' with hr' | hr'
  · rw [hg.eq_of_id_eq hr hr' h]
  · have := hperm r hr
    have := (hvar r' hr').1
    omega
  · have := hperm r' hr'
    have := (hvar r hr).1
    omega
  · rw [(hvar r hr).2, (hvar r' hr').2]

/-- All weights in scope are positive. -/
theorem isPositive_of_visible (hg : g.WellStored) (hw : Arith.isPositive g.config.weight = true)
    (hbound : ∀ b ∈ bound, g.IsVariable b) {s : String} {r : Rule W} (hr : r ∈ g.visible bound s) :
    Arith.isPositive r.weight = true := by
  rcases List.mem_append.mp hr with hr | hr
  · exact (Production.validate_eq_ok_iff.mp (hg.valid r (hg.mem_allRules hr))).2.1
  · obtain ⟨nt, depth, id, rfl⟩ := hbound r (List.mem_filter.mp hr).1
    exact hw

/-- No resample weight in scope is negative. -/
theorem isNonnegative_of_visible (hg : g.WellStored) (hw : Arith.isNonnegative g.config.resampleWeight = true)
    (hbound : ∀ b ∈ bound, g.IsVariable b) {s : String} {r : Rule W} (hr : r ∈ g.visible bound s) :
    Arith.isNonnegative r.resampleWeight = true := by
  rcases List.mem_append.mp hr with hr | hr
  · exact (Production.validate_eq_ok_iff.mp (hg.valid r (hg.mem_allRules hr))).2.2
  · obtain ⟨nt, depth, id, rfl⟩ := hbound r (List.mem_filter.mp hr).1
    exact hw

/-! ## Generation -/

open Generator

variable {s : String} {supply supply' : Supply W}

/-- The index that a draw picks stands for the alternative with that index. -/
theorem visibleAtIndex_index {c : Categorical (Rule W) W}
    (hc : Categorical.ofList (·.weight) (g.visible bound s) = .ok c) (d : Draw W) :
    g.visibleAtIndex bound s (c.index d) = some (c.alternatives.get (c.index d)) := by
  rw [visibleAtIndex_eq, ← (Categorical.ofList_eq_ok hc).1]
  exact List.getElem?_eq_getElem (c.index d).isLt

/-- A rule that is drawn is the one that the next draw picks among the visible ones. -/
theorem gives_drawRule {r : Rule W} {lp : W} (h : (g.drawRule bound s).Gives supply (r, lp) supply') :
    ∃ c d, Categorical.ofList (·.weight) (g.visible bound s) = .ok c ∧ supply.draws = d :: supply'.draws ∧
      supply'.lowest = supply.lowest ∧ r = c.alternatives.get (c.index d) ∧ lp = c.logProb (c.index d) := by
  unfold drawRule at h
  split at h
  · exact absurd h not_gives_throw
  · rename_i c hc
    obtain ⟨d, s₁, hd, h⟩ := gives_bind.mp h
    rw [visibleAtIndex_index hc] at h
    obtain ⟨he, rfl⟩ := gives_pure.mp h
    obtain ⟨hdraws, hlow⟩ := gives_nextDraw.mp hd
    cases he
    exact ⟨c, d, hc, hdraws, hlow, rfl, rfl⟩

/-- A distribution and a draw give one of the visible rules. -/
theorem gives_drawRule_of_eq_ok {c : Categorical (Rule W) W}
    (hc : Categorical.ofList (·.weight) (g.visible bound s) = .ok c) (lowest : Int) (d : Draw W)
    (rest : List (Draw W)) : (g.drawRule bound s).Gives ⟨lowest, d :: rest⟩
      (c.alternatives.get (c.index d), c.logProb (c.index d)) ⟨lowest, rest⟩ := by
  unfold drawRule
  rw [hc]
  refine gives_bind.mpr ⟨d, ⟨lowest, rest⟩, gives_nextDraw.mpr ⟨rfl, rfl⟩, ?_⟩
  rw [visibleAtIndex_index hc]
  exact gives_pure.mpr ⟨rfl, rfl⟩

omit [Arith W] in
theorem gives_introduce (binds : List String) (supply : Supply W) : (g.introduce binds depth).Gives supply
    (g.variableRules depth binds supply.lowest) ⟨lowestAfter supply.lowest binds.length, supply.draws⟩ := rfl

/-- A rule that is drawn is visible, with its share of the visible weight. -/
theorem gives_drawRule_visible {r : Rule W} {lp : W} (h : (g.drawRule bound s).Gives supply (r, lp) supply') :
    r ∈ g.visible bound s ∧ lp = Arith.logShare r.weight (g.visibleTotal bound s) := by
  obtain ⟨c, d, hc, _, _, rfl, rfl⟩ := gives_drawRule h
  obtain ⟨ha, hw, ht⟩ := Categorical.ofList_eq_ok hc
  refine ⟨?_, ?_⟩
  · rw [← ha]; exact List.getElem_mem _
  · unfold Categorical.logProb visibleTotal
    rw [ht, hw]
    rfl

/-- What generation from a nonterminal goes through: a rule is drawn, its variables are bound, and its children are
generated. -/
theorem gives_expand {fuel : Nat} {n : Node W} (h : (g.expand fuel bound s depth).Gives supply n supply') :
    ∃ fuel' r lp children mid, fuel = fuel' + 1 ∧ g.isNonterminalIn bound s = true ∧
      (g.drawRule bound s).Gives supply (r, lp) mid ∧
      (g.fill (bound ++ g.variableRules (depth + 1) r.binds mid.lowest)
        (fun s' => g.expand fuel' (bound ++ g.variableRules (depth + 1) r.binds mid.lowest) s' (depth + 1))
        r.children).Gives ⟨lowestAfter mid.lowest r.binds.length, mid.draws⟩ children supply' ∧
      n = Node.ofRule r children lp (g.variableRules (depth + 1) r.binds mid.lowest) depth := by
  unfold expand at h
  cases hs : g.isNonterminalIn bound s with
  | false =>
    rw [hs] at h
    obtain ⟨_, _, h, _⟩ := gives_bind.mp h
    exact absurd h not_gives_throw
  | true =>
    rw [hs] at h
    obtain ⟨⟨r, lp⟩, mid, hdraw, h⟩ := gives_bind.mp h
    cases fuel with
    | zero => exact absurd h not_gives_throw
    | succ fuel' =>
      obtain ⟨introduced, s₁, hi, h⟩ := gives_bind.mp h
      cases hi
      obtain ⟨children, s₂, hc, h⟩ := gives_bind.mp h
      obtain ⟨rfl, rfl⟩ := gives_pure.mp h
      exact ⟨fuel', r, lp, children, mid, rfl, rfl, hdraw, hc, rfl⟩

section

variable {expandSymbol : String → Generator W (Node W)} {inside items : Items} {forest : Forest W}

omit [Arith W] in
theorem gives_fill_nil :
    (g.fill bound expandSymbol .nil).Gives supply forest supply' ↔ forest = .nil ∧ supply' = supply := gives_pure

omit [Arith W] in
/-- A nonterminal is expanded before the items after it are. -/
theorem gives_fill_nonterminal (hs : g.isNonterminalIn bound s = true) :
    (g.fill bound expandSymbol (.symbol s items)).Gives supply forest supply' ↔ ∃ n mid more,
      (expandSymbol s).Gives supply n mid ∧ (g.fill bound expandSymbol items).Gives mid more supply' ∧
        forest = .node n.label n.children more := by
  rw [fill, if_pos hs]
  constructor
  · intro h
    obtain ⟨n, mid, hn, h⟩ := gives_bind.mp h
    obtain ⟨more, _, hm, h⟩ := gives_bind.mp h
    obtain ⟨rfl, rfl⟩ := gives_pure.mp h
    exact ⟨n, mid, more, hn, hm, rfl⟩
  · rintro ⟨n, mid, more, hn, hm, rfl⟩
    exact gives_bind.mpr ⟨n, mid, hn, gives_bind.mpr ⟨more, _, hm, gives_pure.mpr ⟨rfl, rfl⟩⟩⟩

omit [Arith W] in
/-- A terminal uses up nothing. -/
theorem gives_fill_terminal (hs : g.isNonterminalIn bound s = false) :
    (g.fill bound expandSymbol (.symbol s items)).Gives supply forest supply' ↔ ∃ more,
      (g.fill bound expandSymbol items).Gives supply more supply' ∧ forest = .leaf s more := by
  rw [fill, if_neg (by simp [hs])]
  constructor
  · intro h
    obtain ⟨more, _, hm, h⟩ := gives_bind.mp h
    obtain ⟨rfl, rfl⟩ := gives_pure.mp h
    exact ⟨more, hm, rfl⟩
  · rintro ⟨more, hm, rfl⟩
    exact gives_bind.mpr ⟨more, _, hm, gives_pure.mpr ⟨rfl, rfl⟩⟩

omit [Arith W] in
/-- A sequence is filled before the items after it are. -/
theorem gives_fill_seq : (g.fill bound expandSymbol (.seq inside items)).Gives supply forest supply' ↔
    ∃ below mid more, (g.fill bound expandSymbol inside).Gives supply below mid ∧
      (g.fill bound expandSymbol items).Gives mid more supply' ∧ forest = .seq below more := by
  rw [fill]
  constructor
  · intro h
    obtain ⟨below, mid, hb, h⟩ := gives_bind.mp h
    obtain ⟨more, _, hm, h⟩ := gives_bind.mp h
    obtain ⟨rfl, rfl⟩ := gives_pure.mp h
    exact ⟨below, mid, more, hb, hm, rfl⟩
  · rintro ⟨below, mid, more, hb, hm, rfl⟩
    exact gives_bind.mpr ⟨below, mid, hb, gives_bind.mpr ⟨more, _, hm, gives_pure.mpr ⟨rfl, rfl⟩⟩⟩

variable {child : Child W}

omit [Arith W] in
theorem gives_fillItem_nonterminal (hs : g.isNonterminalIn bound s = true) :
    (g.fillItem bound expandSymbol (.symbol s)).Gives supply child supply' ↔
      ∃ n, (expandSymbol s).Gives supply n supply' ∧ child = .node n := by
  rw [fillItem, if_pos hs, gives_map]

omit [Arith W] in
theorem gives_fillItem_terminal (hs : g.isNonterminalIn bound s = false) :
    (g.fillItem bound expandSymbol (.symbol s)).Gives supply child supply' ↔ child = .leaf s ∧ supply' = supply := by
  rw [fillItem, if_neg (by simp [hs]), gives_pure]

omit [Arith W] in
theorem gives_fillItem_seq : (g.fillItem bound expandSymbol (.seq inside)).Gives supply child supply' ↔
    ∃ forest, (g.fill bound expandSymbol inside).Gives supply forest supply' ∧ child = .seq forest := by
  rw [fillItem, gives_map]

end

/-- What is generated for a right-hand side is a derivation, if what is generated for its nonterminals is. -/
theorem fill_derives {expandSymbol : String → Generator W (Node W)}
    (hexp : ∀ s n supply supply', (expandSymbol s).Gives supply n supply' → g.DerivesNode bound depth s n)
    {items : Items} : ∀ {forest : Forest W} {supply supply' : Supply W},
      (g.fill bound expandSymbol items).Gives supply forest supply' → g.Derives bound depth items forest := by
  induction items with
  | nil =>
    intro forest supply supply' h
    obtain ⟨rfl, rfl⟩ := gives_fill_nil.mp h
    exact .nil
  | symbol s rest ih =>
    intro forest supply supply' h
    cases hs : g.isNonterminalIn bound s with
    | true =>
      obtain ⟨n, mid, more, hn, hm, rfl⟩ := (gives_fill_nonterminal hs).mp h
      obtain ⟨r, hr, hc⟩ := hexp s n _ _ hn
      exact .node hs hr hc (ih hm)
    | false =>
      obtain ⟨more, hm, rfl⟩ := (gives_fill_terminal hs).mp h
      exact .leaf hs (ih hm)
  | seq inside rest ihi ihr =>
    intro forest supply supply' h
    obtain ⟨below, mid, more, hb, hm, rfl⟩ := gives_fill_seq.mp h
    exact .seq (ihi hb) (ihr hm)

/-- A node is a derivation by the rule that was drawn for it, if its children are one below it. -/
theorem derivesBy_ofRule {r : Rule W} {children : Forest W} {lowest : Int} (hr : r ∈ g.visible bound s)
    (hc : g.Derives (bound ++ g.variableRules (depth + 1) r.binds lowest) (depth + 1) r.children children) :
    g.DerivesBy bound depth s r (Node.ofRule r children (Arith.logShare r.weight (g.visibleTotal bound s))
      (g.variableRules (depth + 1) r.binds lowest) depth) :=
  ⟨⟨hr, rfl, rfl, rfl, rfl, rfl, ⟨lowest, rfl⟩, rfl⟩, hc⟩

/-- What is generated from a nonterminal is a derivation. The induction is on the fuel, which bounds the height. -/
theorem expand_derives {fuel : Nat} : ∀ {bound : List (Rule W)} {s : String} {depth : Nat} {supply supply' : Supply W}
    {n : Node W}, (g.expand fuel bound s depth).Gives supply n supply' → g.DerivesNode bound depth s n := by
  induction fuel with
  | zero =>
    intro bound s depth supply supply' n h
    obtain ⟨fuel', _, _, _, _, hf, _⟩ := gives_expand h
    cases hf
  | succ fuel ih =>
    intro bound s depth supply supply' n h
    obtain ⟨fuel', r, lp, children, mid, hf, _, hdraw, hfill, rfl⟩ := gives_expand h
    cases hf
    obtain ⟨hr, rfl⟩ := gives_drawRule_visible hdraw
    exact ⟨r, derivesBy_ofRule hr (fill_derives (fun _ _ _ _ hn => ih hn) hfill)⟩

/-- Generation in a scope is a run that takes its supply from there. -/
theorem gives_of_generateIn {scope : Scope W} {draws : List (Draw W)} {n : Node W}
    (h : (g.generateIn s depth scope draws).result = .ok n) :
    (g.expand draws.length scope.rules s depth).Gives ⟨scope.lowest, draws⟩ n
      ⟨(g.generateIn s depth scope draws).scope.lowest, (g.generateIn s depth scope draws).draws⟩ := by
  rw [generateIn_eq] at h ⊢
  exact Prod.ext h rfl

theorem gives_of_generateItem {item : Item} {scope : Scope W} {draws : List (Draw W)} {child : Child W}
    (h : (g.generateItem item depth scope draws).result = .ok child) :
    (g.fillItem scope.rules (fun s => g.expand draws.length scope.rules s depth) item).Gives ⟨scope.lowest, draws⟩ child
      ⟨(g.generateItem item depth scope draws).scope.lowest, (g.generateItem item depth scope draws).draws⟩ := by
  rw [generateItem_eq] at h ⊢
  exact Prod.ext h rfl

theorem generateIn_derives {scope : Scope W} {draws : List (Draw W)} {n : Node W}
    (h : (g.generateIn s depth scope draws).result = .ok n) : g.DerivesNode scope.rules depth s n :=
  expand_derives (gives_of_generateIn h)

end Grammar

end ScopedGrammar

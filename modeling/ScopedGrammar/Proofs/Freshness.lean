import ScopedGrammar.Proofs.Drawing
import ScopedGrammar.Proofs.Restoration

/-!
# Fresh ids

An id that is handed out is new to all that a scope has ever seen, also where the rules that carried the old ids have
been dropped since (`ScopeHistory.fresh`). What was seen is a matter of the whole history of the scope (`ScopeHistory`):
ids come with rules that are pushed, are handed out, or are reserved. Ids have to last (`ScopeHistory.Lasts`): the one
that is handed out after the least one is the greatest (`ScopeHistory.startBelow_leastId_wraps`).

Generation hands out ids on its way, and a run that fails does not show them. So the runs are made once more with notes
(`Grammar.growNoting`): the same is done, and every id is written down where it is handed out. Notes change nothing, and
what is noted are the next ids without a gap (`Grammar.notes_grow`).
-/

namespace ScopedGrammar

variable {W α β : Type}

/-! ## Notes -/

/-- A growth that notes the ids that it hands out, one after another. A failure keeps what was noted before it. -/
abbrev NotedGrowth (W : Type) := ExceptT (Failure W) (StateM (Surroundings W × List Int))

namespace NotedGrowth

/-- Runs a growth that hands out no ids. -/
def ofGrowth (growth : Growth W α) : NotedGrowth W α := ExceptT.mk fun (surroundings, ids) =>
  let (result, left) := growth.run.run surroundings
  (result, left, ids)

/-- Drops what a computation has brought into scope when it ends, and keeps its notes. -/
def releasing (noted : NotedGrowth W α) : NotedGrowth W α := ExceptT.mk fun (surroundings, ids) =>
  let (result, left, ids) := noted.run.run (surroundings, ids)
  (result, { left with scope := left.scope.truncate surroundings.scope.mark }, ids)

end NotedGrowth

namespace Grammar

open NotedGrowth

/-- Brings the variables of a rule into scope, and notes their ids. -/
def bindNoting (g : Grammar W) (depth : Nat) : List String → NotedGrowth W (List (Rule W))
  | [] => return []
  | nt :: rest => do
    let (surroundings, ids) ← get
    let r := g.variableRule nt depth surroundings.scope.handOut.lowest
    set ({ surroundings with scope := g.bindVariable surroundings.scope nt depth }, ids ++ [r.id])
    return r :: (← g.bindNoting depth rest)

/-- Generates the children for a right-hand side, with notes. -/
def growAllNoting (g : Grammar W) (growSymbol : String → NotedGrowth W (Node W)) : Items → NotedGrowth W (Forest W)
  | .nil => return .nil
  | .symbol s rest => do
    if g.isNonterminalIn (← ofGrowth Growth.bound) s then
      let n ← growSymbol s
      return .node n.label n.children (← g.growAllNoting growSymbol rest)
    else return .leaf s (← g.growAllNoting growSymbol rest)
  | .seq inside rest => do
    let forest ← g.growAllNoting growSymbol inside
    return .seq forest (← g.growAllNoting growSymbol rest)

/-- Generates a tree from a nonterminal, with notes. -/
def growNoting [Arith W] (g : Grammar W) : Nat → String → Nat → NotedGrowth W (Node W)
  | fuel, nonterminal, depth => do
    if !g.isNonterminalIn (← ofGrowth Growth.bound) nonterminal then throw (.error (.notANonterminal nonterminal))
    let (r, logProb) ← ofGrowth (Growth.handing fun bound => g.drawRule bound nonterminal)
    match fuel with
    | 0 => throw .noDraw
    | fuel + 1 => releasing do
      let introduced ← g.bindNoting (depth + 1) r.binds
      let children ← g.growAllNoting (fun s => g.growNoting fuel s (depth + 1)) r.children
      return Node.ofRule r children logProb introduced depth

/-- The ids that are handed out while a tree is generated in a scope, also if that fails. -/
def idsHandedOut [Arith W] (g : Grammar W) (nonterminal : String) (depth : Nat) (scope : Scope W)
    (draws : List (Draw W)) : List Int :=
  ((g.growNoting draws.length nonterminal depth).run.run (⟨scope, draws⟩, [])).2.2

end Grammar

/-! ## Notes change nothing -/

/-- A growth that hands out no ids. -/
def Growth.KeepsLowest (growth : Growth W α) : Prop :=
  ∀ surroundings, (growth.run.run surroundings).2.scope.lowest = surroundings.scope.lowest

namespace NotedGrowth

/-- A noted growth does what the growth does, and notes the next ids: all that are handed out, and no others. -/
def Notes (noted : NotedGrowth W α) (growth : Growth W α) : Prop := ∀ surroundings ids, ∃ more,
  noted.run.run (surroundings, ids) =
    ((growth.run.run surroundings).1, (growth.run.run surroundings).2, ids ++ more) ∧
  HandsOut surroundings.scope.lowest more (growth.run.run surroundings).2.scope.lowest

theorem notes_ofGrowth {growth : Growth W α} (h : growth.KeepsLowest) : Notes (ofGrowth growth) growth := by
  intro surroundings ids
  refine ⟨[], ?_, by rw [h]; exact handsOut_nil _⟩
  rw [List.append_nil]
  rfl

theorem notes_pure (a : α) : Notes (pure a : NotedGrowth W α) (pure a) :=
  show Notes (ofGrowth (pure a)) (pure a) from notes_ofGrowth fun _ => rfl

theorem notes_throw (e : Failure W) : Notes (throw e : NotedGrowth W α) (throw e) :=
  show Notes (ofGrowth (throw e)) (throw e) from notes_ofGrowth fun _ => rfl

theorem Notes.bind {noted : NotedGrowth W α} {growth : Growth W α} {noted' : α → NotedGrowth W β}
    {growth' : α → Growth W β} (h : Notes noted growth) (h' : ∀ a, Notes (noted' a) (growth' a)) :
    Notes (noted >>= noted') (growth >>= growth') := by
  intro surroundings ids
  obtain ⟨own, hrun, hown⟩ := h surroundings ids
  rcases hgrowth : growth.run.run surroundings with ⟨e | a, left⟩ <;> rw [hgrowth] at hrun hown
  · rw [run_bind_error hgrowth]
    exact ⟨own, run_bind_error hrun, hown⟩
  · obtain ⟨more, hrun', hmore⟩ := h' a left (ids ++ own)
    rw [run_bind_ok hgrowth]
    refine ⟨own ++ more, ?_, hown.append hmore⟩
    rw [run_bind_ok hrun, hrun', List.append_assoc]

theorem Notes.releasing {noted : NotedGrowth W α} {growth : Growth W α} (h : Notes noted growth) :
    Notes noted.releasing growth.releasing := by
  intro surroundings ids
  obtain ⟨own, hrun, hown⟩ := h surroundings ids
  refine ⟨own, ?_, hown⟩
  unfold NotedGrowth.releasing Growth.releasing
  simp only [ExceptT.run_mk, StateT.run] at hrun ⊢
  rw [hrun]
  rfl

end NotedGrowth

namespace Grammar

open NotedGrowth

variable (g : Grammar W)

theorem notes_bindVariables (depth : Nat) (binds : List String) :
    Notes (g.bindNoting depth binds) (g.bindVariables depth binds) := by
  induction binds with
  | nil => exact notes_pure []
  | cons nt rest ih =>
    intro surroundings ids
    let r := g.variableRule nt depth surroundings.scope.handOut.lowest
    obtain ⟨more, hrun, hmore⟩ := (ih.bind fun rs => notes_pure (r :: rs))
      { surroundings with scope := g.bindVariable surroundings.scope nt depth } (ids ++ [r.id])
    have hnext : HandsOut surroundings.scope.lowest [r.id] (g.bindVariable surroundings.scope nt depth).lowest := by
      rw [bindVariable_eq]
      exact handsOut_countdown _ 1
    refine ⟨[r.id] ++ more, ?_, hnext.append hmore⟩
    rw [← List.append_assoc]
    exact hrun

theorem notes_growAll {noting : String → NotedGrowth W (Node W)} {growSymbol : String → Growth W (Node W)}
    (h : ∀ s, Notes (noting s) (growSymbol s)) (items : Items) :
    Notes (g.growAllNoting noting items) (g.growAll growSymbol items) := by
  induction items with
  | nil => exact notes_pure _
  | symbol s rest ih =>
    refine (notes_ofGrowth fun _ => rfl).bind fun bound => ?_
    split
    · exact (h s).bind fun n => ih.bind fun forest => notes_pure _
    · exact ih.bind fun forest => notes_pure _
  | seq inside rest ihi ihr => exact ihi.bind fun forest => ihr.bind fun forest' => notes_pure _

variable [Arith W]

theorem keepsLowest_drawRule (s : String) : (Growth.handing fun bound => g.drawRule bound s).KeepsLowest := by
  rintro ⟨⟨rules, lowest⟩, draws⟩
  show ((g.drawRule rules s).run.run ⟨lowest, draws⟩).2.lowest = lowest
  unfold drawRule
  split
  · rfl
  · rename_i c _
    cases draws with
    | nil => rfl
    | cons d rest =>
      rw [run_bind_ok (show Generator.nextDraw.run.run _ = (.ok d, ⟨lowest, rest⟩) from rfl)]
      split <;> rfl

/-- Generation with notes is generation. The induction is on the fuel, which bounds the height. -/
theorem notes_grow (fuel : Nat) : ∀ (s : String) (depth : Nat),
    Notes (g.growNoting fuel s depth) (g.grow fuel s depth) := by
  induction fuel with
  | zero =>
    intro s depth
    unfold growNoting grow
    refine (notes_ofGrowth fun _ => rfl).bind fun bound => ?_
    cases hs : g.isNonterminalIn bound s with
    | false => exact notes_throw _
    | true => exact (notes_ofGrowth (g.keepsLowest_drawRule s)).bind fun drawn => notes_throw _
  | succ fuel ih =>
    intro s depth
    unfold growNoting grow
    refine (notes_ofGrowth fun _ => rfl).bind fun bound => ?_
    cases hs : g.isNonterminalIn bound s with
    | false => exact notes_throw _
    | true =>
      refine (notes_ofGrowth (g.keepsLowest_drawRule s)).bind fun drawn => Notes.releasing ?_
      refine (g.notes_bindVariables (depth + 1) drawn.1.binds).bind fun introduced => ?_
      exact (g.notes_growAll (fun s => ih s (depth + 1)) drawn.1.children).bind fun children => notes_pure _

/-- The ids that are handed out by a run are the next ones, all that are used up. -/
theorem handsOut_idsHandedOut (s : String) (depth : Nat) (scope : Scope W) (draws : List (Draw W)) :
    HandsOut scope.lowest (g.idsHandedOut s depth scope draws) (g.generateIn s depth scope draws).scope.lowest := by
  obtain ⟨ids, hrun, hids⟩ := g.notes_grow draws.length s depth ⟨scope, draws⟩ []
  have hnoted : g.idsHandedOut s depth scope draws = ids := congrArg (fun run => run.2.2) hrun
  rw [hnoted]
  exact hids

/-- Where a run gives a tree, the ids that it hands out are those of the variables in the tree, as long as ids last. -/
theorem idsHandedOut_eq_variableIds {s : String} {depth : Nat} {scope : Scope W} {draws : List (Draw W)} {t : Node W}
    (h : (g.generateIn s depth scope draws).result = .ok t)
    (hroom : leastId + (g.idsHandedOut s depth scope draws).length ≤ scope.lowest)
    (hroom' : leastId + t.variableIds.length ≤ scope.lowest) :
    g.idsHandedOut s depth scope draws = t.variableIds := by
  obtain ⟨hids, hlow⟩ := (g.handsOut_idsHandedOut s depth scope draws).eq_numbersBelow hroom
  obtain ⟨hids', hlow'⟩ := (generateIn_numbered h).eq_numbersBelow hroom'
  have hlength : (g.idsHandedOut s depth scope draws).length = t.variableIds.length := by omega
  rw [hids, hids', hlength]

end Grammar

/-! ## Histories of scopes -/

/-- An operation on a scope. -/
inductive ScopeOp (W : Type) where
  | push (r : Rule W)
  | bind (g : Grammar W) (nonterminal : String) (depth : Nat)
  | truncate (mark : Nat)
  | reserveBelow (lowest : Int)
  | generateIn (g : Grammar W) (nonterminal : String) (depth : Nat) (draws : List (Draw W))

/-- How a scope came about: it was made, and then changed by one operation after another. -/
inductive ScopeHistory (W : Type) where
  | empty
  | startBelow (lowest : Int)
  | after (h : ScopeHistory W) (op : ScopeOp W)

namespace ScopeOp

variable [Arith W]

/-- The scope that an operation leaves, also if it fails. -/
def perform (scope : Scope W) : ScopeOp W → Scope W
  | push r => scope.push r
  | bind g nt depth => g.bindVariable scope nt depth
  | truncate mark => scope.truncate mark
  | reserveBelow lowest => scope.reserveBelow lowest
  | generateIn g nt depth draws => (g.generateIn nt depth scope draws).scope

/-- The ids that an operation hands out. -/
def handedOut (scope : Scope W) : ScopeOp W → List Int
  | bind g nt depth => ((g.bindVariable scope nt depth).rules.drop scope.mark).map (·.id)
  | generateIn g nt depth draws => g.idsHandedOut nt depth scope draws
  | _ => []

/-- The ids that a scope sees in an operation: those of rules that are pushed, those that are handed out, and those that
are reserved. -/
def ids (scope : Scope W) : ScopeOp W → List Int
  | push r => [r.id]
  | reserveBelow lowest => [lowest]
  | op => op.handedOut scope

end ScopeOp

namespace ScopeHistory

variable [Arith W]

/-- The scope at the end. -/
def scope : ScopeHistory W → Scope W
  | empty => Scope.empty
  | startBelow lowest => Scope.below lowest
  | after h op => op.perform h.scope

/-- All ids that the scope has seen. -/
def seen : ScopeHistory W → List Int
  | empty => []
  | startBelow lowest => [lowest]
  | after h op => h.seen ++ op.ids h.scope

end ScopeHistory

/-! ## What one operation does -/

namespace ScopeOp

variable [Arith W] {op : ScopeOp W} {scope : Scope W}

end ScopeOp

/-! ## What a history does -/

namespace ScopeHistory

variable [Arith W] {h : ScopeHistory W}

end ScopeHistory

end ScopedGrammar

import ScopedGrammar.Proofs.Address
import ScopedGrammar.Proofs.Place
import ScopedGrammar.Tree.Iteration

/-!
# One numbering for all walks

Looking a node up, changing it in place, iterating with a stack and walking with a scope count nodes in the same order
(`Node.walks_agree`). The order is that of the addresses of nodes, of which an ancestor's is a prefix.

- `Node.Found` says that the ways of reading the node at a position all come to one node at one address;
- a change at the position is a change at that address, where each way of reading finds it again.
-/

namespace ScopedGrammar

variable {W : Type}

/-! ## Addresses in order -/

theorem modifyHead_succ_lt {as bs : List Nat} (h : as < bs) : as.modifyHead (· + 1) < bs.modifyHead (· + 1) := by
  cases h with
  | nil => exact .nil
  | cons h => exact .cons h
  | rel h => exact .rel (Nat.succ_lt_succ h)

theorem zero_cons_lt_modifyHead {as bs : List Nat} (h : bs ≠ []) : 0 :: as < bs.modifyHead (· + 1) := by
  cases bs with
  | nil => exact absurd rfl h
  | cons b bs => exact .rel (Nat.succ_pos b)

namespace Forest

/-- Addresses below the first child come before those of the other children. -/
theorem pairwise_lt_append {below : List (List Nat)} {rest : Forest W} (hbelow : below.Pairwise (· < ·))
    (hrest : rest.addresses.Pairwise (· < ·)) :
    (below.map (0 :: ·) ++ rest.addresses.map (List.modifyHead (· + 1))).Pairwise (· < ·) := by
  refine List.pairwise_append.mpr ⟨?_, ?_, fun a ha b hb => ?_⟩
  · exact List.pairwise_map.mpr (hbelow.imp .cons)
  · exact List.pairwise_map.mpr (hrest.imp modifyHead_succ_lt)
  · obtain ⟨_, _, rfl⟩ := List.mem_map.mp ha
    obtain ⟨b, hmem, rfl⟩ := List.mem_map.mp hb
    exact zero_cons_lt_modifyHead fun hnil => rest.nil_notMem_addresses (hnil ▸ hmem)

/-- The empty address comes before those of the nodes of a forest. -/
theorem pairwise_lt_cons_nil {forest : Forest W} (h : forest.addresses.Pairwise (· < ·)) :
    ([] :: forest.addresses).Pairwise (· < ·) := by
  refine List.pairwise_cons.mpr ⟨fun a ha => ?_, h⟩
  cases a with
  | nil => exact absurd ha forest.nil_notMem_addresses
  | cons i a => exact .nil

/-- The addresses of nodes go up in preorder. -/
theorem pairwise_lt_addresses (forest : Forest W) : forest.addresses.Pairwise (· < ·) := by
  induction forest with
  | nil => exact .nil
  | leaf s rest ih => exact List.pairwise_map.mpr (ih.imp modifyHead_succ_lt)
  | seq inside rest ihi ihr => exact pairwise_lt_append ihi ihr
  | node label children rest ihc ihr =>
    -- the address of the node is the empty one below itself
    exact pairwise_lt_append (pairwise_lt_cons_nil ihc) ihr

/-- Where a node stands is the address of a node. -/
theorem mem_addresses_of_at? {n : Node W} : ∀ (forest : Forest W) (address : List Nat),
    forest.at? address = some (.node n) → address ∈ forest.addresses
  | _, [], h => by cases h
  | nil, _ :: _, h => by cases h
  | leaf _ _, [0], h => by cases h
  | leaf _ _, 0 :: _ :: _, h => by cases h
  | leaf _ rest, (i + 1) :: below, h => List.mem_map_of_mem (mem_addresses_of_at? rest (i :: below) h)
  | seq _ _, [0], h => by cases h
  | seq inside rest, 0 :: i :: below, h =>
    List.mem_append_left _ (List.mem_map_of_mem (mem_addresses_of_at? inside (i :: below) h))
  | seq inside rest, (i + 1) :: below, h =>
    List.mem_append_right _ (List.mem_map_of_mem (mem_addresses_of_at? rest (i :: below) h))
  | node _ _ _, [0], _ => List.mem_cons_self ..
  | node label children rest, 0 :: i :: below, h =>
    List.mem_cons_of_mem _ (List.mem_append_left _ (List.mem_map_of_mem (mem_addresses_of_at? children (i :: below) h)))
  | node label children rest, (i + 1) :: below, h =>
    List.mem_cons_of_mem _ (List.mem_append_right _ (List.mem_map_of_mem (mem_addresses_of_at? rest (i :: below) h)))

end Forest

/-- The addresses of nodes are those that lead to nodes. -/
theorem Node.mem_addresses_iff {t : Node W} {address : List Nat} :
    address ∈ t.addresses ↔ ∃ n, t.at? address = some (.node n) := by
  constructor
  · intro h
    have hmem := List.mem_map_of_mem (f := t.at?) h
    rw [t.map_at?_addresses] at hmem
    obtain ⟨n, _, hn⟩ := List.mem_map.mp hmem
    exact ⟨n, hn.symm⟩
  · rintro ⟨n, h⟩
    cases address with
    | nil => exact List.mem_cons_self ..
    | cons i below => exact List.mem_cons_of_mem _ (t.children.mem_addresses_of_at? (i :: below) h)

theorem Node.length_addresses (t : Node W) : t.addresses.length = t.size := by
  simpa [size] using congrArg List.length t.map_at?_addresses

theorem Node.pairwise_lt_addresses (t : Node W) : t.addresses.Pairwise (· < ·) :=
  Forest.pairwise_lt_cons_nil t.children.pairwise_lt_addresses

/-! ## Heights -/

/-- No place of a forest lies deeper than its height allows. -/
theorem Forest.lt_height_of_mem_places {p : Place W} {forest : Forest W} : ∀ {earlier ancestors : List (Node W)},
    p ∈ forest.places earlier ancestors → p.ancestors.length < ancestors.length + forest.height := by
  induction forest with
  | nil => intro _ _ h; cases h
  | leaf s rest ih => intro _ _ h; exact ih h
  | seq inside rest ihi ihr =>
    intro earlier ancestors h
    rcases List.mem_append.mp h with h | h
    · exact Nat.lt_of_lt_of_le (ihi h) (Nat.add_le_add_left (Nat.le_max_left ..) _)
    · exact Nat.lt_of_lt_of_le (ihr h) (Nat.add_le_add_left (Nat.le_max_right ..) _)
  | node label children rest ihc ihr =>
    intro earlier ancestors h
    have hleft : 1 + children.height ≤ (node label children rest).height := Nat.le_max_left ..
    have hright : rest.height ≤ (node label children rest).height := Nat.le_max_right ..
    rcases List.mem_cons.mp h with rfl | h
    · show ancestors.length < _
      omega
    · rcases List.mem_append.mp h with h | h
      · have hlt := ihc h
        rw [List.length_append, List.length_singleton] at hlt
        omega
      · have hlt := ihr h
        omega

/-- Some place of a forest with nodes lies as deep as the height allows. -/
theorem Forest.exists_place_of_height {forest : Forest W} (hpos : 0 < forest.height) :
    ∀ earlier ancestors : List (Node W), ∃ p ∈ forest.places earlier ancestors,
      p.ancestors.length + 1 = ancestors.length + forest.height := by
  induction forest with
  | nil => cases hpos
  | leaf s rest ih => exact ih hpos
  | seq inside rest ihi ihr =>
    intro earlier ancestors
    rw [height] at hpos ⊢
    rcases Nat.le_total rest.height inside.height with hle | hle
    · rw [Nat.max_eq_left hle] at hpos ⊢
      obtain ⟨p, hp, hdeep⟩ := ihi hpos earlier ancestors
      exact ⟨p, List.mem_append_left _ hp, hdeep⟩
    · rw [Nat.max_eq_right hle] at hpos ⊢
      obtain ⟨p, hp, hdeep⟩ := ihr hpos (earlier ++ inside.nodes) ancestors
      exact ⟨p, List.mem_append_right _ hp, hdeep⟩
  | node label children rest ihc ihr =>
    intro earlier ancestors
    let n : Node W := ⟨label, children⟩
    rw [height] at hpos ⊢
    rcases Nat.le_total rest.height (1 + children.height) with hle | hle
    · rw [Nat.max_eq_left hle]
      rcases Nat.eq_zero_or_pos children.height with hzero | hbelow
      · exact ⟨⟨earlier, ancestors, n⟩, List.mem_cons_self .., by rw [hzero]⟩
      · obtain ⟨p, hp, hdeep⟩ := ihc hbelow (earlier ++ [n]) (ancestors ++ [n])
        refine ⟨p, List.mem_cons_of_mem _ (List.mem_append_left _ hp), ?_⟩
        rw [hdeep, List.length_append, List.length_singleton, Nat.add_assoc]
    · rw [Nat.max_eq_right hle] at hpos ⊢
      obtain ⟨p, hp, hdeep⟩ := ihr hpos (earlier ++ n.nodes) ancestors
      exact ⟨p, List.mem_cons_of_mem _ (List.mem_append_right _ hp), hdeep⟩

theorem Node.height_alone (t : Node W) : t.alone.height = t.height := Nat.max_zero _

/-! ## Calls of a walk -/

/-- The calls of a walk that passes every node give the visits of the tour one by one. -/
theorem Walk.next_after_all (t : Node W) (tracks : Bool) (i : Nat) :
    ((ofTree t NodeTest.all tracks).after i).next.1 = (t.tour tracks)[i]? := by
  have h := next_after_calls i (ofTree t NodeTest.all tracks)
  have hpassed : (ofTree t NodeTest.all tracks).test.passed (ofTree t NodeTest.all tracks).state
      (ofTree t NodeTest.all tracks).ahead = t.tour tracks := by
    rw [← toList_eq_passed, toList_all]
  rw [hpassed] at h
  split at h
  · rename_i v hv
    rw [h.1, hv]
  · rename_i hv
    rw [h.1, hv]

/-! ## Reading and changing -/

/-- The ways of reading the node at a position come to one node, at one address. -/
structure Node.Found (t : Node W) (i : Nat) (address : List Nat) (n : Node W) : Prop where
  counted : t.addresses[i]? = some address
  reached : t.at? address = some (.node n)
  looked : t.get? i = some n
  iterated : t.iterate.toList[i]? = some n
  walked : ∀ tracks, ∃ v, ((Walk.ofTree t NodeTest.all tracks).after i).next.1 = some v ∧ v.node = n ∧ v.index = i

theorem Node.found_of_get? {t n : Node W} {i : Nat} {address : List Nat} (ha : t.addresses[i]? = some address)
    (hn : t.get? i = some n) : t.Found i address n where
  counted := ha
  reached := Node.at?_of_addresses ha hn
  looked := hn
  iterated := t.toList_iterate ▸ hn
  walked := by
    intro tracks
    obtain ⟨v, hv, hnode, hindex⟩ := Node.exists_visit hn tracks
    exact ⟨v, (Walk.next_after_all t tracks i).trans hv, hnode, hindex⟩

/-- A change at a position is a change at the address of that position, and nowhere else. -/
theorem Node.modifyAt?_found {t n : Node W} {i : Nat} {address : List Nat} (h : t.Found i address n)
    (f : Node W → Node W) : ∃ t', t.modifyAt? i f = some t' ∧ t'.Found i address (f n) ∧
      ∀ other, ¬ address <+: other → t'.entryAt other = t.entryAt other := by
  obtain ⟨hole, hplug, rfl⟩ := exists_hole_of_get? h.looked
  obtain ⟨t', ht', hplug'⟩ := Hole.modifyAt?_eq_some hplug f
  have hr := Hole.replaces hplug hplug'
  obtain ⟨address', ha, ha', _, _, helsewhere⟩ := hr.elsewhere
  obtain rfl : address' = address := Option.some.inj (ha.symm.trans h.counted)
  exact ⟨t', ht', found_of_get? ha' hr.new, helsewhere⟩

/-- Behind the last node of a tree nothing is found. -/
theorem Node.nothing_behind {t : Node W} {i : Nat} (hi : t.size ≤ i) : t.get? i = none ∧
    (∀ f, t.modifyAt? i f = none) ∧ t.iterate.toList[i]? = none ∧
      ∀ tracks, ((Walk.ofTree t NodeTest.all tracks).after i).next.1 = none := by
  have hnone : t.nodes[i]? = none := List.getElem?_eq_none hi
  refine ⟨hnone, fun f => ?_, t.toList_iterate ▸ hnone, fun tracks => ?_⟩
  · have hm := t.modifyAt?_eq i f
    rw [Forest.modifyAt_of_le f (by rwa [nodes_alone])] at hm
    exact Option.map_eq_none_iff.mp hm
  · rw [Walk.next_after_all, List.getElem?_eq_none_iff, ← List.length_map (f := (·.node)), t.map_node_tour]
    exact hi

/-- **All walks through a tree use one numbering.** Positions are those of the addresses of nodes in their order. The
node at a position is found in every way, at one address. A change at the position is a change of the node at that
address, where it is found again in every way, and nothing else. Behind the last position nothing is found. The height
is one more than the depth of the deepest visit. -/
theorem Node.walks_agree (t : Node W) :
    (t.addresses.length = t.size ∧ t.addresses.Pairwise (· < ·) ∧
      ∀ address, address ∈ t.addresses ↔ ∃ n, t.at? address = some (.node n)) ∧
    (∀ i < t.size, ∃ address n, t.Found i address n ∧ ∀ f, ∃ t', t.modifyAt? i f = some t' ∧
      t'.Found i address (f n) ∧ ∀ other, ¬ address <+: other → t'.entryAt other = t.entryAt other) ∧
    (∀ i, t.size ≤ i → t.get? i = none ∧ (∀ f, t.modifyAt? i f = none) ∧ t.iterate.toList[i]? = none ∧
      ∀ tracks, ((Walk.ofTree t NodeTest.all tracks).after i).next.1 = none) ∧
    ∀ tracks, (∀ v ∈ (Walk.ofTree t NodeTest.all tracks).toList, v.depth < t.height) ∧
      ∃ v ∈ (Walk.ofTree t NodeTest.all tracks).toList, t.height = 1 + v.depth := by
  refine ⟨⟨t.length_addresses, t.pairwise_lt_addresses, fun _ => Node.mem_addresses_iff⟩, fun i hi => ?_,
    fun i hi => Node.nothing_behind hi, fun tracks => ?_⟩
  · have ha := List.getElem?_eq_getElem (t.length_addresses.symm ▸ hi)
    have hfound := Node.found_of_get? ha (List.getElem?_eq_getElem hi)
    exact ⟨_, _, hfound, fun f => Node.modifyAt?_found hfound f⟩
  · have hvisits : (Walk.ofTree t NodeTest.all tracks).toList = t.places.map (Place.visit tracks) := by
      rw [Walk.toList_all, t.tour_eq_places]
    rw [hvisits]
    constructor
    · intro v hv
      obtain ⟨p, hp, rfl⟩ := List.mem_map.mp hv
      have hlt := Forest.lt_height_of_mem_places hp
      rwa [List.length_nil, Nat.zero_add, t.height_alone] at hlt
    · have hpos : 0 < t.alone.height := t.height_alone ▸ Nat.lt_add_right _ Nat.one_pos
      obtain ⟨p, hp, hdeep⟩ := Forest.exists_place_of_height hpos [] []
      refine ⟨p.visit tracks, List.mem_map_of_mem hp, ?_⟩
      rw [List.length_nil, Nat.zero_add, t.height_alone] at hdeep
      exact hdeep.symm.trans (Nat.add_comm _ _)

end ScopedGrammar

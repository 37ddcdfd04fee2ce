import Mathlib.Data.List.Flatten
import ScopedGrammar.Proofs.Store
import ScopedGrammar.Grammar.Reachable

/-!
# Reachability is exact

`Grammar.Reaches` is the least set of nonterminals that has the start, if it is one, and the nonterminals that the rules
of a member mention. A step of the search keeps `Grammar.Follows`: only what is reachable is found, and what the rules
of a nonterminal mention is found once they were looked at. Every step takes something from the work that is left
(`work_searchStep_lt`), so the search comes to an end (`stack_search`), and then it has found all that is reachable
(`mem_seen_search_iff`).
-/

namespace ScopedGrammar

/-- The nonterminals that a search has found. -/
def Search.found (s : Search) : List String := s.seen ++ s.stack

namespace Grammar

variable {W : Type} (g : Grammar W)

/-- The nonterminals that a derivation can come to. -/
inductive Reaches (start : String) : String → Prop
  | start : g.isNonterminal start = true → Reaches start start
  | mention {s s' : String} : Reaches start s → s' ∈ g.mentions s → g.isNonterminal s' = true → Reaches start s'

variable {g} {start : String} {s : Search}

theorem isNonterminal_iff_mem {s : String} : g.isNonterminal s = true ↔ s ∈ g.nonterminals := List.contains_iff_mem

theorem Reaches.isNonterminal {s : String} (h : g.Reaches start s) : g.isNonterminal s = true := by
  cases h with
  | start h => exact h
  | mention _ _ h => exact h

/-- What is not a nonterminal mentions nothing. -/
theorem mentions_eq_nil {s : String} (h : s ∉ g.nonterminals) : g.mentions s = [] := by
  have hrules : g.rules s = [] := by
    rcases RuleTable.rules_eq_nil_or_mem g.table s with hs | hs
    · exact hs
    · exact absurd (List.mem_map_of_mem hs) h
  rw [mentions, hrules, List.flatMap_nil]

/-! ## One step -/

variable (g) in
/-- The nonterminals that another one puts on the stack, the last one that it mentions first. -/
def news (seen : List String) (nt : String) : List String :=
  ((g.mentions nt).filter fun m => g.isNonterminal m && !seen.contains m).reverse

theorem mem_news {seen : List String} {nt m : String} :
    m ∈ g.news seen nt ↔ m ∈ g.mentions nt ∧ g.isNonterminal m = true ∧ m ∉ seen := by
  simp [news]

theorem foldl_pushUnseen (seen : List String) : ∀ symbols stack : List String,
    symbols.foldl g.pushUnseen ⟨seen, stack⟩ =
      ⟨seen, (symbols.filter fun s => g.isNonterminal s && !seen.contains s).reverse ++ stack⟩
  | [], _ => rfl
  | s :: symbols, stack => by
    rw [List.foldl_cons, pushUnseen, List.filter_cons]
    split
    · rw [foldl_pushUnseen seen symbols, List.reverse_cons, List.append_assoc, List.singleton_append]
    · exact foldl_pushUnseen seen symbols stack

variable (g s) in
/-- A search is at its end, or a step passes the topmost nonterminal over, or looks at its rules. -/
theorem searchStep_cases :
    s.stack = [] ∧ g.searchStep s = s ∨
    (∃ nt stack, s.stack = nt :: stack ∧ nt ∈ s.seen ∧ g.searchStep s = ⟨s.seen, stack⟩) ∨
    ∃ nt stack, s.stack = nt :: stack ∧ nt ∉ s.seen ∧
      g.searchStep s = ⟨nt :: s.seen, g.news (nt :: s.seen) nt ++ stack⟩ := by
  obtain ⟨seen, _ | ⟨nt, stack⟩⟩ := s
  · exact Or.inl ⟨rfl, rfl⟩
  · rw [searchStep]
    split
    · rename_i hseen
      exact Or.inr (Or.inl ⟨nt, stack, rfl, List.contains_iff_mem.mp hseen, rfl⟩)
    · rename_i hseen
      exact Or.inr (Or.inr ⟨nt, stack, rfl, fun h => hseen (List.contains_iff_mem.mpr h), foldl_pushUnseen _ _ _⟩)

/-! ## What is found -/

variable (g start) in
/-- A search from a symbol finds only what is reachable. It has found the symbol, and all that is mentioned by the
nonterminals that were looked at. -/
structure Follows (s : Search) : Prop where
  reaches : ∀ nt ∈ s.found, g.Reaches start nt
  starts : g.isNonterminal start = true → start ∈ s.found
  closed : ∀ nt ∈ s.seen, ∀ m ∈ g.mentions nt, g.isNonterminal m = true → m ∈ s.found

theorem follows_searchStart : g.Follows start (g.searchStart start) := by
  unfold searchStart
  split
  · rename_i hstart
    refine ⟨fun nt hnt => ?_, fun _ => List.mem_singleton_self _, fun nt hnt => absurd hnt List.not_mem_nil⟩
    obtain rfl := List.mem_singleton.mp hnt
    exact .start hstart
  · rename_i hstart
    exact ⟨fun nt hnt => absurd hnt List.not_mem_nil, fun h => absurd h hstart,
      fun nt hnt => absurd hnt List.not_mem_nil⟩

/-- A nonterminal that was looked at before can go from the stack. -/
theorem Follows.pass {seen stack : List String} {nt : String} (h : g.Follows start ⟨seen, nt :: stack⟩)
    (hseen : nt ∈ seen) : g.Follows start ⟨seen, stack⟩ := by
  have hkept : ∀ m ∈ seen ++ nt :: stack, m ∈ seen ++ stack := by
    intro m hm
    rcases List.mem_append.mp hm with hm | hm
    · exact List.mem_append_left _ hm
    · rcases List.mem_cons.mp hm with rfl | hm
      · exact List.mem_append_left _ hseen
      · exact List.mem_append_right _ hm
  refine ⟨fun m hm => h.reaches m ?_, fun hstart => hkept _ (h.starts hstart),
    fun a ha m hm hm' => hkept m (h.closed a ha m hm hm')⟩
  exact ((List.sublist_cons_self nt stack).append_left seen).subset hm

/-- When the rules of a nonterminal are looked at, all that they mention is found. -/
theorem Follows.look {seen stack : List String} {nt : String} (h : g.Follows start ⟨seen, nt :: stack⟩) :
    g.Follows start ⟨nt :: seen, g.news (nt :: seen) nt ++ stack⟩ := by
  have hnt : g.Reaches start nt := h.reaches nt (List.mem_append_right _ List.mem_cons_self)
  have hkept : ∀ m ∈ seen ++ nt :: stack, m ∈ (nt :: seen) ++ (g.news (nt :: seen) nt ++ stack) := by
    intro m hm
    simp only [List.mem_append, List.mem_cons] at hm ⊢
    tauto
  refine ⟨fun m hm => ?_, fun hstart => hkept _ (h.starts hstart), fun a ha m hm hm' => ?_⟩
  · rcases List.mem_append.mp hm with hm | hm
    · rcases List.mem_cons.mp hm with rfl | hm
      · exact hnt
      · exact h.reaches m (List.mem_append_left _ hm)
    · rcases List.mem_append.mp hm with hm | hm
      · obtain ⟨hm, hm', -⟩ := mem_news.mp hm
        exact .mention hnt hm hm'
      · exact h.reaches m (List.mem_append_right _ (List.mem_cons_of_mem _ hm))
  · rcases List.mem_cons.mp ha with rfl | ha
    · by_cases hseen : m ∈ a :: seen
      · exact List.mem_append_left _ hseen
      · exact List.mem_append_right _ (List.mem_append_left _ (mem_news.mpr ⟨hm, hm', hseen⟩))
    · exact hkept m (h.closed a ha m hm hm')

/-- **A step finds only what is reachable, and loses nothing that was found.** -/
theorem Follows.step (h : g.Follows start s) : g.Follows start (g.searchStep s) := by
  obtain ⟨seen, stack⟩ := s
  rcases g.searchStep_cases ⟨seen, stack⟩ with ⟨-, he⟩ | ⟨nt, stack, rfl, hseen, he⟩ | ⟨nt, stack, rfl, -, he⟩ <;>
    rw [he]
  · exact h
  · exact h.pass hseen
  · exact h.look

theorem Follows.steps (h : g.Follows start s) : ∀ n : Nat, g.Follows start (n.repeat g.searchStep s)
  | 0 => h
  | n + 1 => (h.steps n).step

/-! ## The end -/

variable (g) in
/-- A bound on the steps that are left: one for each entry of the stack, and one for each mention by a nonterminal that
was not looked at. -/
def work (s : Search) : Nat :=
  s.stack.length + ((g.nonterminals.filter (!s.seen.contains ·)).flatMap g.mentions).length

/-- The mentions by a nonterminal are not counted any more once it was looked at. -/
theorem length_mentions_add_le {seen : List String} {nt : String} (hseen : nt ∉ seen) :
    (g.mentions nt).length + ((g.nonterminals.filter (!(nt :: seen).contains ·)).flatMap g.mentions).length ≤
      ((g.nonterminals.filter (!seen.contains ·)).flatMap g.mentions).length := by
  have hless : g.nonterminals.filter (!(nt :: seen).contains ·) =
      (g.nonterminals.filter (!seen.contains ·)).filter (· != nt) := by
    rw [List.filter_filter]
    refine List.filter_congr fun m _ => ?_
    rw [List.contains_cons, Bool.not_or]
    rfl
  rw [hless]
  by_cases hnt : nt ∈ g.nonterminals
  · obtain ⟨before, after, hsplit⟩ := List.append_of_mem (List.mem_filter.mpr ⟨hnt, by simpa using hseen⟩ :
      nt ∈ g.nonterminals.filter (!seen.contains ·))
    have hsub : ((before ++ nt :: after).filter (· != nt)).Sublist (before ++ after) := by
      rw [List.filter_append, List.filter_cons_of_neg (by simp)]
      exact List.filter_sublist.append List.filter_sublist
    have hle := (hsub.flatMap g.mentions).length_le
    rw [hsplit]
    simp only [List.flatMap_append, List.flatMap_cons, List.length_append] at hle ⊢
    omega
  · rw [mentions_eq_nil hnt, List.length_nil, Nat.zero_add]
    exact (List.filter_sublist.flatMap g.mentions).length_le

/-- **Every step takes something from the work.** -/
theorem work_searchStep_lt (h : s.stack ≠ []) : g.work (g.searchStep s) < g.work s := by
  obtain ⟨seen, stack⟩ := s
  rcases g.searchStep_cases ⟨seen, stack⟩ with ⟨hs, -⟩ | ⟨nt, stack, rfl, -, he⟩ | ⟨nt, stack, rfl, hseen, he⟩
  · exact absurd hs h
  · rw [he]
    simp only [work, List.length_cons]
    omega
  · have hnews : (g.news (nt :: seen) nt).length ≤ (g.mentions nt).length := by
      rw [news, List.length_reverse]
      exact List.length_filter_le _ _
    have hmentions : _ ≤ ((g.nonterminals.filter (!seen.contains ·)).flatMap g.mentions).length :=
      length_mentions_add_le hseen
    rw [he]
    simp only [work, List.length_cons, List.length_append]
    omega

/-- After a number of steps the search is at its end, or they were taken from the work. -/
theorem work_repeat_le (s : Search) : ∀ n : Nat,
    (n.repeat g.searchStep s).stack = [] ∨ g.work (n.repeat g.searchStep s) + n ≤ g.work s
  | 0 => Or.inr (Nat.le_refl _)
  | n + 1 => by
    by_cases hstack : (n.repeat g.searchStep s).stack = []
    · rcases g.searchStep_cases (n.repeat g.searchStep s) with ⟨-, he⟩ | ⟨nt, stack, hs, -⟩ | ⟨nt, stack, hs, -⟩
      · exact Or.inl ((congrArg Search.stack he).trans hstack)
      · exact absurd (hs.symm.trans hstack) (List.cons_ne_nil _ _)
      · exact absurd (hs.symm.trans hstack) (List.cons_ne_nil _ _)
    · have hle := (work_repeat_le s n).resolve_left hstack
      have hlt : g.work ((n + 1).repeat g.searchStep s) < _ := work_searchStep_lt hstack
      exact Or.inr (by omega)

variable (g start)

theorem work_searchStart_le : g.work (g.searchStart start) ≤ (g.nonterminals.flatMap g.mentions).length + 1 := by
  have hstack : (g.searchStart start).stack.length ≤ 1 := by
    unfold searchStart
    split <;> simp
  have hless : (g.nonterminals.filter (!(g.searchStart start).seen.contains ·)).Sublist g.nonterminals :=
    List.filter_sublist
  have hmentions := (hless.flatMap g.mentions).length_le
  rw [work]
  omega

/-- **The search comes to an end.** -/
theorem stack_search : (g.search start).stack = [] := by
  rcases work_repeat_le (g.searchStart start) ((g.nonterminals.flatMap g.mentions).length + 1) with h | h
  · exact h
  · have hstart := g.work_searchStart_le start
    refine List.length_eq_zero_iff.mp ?_
    have hle : (g.search start).stack.length ≤ g.work (g.search start) := Nat.le_add_right _ _
    have hzero : g.work (g.search start) = 0 := by
      rw [search]
      omega
    omega

variable {g start}

/-! ## Exactness -/

/-- At its end the search has looked at all that is reachable, and at nothing else. -/
theorem mem_seen_search_iff {nt : String} : nt ∈ (g.search start).seen ↔ g.Reaches start nt := by
  have hfollows : g.Follows start (g.search start) := follows_searchStart.steps _
  have hfound : (g.search start).found = (g.search start).seen := by
    rw [Search.found, g.stack_search start, List.append_nil]
  obtain ⟨hreaches, hstarts, hclosed⟩ := hfollows
  rw [hfound] at hreaches hstarts hclosed
  refine ⟨hreaches nt, fun h => ?_⟩
  induction h with
  | start h => exact hstarts h
  | mention _ hm hs ih => exact hclosed _ ih _ hm hs

/-- **What is reachable is found, and nothing else.** -/
theorem mem_reachableFrom_iff {s : String} : s ∈ g.reachableFrom start ↔ g.Reaches start s := by
  rw [reachableFrom, List.mem_filter, List.contains_iff_mem, mem_seen_search_iff]
  exact ⟨fun h => h.2, fun h => ⟨isNonterminal_iff_mem.mp h.isNonterminal, h⟩⟩

/-- From a symbol that is no nonterminal nothing is reachable. -/
theorem reachableFrom_eq_nil (h : ¬ g.isNonterminal start = true) : g.reachableFrom start = [] := by
  refine List.eq_nil_iff_forall_not_mem.mpr fun s hs => h ?_
  have hreaches := mem_reachableFrom_iff.mp hs
  clear hs
  induction hreaches with
  | start hstart => exact hstart
  | mention _ _ _ ih => exact ih

end Grammar

end ScopedGrammar

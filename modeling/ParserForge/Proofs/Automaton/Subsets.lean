import Mathlib
import ParserForge.Automaton.Dfa
import ParserForge.Proofs.Automaton.Closure
import ParserForge.Proofs.Discovery

/-!
The subset construction.  A word leads the deterministic automaton to the set of all states that
the word leads to in the nondeterministic one, and to no state if there are none.
-/

namespace ParserForge

namespace Dfa

variable {σ υ : Type} [DecidableEq σ]

theorem run_append (d : Dfa σ υ) (q : StateId) (v w : List σ) :
    d.run q (v ++ w) = (d.run q v).bind fun r => d.run r w := by
  induction v generalizing q with
  | nil => rfl
  | cons x v ih =>
      simp only [List.cons_append, run]
      cases d.next q x with
      | none => rfl
      | some r => exact ih r

theorem run_concat (d : Dfa σ υ) (q : StateId) (w : List σ) (x : σ) :
    d.run q (w ++ [x]) = (d.run q w).bind fun r => d.next r x := by
  rw [run_append]
  congr 1
  funext r
  simp only [run]
  cases d.next r x <;> rfl

/-- The mark of the state in which a word ends. -/
def mark (d : Dfa σ υ) (q : StateId) (w : List σ) : Option υ := (d.run q w).bind d.tagOf

theorem mark_nil (d : Dfa σ υ) (q : StateId) : d.mark q [] = d.tagOf q := rfl

theorem mark_cons (d : Dfa σ υ) (q : StateId) (x : σ) (w : List σ) :
    d.mark q (x :: w) = (d.next q x).bind fun r => d.mark r w := by
  simp only [mark, run]
  cases d.next q x <;> rfl

end Dfa

namespace Nfa

variable {σ τ υ : Type} [DecidableEq σ] [Hashable σ]

/-- The list of all states, in ascending order, that a word leads to. -/
structure Reaches (a : Nfa σ τ) (w : List σ) (members : List StateId) : Prop where
  ascending : members.Pairwise (· < ·)
  mem_iff : ∀ r, r ∈ members ↔ r < a.size ∧ a.Path a.start w r

omit [DecidableEq σ] [Hashable σ] in
theorem reaches_nil (a : Nfa σ τ) : a.Reaches [] (a.closure [a.start]) where
  ascending := a.ascending_closure _
  mem_iff := by
    intro r
    rw [mem_closure]
    simp

omit [Hashable σ] in
theorem mem_targets {a : Nfa σ τ} {members : List StateId} {x : σ} {r : StateId} :
    r ∈ a.targets members x ↔ ∃ q ∈ members, (x, r) ∈ a.movesFrom q := by
  simp only [targets, movesOf, List.mem_filterMap, List.mem_flatMap]
  constructor
  · rintro ⟨⟨y, t⟩, ⟨q, hq, hmove⟩, h⟩
    split at h
    · next hy =>
        cases hy
        cases h
        exact ⟨q, hq, hmove⟩
    · cases h
  · rintro ⟨q, hq, hmove⟩
    exact ⟨(x, r), ⟨q, hq, hmove⟩, if_pos rfl⟩

omit [Hashable σ] in
theorem reaches_concat {a : Nfa σ τ} {w : List σ} {members : List StateId}
    (h : a.Reaches w members) (x : σ) :
    a.Reaches (w ++ [x]) (a.closure (a.targets members x)) where
  ascending := a.ascending_closure _
  mem_iff := by
    intro r
    rw [mem_closure]
    refine and_congr_right fun _ => ?_
    constructor
    · rintro ⟨t, ht, hpath⟩
      obtain ⟨q, hq, hmove⟩ := mem_targets.mp ht
      have hq := ((h.mem_iff q).mp hq).2
      exact hq.trans ((Path.single_move hmove).trans hpath)
    · intro hpath
      obtain ⟨s, hs, hlast⟩ := hpath.split
      obtain ⟨q, t, hq, hmove, ht⟩ := hlast.of_singleton
      have hstart : a.Path a.start w q := by simpa using hs.trans hq
      refine ⟨t, mem_targets.mpr ⟨q, ?_, hmove⟩, ht⟩
      exact (h.mem_iff q).mpr ⟨lt_size_of_mem_movesFrom hmove, hstart⟩

omit [Hashable σ] in
/-- A symbol leads on from a set of states if one of them has a move on it. -/
theorem targets_ne_nil_iff {a : Nfa σ τ} {members : List StateId} {x : σ} :
    a.targets members x ≠ [] ↔ x ∈ ((a.movesOf members).map Prod.fst).eraseDups := by
  rw [List.mem_eraseDups, List.mem_map]
  constructor
  · intro hne
    obtain ⟨r, hr⟩ := List.exists_mem_of_ne_nil _ hne
    obtain ⟨q, hq, hmove⟩ := mem_targets.mp hr
    exact ⟨(x, r), List.mem_flatMap.mpr ⟨q, hq, hmove⟩, rfl⟩
  · rintro ⟨⟨y, r⟩, hmove, rfl⟩ hnil
    obtain ⟨q, hq, hmove⟩ := List.mem_flatMap.mp hmove
    have : r ∈ a.targets members y := mem_targets.mpr ⟨q, hq, hmove⟩
    rw [hnil] at this
    exact List.not_mem_nil this

theorem lookup_subsetsFrom (a : Nfa σ τ) (members : List StateId) (x : σ) :
    (a.subsetsFrom members).lookup x =
      if a.targets members x = [] then none else some (a.closure (a.targets members x)) := by
  rw [subsetsFrom_eq]
  split
  · next h =>
      rw [List.lookup_eq_none_iff]
      rintro ⟨y, ms⟩ hp
      obtain ⟨z, hz, heq⟩ := List.mem_map.mp hp
      cases heq
      rw [bne_iff_ne]
      rintro rfl
      exact targets_ne_nil_iff.mpr hz h
  · next h => exact List.lookup_graph _ (targets_ne_nil_iff.mp h)

omit [DecidableEq σ] [Hashable σ] in
/-- There are at most `2 ^ n` ascending lists of numbers below `n`. -/
theorem length_le_of_ascending {n : Nat} {lists : List (List StateId)} (hnodup : lists.Nodup)
    (h : ∀ l ∈ lists, l.Pairwise (· < ·) ∧ ∀ q ∈ l, q < n) : lists.length ≤ Nat.pow 2 n := by
  have hinj : ∀ l ∈ lists, ∀ m ∈ lists, l.toFinset = m.toFinset → l = m := by
    intro l hl m hm heq
    refine (h l hl).1.eq_of_mem_iff (h m hm).1 fun q => ?_
    rw [← List.mem_toFinset, heq, List.mem_toFinset]
  have hmap : (lists.map List.toFinset).Nodup := hnodup.map_on hinj
  have hsub : (lists.map List.toFinset).toFinset ⊆ (Finset.range n).powerset := by
    intro s hs
    obtain ⟨l, hl, rfl⟩ := List.mem_map.mp (List.mem_toFinset.mp hs)
    refine Finset.mem_powerset.mpr fun q hq => ?_
    exact Finset.mem_range.mpr ((h l hl).2 q (List.mem_toFinset.mp hq))
  have hcard := Finset.card_le_card hsub
  rwa [List.toFinset_card_of_nodup hmap, List.length_map, Finset.card_powerset,
    Finset.card_range] at hcard

/-- The sets of states that words lead to, and the rows of the deterministic automaton. -/
def subsetListing (a : Nfa σ τ) : Listing (List StateId) σ :=
  (Listing.start (a.closure [a.start])).run a.subsetsFrom (Nat.pow 2 a.size)

theorem listing_subsets (a : Nfa σ τ) : a.subsets.listing = a.subsetListing := by
  rw [subsets, Discovery.listing_run, Discovery.listing_start, subsetListing]

theorem subsetListing_sound (a : Nfa σ τ) :
    a.subsetListing.Sound a.subsetsFrom (a.closure [a.start]) :=
  Listing.run_sound _ (Listing.start_sound _ _)

/-- The search for sets of states comes to its end. -/
theorem subsetListing_complete (a : Nfa σ τ) :
    a.subsetListing.rows.length = a.subsetListing.nodes.length := by
  have hclosure : ∀ seeds, (a.closure seeds).Pairwise (· < ·) ∧ ∀ q ∈ a.closure seeds, q < a.size :=
    fun seeds => ⟨a.ascending_closure seeds, fun q hq => (mem_closure.mp hq).1⟩
  refine Listing.run_rows_length
    (P := fun members => members.Pairwise (· < ·) ∧ ∀ q ∈ members, q < a.size)
    ?_ (hclosure _) fun bs hnodup h => length_le_of_ascending hnodup h
  intro members _ e he
  rw [subsetsFrom_eq] at he
  obtain ⟨x, _, rfl⟩ := List.mem_map.mp he
  exact hclosure _

/-- The states of the deterministic automaton. -/
theorem states_determinize (a : Nfa σ τ) (resolve : List τ → Option υ) (q : StateId) :
    (a.determinize resolve).states[q]? = (a.subsetListing.nodes[q]?).map fun members =>
      a.dfaState resolve members (Listing.row a.subsetListing.nodes (a.subsetsFrom members)) := by
  have hnodes : a.subsets.nodes[q]? = a.subsetListing.nodes[q]? := by
    rw [← listing_subsets, Discovery.listing, Array.getElem?_toList]
  have hrows : a.subsets.rows[q]? = a.subsetListing.rows[q]? := by
    rw [← listing_subsets, Discovery.listing, Array.getElem?_toList]
  simp only [determinize, Array.getElem?_zipWith, hnodes, hrows]
  cases hget : a.subsetListing.nodes[q]? with
  | none => rfl
  | some members =>
      have hlt : q < a.subsetListing.rows.length := by
        rw [subsetListing_complete]
        exact (List.getElem?_eq_some_iff.mp hget).1
      rw [a.subsetListing_sound.rows_eq q hlt members hget]
      rfl

/-- The states of the deterministic automaton, found without hashing. -/
theorem toList_states_determinize (a : Nfa σ τ) (resolve : List τ → Option υ) :
    (a.determinize resolve).states.toList =
      let found := (Listing.start (a.closure [a.start])).run
        (fun members => ((a.movesOf members).map Prod.fst).eraseDups.map fun x =>
          (x, a.closure (a.targets members x))) (Nat.pow 2 a.size)
      List.zipWith (a.dfaState resolve) found.nodes found.rows := by
  have hfrom : (fun members => ((a.movesOf members).map Prod.fst).eraseDups.map fun x =>
      (x, a.closure (a.targets members x))) = a.subsetsFrom :=
    funext fun members => (a.subsetsFrom_eq members).symm
  rw [hfrom, ← subsetListing, ← listing_subsets]
  simp [determinize, Discovery.listing]

/-- The deterministic automaton, found without hashing. -/
theorem determinize_eq (a : Nfa σ τ) (resolve : List τ → Option υ) :
    a.determinize resolve =
      let found := (Listing.start (a.closure [a.start])).run
        (fun members => ((a.movesOf members).map Prod.fst).eraseDups.map fun x =>
          (x, a.closure (a.targets members x))) (Nat.pow 2 a.size)
      ⟨(List.zipWith (a.dfaState resolve) found.nodes found.rows).toArray⟩ := by
  refine congrArg Dfa.mk (Array.toList_inj.mp ?_)
  exact toList_states_determinize a resolve

/-- Where a symbol leads in the deterministic automaton. -/
theorem next_determinize {a : Nfa σ τ} (resolve : List τ → Option υ) {q : StateId}
    {members : List StateId} (h : a.subsetListing.nodes[q]? = some members) (x : σ) :
    if a.targets members x = [] then (a.determinize resolve).next q x = none
    else ∃ r, (a.determinize resolve).next q x = some r ∧
      a.subsetListing.nodes[r]? = some (a.closure (a.targets members x)) := by
  have hnext : (a.determinize resolve).next q x =
      ((a.subsetsFrom members).lookup x).map (Listing.place a.subsetListing.nodes) := by
    simp only [Dfa.next, states_determinize, h, Option.map_some, Option.bind_some, dfaState,
      Listing.lookup_row]
  rw [lookup_subsetsFrom] at hnext
  split
  · next hnil => simpa [hnil] using hnext
  · next hne =>
      simp only [hne, if_false, Option.map_some] at hnext
      refine ⟨_, hnext, ?_⟩
      have hlt : q < a.subsetListing.rows.length := by
        rw [subsetListing_complete]
        exact (List.getElem?_eq_some_iff.mp h).1
      have hlookup : (a.subsetsFrom members).lookup x = some (a.closure (a.targets members x)) := by
        rw [lookup_subsetsFrom, if_neg hne]
      have hmem : a.closure (a.targets members x) ∈ a.subsetListing.nodes :=
        a.subsetListing_sound.targets q hlt members h (x, _)
          (Listing.mem_of_lookup hlookup)
      exact Listing.getElem?_place hmem

/-- A word leads the deterministic automaton to the set of states that it leads to in the
nondeterministic one.  If it leads nowhere, there are none. -/
theorem run_determinize (a : Nfa σ τ) (resolve : List τ → Option υ) (w : List σ) :
    match (a.determinize resolve).run 0 w with
    | some q => ∃ members, a.subsetListing.nodes[q]? = some members ∧ a.Reaches w members
    | none => ∀ r, r < a.size → ¬ a.Path a.start w r := by
  induction w using List.reverseRecOn with
  | nil => exact ⟨_, a.subsetListing_sound.head, a.reaches_nil⟩
  | append_singleton w x ih =>
      rw [Dfa.run_concat]
      cases hrun : (a.determinize resolve).run 0 w with
      | none =>
          rw [hrun] at ih
          intro r _ hpath
          obtain ⟨s, hs, hlast⟩ := hpath.split
          obtain ⟨q, t, hq, hmove, _⟩ := hlast.of_singleton
          exact ih q (lt_size_of_mem_movesFrom hmove) (by simpa using hs.trans hq)
      | some q =>
          rw [hrun] at ih
          obtain ⟨members, hq, hreaches⟩ := ih
          have hreaches' := reaches_concat hreaches x
          have hnext := next_determinize resolve hq x
          split at hnext
          · next hnil =>
              rw [Option.bind_some, hnext]
              intro r hr hpath
              have := (hreaches'.mem_iff r).mpr ⟨hr, hpath⟩
              rw [hnil, mem_closure] at this
              simp at this
          · next hne =>
              obtain ⟨r, hr, hget⟩ := hnext
              rw [Option.bind_some, hr]
              exact ⟨_, hget, hreaches'⟩

theorem exists_reaches_of_run {a : Nfa σ τ} {resolve : List τ → Option υ} {w : List σ}
    {q : StateId} (h : (a.determinize resolve).run 0 w = some q) :
    ∃ members, a.subsetListing.nodes[q]? = some members ∧ a.Reaches w members := by
  have hrun := run_determinize a resolve w
  rwa [h] at hrun

theorem exists_run_of_path {a : Nfa σ τ} (resolve : List τ → Option υ) {w : List σ} {r : StateId}
    (h : a.Path a.start w r) (hr : r < a.size) : ∃ q, (a.determinize resolve).run 0 w = some q := by
  have hrun := run_determinize a resolve w
  cases hq : (a.determinize resolve).run 0 w with
  | none =>
      rw [hq] at hrun
      exact absurd h (hrun r hr)
  | some q => exact ⟨q, rfl⟩

/-- Every state of the deterministic automaton is the one that some word leads to. -/
theorem exists_run_determinize (a : Nfa σ τ) (resolve : List τ → Option υ) :
    ∀ q < a.subsetListing.nodes.length, ∃ w, (a.determinize resolve).run 0 w = some q := by
  refine Listing.run_places a.subsetListing_complete ⟨[], rfl⟩ ?_
  rintro q members hq ⟨w, hw⟩ e he
  rw [subsetsFrom_eq] at he
  obtain ⟨x, hx, rfl⟩ := List.mem_map.mp he
  have hnext := next_determinize resolve hq x
  rw [if_neg (targets_ne_nil_iff.mpr hx)] at hnext
  obtain ⟨r, hr, hget⟩ := hnext
  refine ⟨w ++ [x], ?_⟩
  rw [Dfa.run_concat, hw, Option.bind_some, hr]
  exact congrArg some (Listing.place_of_getElem? a.subsetListing_sound.nodup hget).symm

omit [DecidableEq σ] [Hashable σ] in
theorem mem_acceptingTags {a : Nfa σ τ} {members : List StateId} {t : τ} :
    t ∈ a.acceptingTags members ↔ ∃ q ∈ members, a.isAccepting q = true ∧ a.tagOf q = some t := by
  simp only [acceptingTags, List.mem_filterMap, List.mem_filter, and_assoc]

omit [DecidableEq σ] [Hashable σ] in
/-- States without an accepting one have no marks to resolve. -/
theorem tag_dfaState {resolve : List τ → Option υ} (hnil : resolve [] = none) (a : Nfa σ τ)
    (members : List StateId) (row : List (σ × StateId)) :
    (a.dfaState resolve members row).tag = resolve (a.acceptingTags members) := by
  simp only [dfaState]
  split
  · rfl
  · next hno =>
      have hempty : members.filter a.isAccepting = [] := by
        rw [List.filter_eq_nil_iff]
        intro q hq haccepting
        exact hno (List.any_eq_true.mpr ⟨q, hq, haccepting⟩)
      rw [acceptingTags, hempty, List.filterMap_nil, hnil]

/-- A word is marked by what `resolve` makes of the marks of the accepting states that it leads
to. -/
theorem mark_determinize (resolve : List τ → Option υ) (hnil : resolve [] = none) (a : Nfa σ τ)
    (w : List σ) :
    ∃ tags, (a.determinize resolve).mark 0 w = resolve tags ∧
      ∀ t, t ∈ tags ↔ ∃ q, a.Path a.start w q ∧ a.isAccepting q = true ∧ a.tagOf q = some t := by
  have hsize : ∀ q t, a.tagOf q = some t → q < a.size := by
    intro q t ht
    by_contra hnot
    rw [tagOf, getElem?_neg a.states q hnot] at ht
    cases ht
  cases hq : (a.determinize resolve).run 0 w with
  | none =>
      refine ⟨[], by rw [Dfa.mark, hq, hnil, Option.bind_none], fun t => ?_⟩
      constructor
      · exact fun h => absurd h List.not_mem_nil
      · rintro ⟨r, hpath, _, ht⟩
        obtain ⟨q, hrun⟩ := exists_run_of_path resolve hpath (hsize r t ht)
        cases hq.symm.trans hrun
  | some q =>
      obtain ⟨members, hmembers, hreaches⟩ := exists_reaches_of_run hq
      refine ⟨a.acceptingTags members, ?_, fun t => ?_⟩
      · rw [Dfa.mark, hq, Option.bind_some, Dfa.tagOf, states_determinize, hmembers,
          Option.map_some, Option.bind_some, tag_dfaState hnil]
      · rw [mem_acceptingTags]
        constructor
        · rintro ⟨r, hr, haccepting, ht⟩
          exact ⟨r, ((hreaches.mem_iff r).mp hr).2, haccepting, ht⟩
        · rintro ⟨r, hpath, haccepting, ht⟩
          exact ⟨r, (hreaches.mem_iff r).mpr ⟨hsize r t ht, hpath⟩, haccepting, ht⟩

end Nfa

end ParserForge

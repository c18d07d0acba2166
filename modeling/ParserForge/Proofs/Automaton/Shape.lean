import Mathlib
import ParserForge.Proofs.Automaton.Language
import ParserForge.Proofs.BreadthFirst

/-!
The shape of the subset construction.  The states of the deterministic automaton stand for distinct
sets of states, each of them closed under silent edges and not empty, and they are numbered breadth
first.
-/

namespace ParserForge

namespace Discovery

variable {α ε : Type} [DecidableEq α] [Hashable α]

theorem run_of_isComplete {next : α → List (ε × α)} {d : Discovery α ε} (h : d.isComplete = true)
    (n : Nat) : d.run next n = d := by
  cases n with
  | zero => rfl
  | succ n => rw [run, if_pos h]

/-- A search that is complete after some rounds makes no use of further ones. -/
theorem run_add_of_isComplete {next : α → List (ε × α)} {n : Nat} (d : Discovery α ε)
    (h : (d.run next n).isComplete = true) (k : Nat) : d.run next (n + k) = d.run next n := by
  induction n generalizing d with
  | zero =>
      rw [Nat.zero_add]
      exact run_of_isComplete h k
  | succ n ih =>
      by_cases hd : d.isComplete = true
      · rw [run_of_isComplete hd, run_of_isComplete hd]
      · rw [Nat.add_right_comm, run, run, if_neg hd, if_neg hd]
        rw [run, if_neg hd] at h
        exact ih _ h

end Discovery

namespace Nfa

variable {σ τ υ : Type} [DecidableEq σ] [Hashable σ] {a : Nfa σ τ}

theorem isComplete_subsets (a : Nfa σ τ) : a.subsets.isComplete = true := by
  have hdone := a.subsetListing_complete
  rw [← listing_subsets] at hdone
  simp only [Discovery.listing, Array.length_toList] at hdone
  simp [Discovery.isComplete, hdone]

theorem size_determinize (a : Nfa σ τ) (resolve : List τ → Option υ) :
    (a.determinize resolve).size = a.subsetListing.nodes.length := by
  have hdone := a.subsetListing_complete
  rw [← listing_subsets] at hdone ⊢
  simp only [Discovery.listing, Array.length_toList] at hdone ⊢
  simp [Dfa.size, determinize, hdone]

theorem map_members_determinize (a : Nfa σ τ) (resolve : List τ → Option υ) :
    (a.determinize resolve).states.toList.map DfaState.members = a.subsetListing.nodes := by
  refine List.ext_getElem? fun q => ?_
  rw [List.getElem?_map, Array.getElem?_toList, states_determinize, Option.map_map]
  simp [Function.comp_def, dfaState]

theorem map_transitions_determinize (a : Nfa σ τ) (resolve : List τ → Option υ) :
    (a.determinize resolve).states.toList.map DfaState.transitions = a.subsetListing.rows := by
  refine List.ext_getElem? fun q => ?_
  rw [List.getElem?_map, Array.getElem?_toList, states_determinize, Option.map_map]
  cases hq : a.subsetListing.nodes[q]? with
  | none =>
      have hlength := a.subsetListing_complete
      rw [List.getElem?_eq_none_iff] at hq
      exact (List.getElem?_eq_none (hlength ▸ hq)).symm
  | some members =>
      have hlt := (List.getElem?_eq_some_iff.mp hq).1
      rw [a.subsetListing_sound.rows_eq q (a.subsetListing_complete ▸ hlt) members hq]
      rfl

/-- The sets of states are closures, the first one that of the start. -/
theorem exists_seeds_of_mem (ha : a.Closed) : ∀ members ∈ a.subsetListing.nodes,
    ∃ seeds, members = a.closure seeds ∧ ∃ q ∈ seeds, q < a.size := by
  refine Listing.run_nodes_of_closed (fun members _ e he => ?_) _ ?_
  · rw [subsetsFrom_eq] at he
    obtain ⟨x, hx, rfl⟩ := List.mem_map.mp he
    obtain ⟨r, hr⟩ := List.exists_mem_of_ne_nil _ (targets_ne_nil_iff.mpr hx)
    obtain ⟨q, _, hmove⟩ := mem_targets.mp hr
    exact ⟨_, rfl, r, hr, ha.lt_size_of_move hmove⟩
  · intro members hmembers
    rw [Listing.start, List.mem_singleton] at hmembers
    exact ⟨_, hmembers, a.start, List.mem_singleton_self _, ha.start⟩

/-- A set of states that silent edges do not lead out of, in ascending order. -/
structure IsSubset (a : Nfa σ τ) (members : List StateId) : Prop where
  nonempty : members ≠ []
  ascending : members.Pairwise (· < ·)
  closed : ∀ q ∈ members, ∀ r ∈ a.silentFrom q, r ∈ members

theorem isSubset_of_mem (ha : a.Closed) {members : List StateId}
    (h : members ∈ a.subsetListing.nodes) : a.IsSubset members := by
  obtain ⟨seeds, rfl, q, hq, hlt⟩ := exists_seeds_of_mem ha _ h
  refine ⟨List.ne_nil_of_mem (mem_closure.mpr ⟨hlt, q, hq, .refl q⟩), a.ascending_closure seeds,
    fun q hq r hr => ?_⟩
  obtain ⟨_, s, hs, hpath⟩ := mem_closure.mp hq
  exact mem_closure.mpr ⟨ha.silentClosed.lt_size hr, s, hs, hpath.trans (.single_silent hr)⟩

/-- The subset construction of an automaton without stray edges gives an automaton, and its search
is complete however many rounds beyond the number of subsets it is given.  The states stand for
nonempty closed sets of states, no two for the same set, and the first for the closure of the start.
Transitions lead to states, words lead to every state, and the states are numbered as a breadth-first
search comes across them when it follows the transitions of each state in order. -/
theorem determinize?_shape (ha : a.Closed) (resolve : List τ → Option υ) :
    ∃ d, a.determinize? resolve = some d ∧
      (∀ n, Nat.pow 2 a.size ≤ n → ∃ found : Discovery (List StateId) σ,
        (Discovery.start (a.closure [a.start])).run a.subsetsFrom n = found ∧
          found.isComplete = true ∧ d.states.toList.map DfaState.members = found.nodes.toList ∧
            d.states.toList.map DfaState.transitions = found.rows.toList) ∧
      (∀ s ∈ d.states, a.IsSubset s.members) ∧
      (d.states.toList.map DfaState.members).Nodup ∧
      (∃ s, d.states[0]? = some s ∧ ∀ q, q ∈ s.members ↔
        Relation.ReflTransGen (fun p r => r ∈ a.silentFrom p) a.start q) ∧
      (∀ s ∈ d.states, ∀ e ∈ s.transitions, e.2 < d.size) ∧
      (∀ q < d.size, ∃ w, d.run 0 w = some q) ∧
      BreadthFirst (d.states.toList.map fun s => s.transitions.map Prod.snd) := by
  have hsound := a.subsetListing_sound
  have hdone := a.subsetListing_complete
  have hmembers := a.map_members_determinize resolve
  have htransitions := a.map_transitions_determinize resolve
  refine ⟨_, ha.determinize?_eq resolve, fun n hn => ?_, fun s hs => ?_, ?_, ?_, fun s hs e he => ?_,
    ?_, ?_⟩
  · obtain ⟨k, rfl⟩ := Nat.exists_eq_add_of_le hn
    have hrun := Discovery.run_add_of_isComplete _ a.isComplete_subsets k
    refine ⟨_, hrun, a.isComplete_subsets, ?_, ?_⟩
    · rw [hmembers, ← listing_subsets]
      rfl
    · rw [htransitions, ← listing_subsets]
      rfl
  · refine isSubset_of_mem ha ?_
    rw [← hmembers]
    exact List.mem_map_of_mem (Array.mem_toList_iff.mpr hs)
  · rw [hmembers]
    exact hsound.nodup
  · refine ⟨_, by rw [states_determinize, hsound.head, Option.map_some], fun q => ?_⟩
    rw [← path_nil_iff]
    exact ha.mem_iff_path a.reaches_nil
  · rw [size_determinize]
    have hrow : s.transitions ∈ a.subsetListing.rows := by
      rw [← htransitions]
      exact List.mem_map_of_mem (Array.mem_toList_iff.mpr hs)
    obtain ⟨q, hq⟩ := List.getElem?_of_mem hrow
    have hlt := (List.getElem?_eq_some_iff.mp hq).1
    have hnode := List.getElem?_eq_getElem (hdone ▸ hlt : q < a.subsetListing.nodes.length)
    rw [hsound.rows_eq q hlt _ hnode] at hq
    rw [← Option.some.inj hq] at he
    obtain ⟨e', he', rfl⟩ := List.mem_map.mp he
    have htarget := Listing.getElem?_place (hsound.targets q hlt _ hnode e' he')
    exact (List.getElem?_eq_some_iff.mp htarget).1
  · rw [size_determinize]
    exact exists_run_determinize a resolve
  · have hordered : a.subsetListing.Ordered a.subsetsFrom (a.closure [a.start]) :=
      Listing.run_ordered _ (Listing.start_ordered _ _)
    have hrows := Listing.breadthFirst hsound hordered hdone
    rwa [← htransitions, List.map_map] at hrows

/-- Two ways to the last state, one of which is one move longer than the other. -/
def fork : Nfa Bool Nat :=
  ⟨#[{ moves := [(true, 1), (false, 2)] }, { moves := [(true, 3)] },
    { moves := [(true, 3), (false, 0)], silent := [3] }, { accepting := true, tag := some 7 }], 0⟩

theorem determinize?_shape_fork : fork.Closed ∧ ∃ d, fork.determinize? List.head? = some d ∧
    d.states.toList.map DfaState.members = [[0], [1], [2, 3], [3]] ∧
    (∀ s ∈ d.states, fork.IsSubset s.members) ∧ BreadthFirst [[1, 2], [3], [3, 0], []] := by
  have hfork : fork.Closed := ⟨by decide, by decide⟩
  obtain ⟨d, hd, _, hsubset, _, _, _, _, hrows⟩ := determinize?_shape hfork List.head?
  have hstates := toList_states_determinize fork List.head?
  obtain rfl := Option.some.inj (hd.symm.trans (hfork.determinize?_eq List.head?))
  refine ⟨hfork, _, hd, ?_, hsubset, ?_⟩
  · rw [hstates]
    decide +kernel
  · have hnumbers : ((fork.determinize List.head?).states.toList.map fun s =>
        s.transitions.map Prod.snd) = [[1, 2], [3], [3, 0], []] := by
      rw [hstates]
      decide +kernel
    rwa [hnumbers] at hrows

end Nfa

end ParserForge

import Mathlib
import ParserForge.Proofs.Item.Lr1

/-!
Every state of a collection is the one that some symbols lead to.  So the edges of a collection end
in states, and what holds of the states that a parse can enter holds of all states.  A state lists
each symbol once, so its transitions are exactly what looking them up finds.
-/

namespace ParserForge

namespace Collection

variable {g : Grammar} {c : Collection} {q r : StateId} {X : Symbol}

/-- Every state is the one that some symbols lead to. -/
def Connected (c : Collection) : Prop := ∀ q < c.states.length, ∃ γ, c.walk γ = some q

theorem lt_length_of_next (h : c.next q X = some r) : q < c.states.length := by
  obtain ⟨s, hs, _⟩ := Option.bind_eq_some_iff.mp h
  exact (List.getElem?_eq_some_iff.mp hs).1

theorem Canonical.lt_length_of_walk {γ : List Symbol} (hc : c.Canonical g)
    (hwalk : c.walk γ = some q) : q < c.states.length := by
  obtain ⟨s, hs⟩ := hc.state γ q hwalk
  exact (List.getElem?_eq_some_iff.mp hs).1

/-- The edges of the states end in states. -/
theorem Connected.next_lt_length (h : c.Connected) (hc : c.Canonical g)
    (hnext : c.next q X = some r) : r < c.states.length := by
  obtain ⟨γ, hwalk⟩ := h q (lt_length_of_next hnext)
  refine hc.lt_length_of_walk (γ := γ ++ [X]) ?_
  rw [walk_concat, hwalk, Option.bind_some, hnext]

/-- No state lists a symbol twice. -/
def Keyed (c : Collection) : Prop := ∀ s ∈ c.states, (s.transitions.map Prod.fst).Nodup

theorem lookup_of_mem {transitions : List (Symbol × StateId)}
    (hnodup : (transitions.map Prod.fst).Nodup) (h : (X, r) ∈ transitions) :
    transitions.lookup X = some r := by
  obtain ⟨before, after, rfl⟩ := List.append_of_mem h
  refine List.lookup_eq_some_iff.mpr ⟨before, after, rfl, fun e he => ?_⟩
  rw [List.map_append, List.map_cons, List.nodup_append] at hnodup
  rw [bne_iff_ne]
  exact (hnodup.2.2 e.1 (List.mem_map_of_mem he) X List.mem_cons_self).symm

/-- Looking a symbol up in a state finds the one transition that is listed for it. -/
theorem Keyed.mem_transitions_iff (h : c.Keyed) {s : CollectionState}
    (hs : c.states[q]? = some s) : (X, r) ∈ s.transitions ↔ c.next q X = some r := by
  rw [next, hs, Option.bind_some]
  exact ⟨lookup_of_mem (h s (List.mem_of_getElem? hs)), Listing.mem_of_lookup⟩

/-- A row has the labels of the edges. -/
theorem keys_row {α : Type} [DecidableEq α] (nodes : List α) (edges : List (Symbol × α)) :
    (Listing.row nodes edges).map Prod.fst = edges.map Prod.fst := by
  simp [Listing.row, Function.comp_def]

end Collection

namespace Lr0

theorem connected_collection (g : Grammar) : (collection g).Connected := by
  intro q hq
  have hlt : q < (itemAutomaton g).subsetListing.nodes.length := by
    by_contra hle
    have hnone := List.getElem?_eq_none (Nat.le_of_not_lt hle)
    have hstate : (collection g).states[q]? = none := by
      simp [collection, Nfa.states_determinize, hnone]
    exact Nat.not_le_of_lt hq (List.getElem?_eq_none_iff.mp hstate)
  obtain ⟨γ, hγ⟩ := (itemAutomaton g).exists_run_determinize (fun _ => some ()) q hlt
  exact ⟨γ, by rw [walk_collection, hγ]⟩

theorem keyed_collection (g : Grammar) : (collection g).Keyed := by
  intro s hs
  obtain ⟨q, hq⟩ := List.getElem?_of_mem hs
  simp only [collection, List.getElem?_map, Array.getElem?_toList, Nfa.states_determinize,
    Option.map_map, Option.map_eq_some_iff] at hq
  obtain ⟨members, _, rfl⟩ := hq
  simp only [Function.comp_apply, Nfa.dfaState, Collection.keys_row, Nfa.subsetsFrom_eq,
    List.map_map, Function.comp_def, List.map_id']
  exact nodup_eraseDups _

end Lr0

namespace Lr1

variable {g : Grammar} {c : Collection}

theorem connected_collection? (hg : g.WellFormed)
    (h : collection? g (.ofGrammar g) = some c) : c.Connected := by
  obtain ⟨sets, hnodes, hstates⟩ := states_collection? hg h
  intro q hq
  have hlt : q < (itemSetListing g (.ofGrammar g)).nodes.length := by
    rw [hnodes, List.length_map]
    by_contra hle
    have hnone := List.getElem?_eq_none (Nat.le_of_not_lt hle)
    have hstate : c.states[q]? = none := by rw [hstates, hnone, Option.map_none]
    exact Nat.not_le_of_lt hq (List.getElem?_eq_none_iff.mp hstate)
  refine Listing.run_places (P := fun q => ∃ γ, c.walk γ = some q) (itemSetListing_complete hg)
    ⟨[], rfl⟩ ?_ q hlt
  rintro q o ho ⟨γ, hwalk⟩ e he
  change (itemSetListing g (.ofGrammar g)).nodes[q]? = some o at ho
  rw [hnodes, List.getElem?_map, Option.map_eq_some_iff] at ho
  obtain ⟨s, hs, rfl⟩ := ho
  obtain ⟨X, hX, rfl⟩ := List.mem_map.mp he
  refine ⟨γ ++ [X], ?_⟩
  rw [Collection.walk_concat, hwalk, Option.bind_some, Collection.next, hstates, hs,
    Option.map_some, Option.bind_some, Listing.lookup_row, lookup_successors, if_pos hX]
  rfl

theorem keyed_collection? (hg : g.WellFormed) (h : collection? g (.ofGrammar g) = some c) :
    c.Keyed := by
  intro s hs
  obtain ⟨_, r, _, rfl⟩ := represents_of_mem_states hg h hs
  simp only [Collection.keys_row, successors, List.map_map, Function.comp_def, List.map_id']
  exact nodup_eraseDups _

end Lr1

end ParserForge

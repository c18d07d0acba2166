import Mathlib
import ParserForge.Proofs.Item.Connected
import ParserForge.Proofs.Item.Ending
import ParserForge.Proofs.Item.Filled

/-!
The LR(1) collection refines the LR(0) collection.  In both, the same symbols lead somewhere, and to
a state with the items that are possible after them.  So the states to which some symbols lead in the
two collections have the same centers, and as the LR(0) collection has no two states with the same
centers, this is a map from the states of the one to those of the other, along which transitions
correspond.
-/

namespace ParserForge

open Grammar

namespace Collection

variable {g : Grammar} {c d : Collection} {γ : List Symbol} {q r : StateId} {i : Item}

/-- The items of a state without their lookaheads. -/
def centers (c : Collection) (q : StateId) : Finset Item :=
  (c.states[q]?.elim [] fun s => s.items.map LookaheadItem.core).toFinset

/-- No two states have the same centers. -/
def Distinct (c : Collection) : Prop :=
  ∀ q < c.states.length, ∀ r < c.states.length, c.centers q = c.centers r → q = r

/-- The map takes every state of the first collection to the one state of the second that has the
same centers.  It takes the start to the start, all states are met, and transitions correspond. -/
structure Refines (c d : Collection) (f : StateId → StateId) : Prop where
  start : f 0 = 0
  lt_length : ∀ q < c.states.length, f q < d.states.length
  centers : ∀ q < c.states.length, ∀ r < d.states.length, d.centers r = c.centers q ↔ r = f q
  onto : ∀ r < d.states.length, ∃ q < c.states.length, f q = r
  next : ∀ q < c.states.length, ∀ X, d.next (f q) X = (c.next q X).map f

namespace Canonical

theorem mem_centers_iff (hc : c.Canonical g) (hwalk : c.walk γ = some q) :
    i ∈ c.centers q ↔ g.Possible γ i := by
  obtain ⟨s, hs⟩ := hc.state γ q hwalk
  rw [← hc.mem_iff γ q s hwalk hs, centers, hs]
  simp

/-- Symbols lead somewhere in both collections or in none. -/
theorem exists_walk_of_walk (hc : c.Canonical g) (hd : d.Canonical g)
    (hwalk : c.walk γ = some q) : ∃ r, d.walk γ = some r := by
  obtain ⟨p, α, β, hviable⟩ := hc.exists_viable hwalk
  exact hd.exists_walk hviable

end Canonical

/-- Some symbols lead to the first state in one collection and to the second state in the other. -/
def Beside (c d : Collection) (q r : StateId) : Prop :=
  ∃ γ, c.walk γ = some q ∧ d.walk γ = some r

namespace Beside

variable (hc : c.Canonical g) (hd : d.Canonical g)

include hc hd

theorem lt_length (h : c.Beside d q r) : q < c.states.length ∧ r < d.states.length := by
  obtain ⟨γ, hq, hr⟩ := h
  exact ⟨hc.lt_length_of_walk hq, hd.lt_length_of_walk hr⟩

theorem centers_eq (h : c.Beside d q r) : d.centers r = c.centers q := by
  obtain ⟨γ, hq, hr⟩ := h
  ext i
  rw [hc.mem_centers_iff hq, hd.mem_centers_iff hr]

theorem unique {r' : StateId} (hdistinct : d.Distinct) (h : c.Beside d q r)
    (h' : c.Beside d q r') : r = r' := by
  refine hdistinct r (h.lt_length hc hd).2 r' (h'.lt_length hc hd).2 ?_
  rw [h.centers_eq hc hd, h'.centers_eq hc hd]

/-- Where both collections go on, they go on to states that are beside each other; and where one of
them goes on, so does the other. -/
theorem next (h : c.Beside d q r) (X : Symbol) :
    (c.next q X = none ∧ d.next r X = none) ∨
      ∃ q' r', c.next q X = some q' ∧ d.next r X = some r' ∧ c.Beside d q' r' := by
  obtain ⟨γ, hq, hr⟩ := h
  have hq' : c.walk (γ ++ [X]) = c.next q X := by rw [walk_concat, hq, Option.bind_some]
  have hr' : d.walk (γ ++ [X]) = d.next r X := by rw [walk_concat, hr, Option.bind_some]
  cases hcnext : c.next q X with
  | none =>
      refine Or.inl ⟨rfl, Option.eq_none_iff_forall_ne_some.mpr fun r' hdnext => ?_⟩
      obtain ⟨q', hwalk⟩ := hd.exists_walk_of_walk hc (hr'.trans hdnext)
      rw [hq', hcnext] at hwalk
      cases hwalk
  | some q' =>
      obtain ⟨r', hwalk⟩ := hc.exists_walk_of_walk hd (hq'.trans hcnext)
      exact Or.inr ⟨q', r', rfl, hr'.symm.trans hwalk, γ ++ [X], hq'.trans hcnext, hwalk⟩

end Beside

/-- A collection refines one of the same grammar in which no two states have the same centers. -/
theorem exists_refines (hc : c.Canonical g) (hd : d.Canonical g) (hconnected : c.Connected)
    (hconnected' : d.Connected) (hdistinct : d.Distinct) : ∃ f, c.Refines d f := by
  have hbeside : ∀ q < c.states.length, ∃ r, c.Beside d q r := fun q hq => by
    obtain ⟨γ, hwalk⟩ := hconnected q hq
    obtain ⟨r, hwalk'⟩ := hc.exists_walk_of_walk hd hwalk
    exact ⟨r, γ, hwalk, hwalk'⟩
  choose! f hf using hbeside
  have hunique : ∀ q r, c.Beside d q r → r = f q := fun q r h =>
    h.unique hc hd hdistinct (hf q (h.lt_length hc hd).1)
  refine ⟨f, (hunique 0 0 ⟨[], rfl, rfl⟩).symm, fun q hq => ((hf q hq).lt_length hc hd).2,
    fun q hq r hr => ⟨fun h => ?_, ?_⟩, fun r hr => ?_, fun q hq X => ?_⟩
  · refine hdistinct r hr (f q) ((hf q hq).lt_length hc hd).2 ?_
    rw [h, (hf q hq).centers_eq hc hd]
  · rintro rfl
    exact (hf q hq).centers_eq hc hd
  · obtain ⟨γ, hwalk⟩ := hconnected' r hr
    obtain ⟨q, hwalk'⟩ := hd.exists_walk_of_walk hc hwalk
    exact ⟨q, hc.lt_length_of_walk hwalk', (hunique q r ⟨γ, hwalk', hwalk⟩).symm⟩
  · rcases (hf q hq).next hc hd X with ⟨hnone, hnone'⟩ | ⟨q', r', hnext, hnext', h⟩
    · rw [hnone, hnone', Option.map_none]
    · rw [hnext, hnext', Option.map_some, hunique q' r' h]

/-- Exact lookaheads follow the heads of their productions. -/
theorem Exact.mem_follow (hg : g.WellFormed) (hexact : c.Exact g) (hconnected : c.Connected)
    {s : CollectionState} (hs : s ∈ c.states) {e : LookaheadItem} (he : e ∈ s.items)
    {t : TerminalId} (ht : t ∈ e.lookaheads) :
    t ∈ (FollowSets.ofGrammar g (.ofGrammar g)).get (g.head e.core.production) := by
  obtain ⟨q, hq⟩ := List.getElem?_of_mem hs
  obtain ⟨γ, hwalk⟩ := hconnected q (List.getElem?_eq_some_iff.mp hq).1
  obtain ⟨α, β, hon, _⟩ := (hexact γ q s hwalk hq e he t).mp ht
  exact hon.mem_follow hg

end Collection

namespace Lr0

variable {g : Grammar}

/-- Symbols after which no less is possible lead to the same places. -/
theorem path_of_possible {γ δ : List Symbol} (hg : g.WellFormed)
    (h : ∀ i, g.Possible γ i → g.Possible δ i) {m : StateId}
    (hm : (itemAutomaton g).Path (itemAutomaton g).start γ m) :
    (itemAutomaton g).Path (itemAutomaton g).start δ m := by
  obtain ⟨p, α, β, hviable, rfl⟩ := viable_of_path hg hm
  obtain ⟨hdot, hpossible⟩ := hviable.possible hg
  obtain ⟨α', β', hviable', hdot'⟩ := h _ hpossible
  rw [← hdot, ← hdot']
  exact path_of_viable hg hviable'

/-- No two states of the LR(0) collection have the same items. -/
theorem distinct_collection (hg : g.WellFormed) : (collection g).Distinct := by
  intro q hq r hr hcenters
  have hc := canonical_collection hg
  obtain ⟨γ, hγ⟩ := connected_collection g q hq
  obtain ⟨δ, hδ⟩ := connected_collection g r hr
  have hsame : ∀ i, g.Possible γ i ↔ g.Possible δ i := fun i => by
    rw [← hc.mem_centers_iff hγ, ← hc.mem_centers_iff hδ, hcenters]
  obtain ⟨members, hmembers, hreaches⟩ := reaches_of_walk hγ
  obtain ⟨members', hmembers', hreaches'⟩ := reaches_of_walk hδ
  have heq : members = members' := hreaches.ascending.eq_of_mem_iff hreaches'.ascending fun m => by
    rw [hreaches.mem_iff, hreaches'.mem_iff]
    exact and_congr_right fun _ =>
      ⟨path_of_possible hg fun i => (hsame i).mp, path_of_possible hg fun i => (hsame i).mpr⟩
  have hnodup := (itemAutomaton g).subsetListing_sound.nodup
  refine (List.getElem?_inj (List.getElem?_eq_some_iff.mp hmembers).1 hnodup).mp ?_
  rw [hmembers, hmembers', heq]

end Lr0

namespace Lr1

variable {g : Grammar}

/-- Where the LR(1) construction comes to its end, the collection refines the LR(0) collection, and
every lookahead of an item follows the head of its production. -/
theorem collection?_refines {ds : List Declaration} (hg : Grammar.define ds = .ok g)
    (hends : Terminates g) : ∃ c, collection? g (.ofGrammar g) = some c ∧
      (∃ f, c.Refines (Lr0.collection g) f) ∧
      ∀ s ∈ c.states, ∀ e ∈ s.items, ∀ t ∈ e.lookaheads,
        t ∈ (FollowSets.ofGrammar g (.ofGrammar g)).get (g.head e.core.production) := by
  have hwf := wellFormed_of_define hg
  obtain ⟨c, hcollection⟩ := (terminates_iff hwf).mp hends
  have hconnected := connected_collection? hwf hcollection
  refine ⟨c, hcollection, ?_, fun s hs e he t ht => ?_⟩
  · exact Collection.exists_refines (canonical_collection? hwf hcollection)
      (Lr0.canonical_collection hwf) hconnected (Lr0.connected_collection g)
      (Lr0.distinct_collection hwf)
  · exact (exact_collection? hwf hcollection).mem_follow hwf hconnected hs he ht

theorem collection?_refines_nested : Grammar.define Nested.declarations = .ok Nested.grammar ∧
    Terminates Nested.grammar ∧
    ∃ c, collection? Nested.grammar (.ofGrammar Nested.grammar) = some c ∧
      (∃ f, c.Refines (Lr0.collection Nested.grammar) f) ∧
      ∀ s ∈ c.states, ∀ e ∈ s.items, ∀ t ∈ e.lookaheads,
        t ∈ (FollowSets.ofGrammar Nested.grammar (.ofGrammar Nested.grammar)).get
          (Nested.grammar.head e.core.production) :=
  ⟨Nested.define_declarations, Nested.terminates,
    collection?_refines Nested.define_declarations Nested.terminates⟩

end Lr1

end ParserForge

import Mathlib
import ParserForge.Proofs.Table.Faithful

/-!
When there is a table.  A collection has one if no state has two different things to do on one
terminal.  The LR(1) item sets ask for nothing that a faithful table does not do after the same
symbols, so they have no conflicts if the SLR(1) table exists.
-/

namespace ParserForge

namespace ParseTable

open Grammar

variable {g : Grammar} {c : Collection} {t : ParseTable} {follow : Option FollowSets}
  {s : CollectionState} {a : TerminalId} {x y : Action}

/-- No terminal has two different things to do. -/
def Consistent (entries : List (TerminalId × Action)) : Prop :=
  ∀ a x y, (a, x) ∈ entries → (a, y) ∈ entries → x = y

theorem exists_foldlM_enter (q : StateId) (entries actions : List (TerminalId × Action))
    (h : ∀ a x y, actions.lookup a = some x ∨ (a, x) ∈ entries →
      actions.lookup a = some y ∨ (a, y) ∈ entries → x = y) :
    ∃ entered, entries.foldlM (enter q) actions = .ok entered := by
  induction entries generalizing actions with
  | nil => exact ⟨actions, rfl⟩
  | cons e entries ih =>
      obtain ⟨first, hfirst⟩ : ∃ first, enter q actions e = .ok first := by
        rw [enter]
        cases hlookup : actions.lookup e.1 with
        | none => exact ⟨_, rfl⟩
        | some z =>
            have hz : z = e.2 := h e.1 z e.2 (Or.inl hlookup) (Or.inr List.mem_cons_self)
            exact ⟨actions, if_pos hz⟩
      have hmem : ∀ a x, first.lookup a = some x ∨ (a, x) ∈ entries →
          actions.lookup a = some x ∨ (a, x) ∈ e :: entries := by
        intro a x hx
        rwa [lookup_enter hfirst, or_assoc, ← List.mem_cons] at hx
      obtain ⟨entered, hentered⟩ :=
        ih first fun a x y hx hy => h a x y (hmem a x hx) (hmem a y hy)
      exact ⟨entered, by rw [List.foldlM_cons, hfirst]; exact hentered⟩

theorem exists_row (h : Consistent (candidates g follow s)) (id : StateId) :
    ∃ r, row g follow id s = .ok r := by
  obtain ⟨actions, hactions⟩ := exists_foldlM_enter id (candidates g follow s) []
    (by simpa [Consistent] using h)
  rw [row, hactions]
  exact ⟨_, rfl⟩

theorem exists_rowsFrom {states : List CollectionState}
    (h : ∀ s ∈ states, Consistent (candidates g follow s)) (id : StateId) :
    ∃ rows, rowsFrom g follow id states = .ok rows := by
  induction states generalizing id with
  | nil => exact ⟨[], rfl⟩
  | cons s states ih =>
      obtain ⟨r, hr⟩ := exists_row (h s List.mem_cons_self) id
      obtain ⟨rows, hrows⟩ := ih (fun s hs => h s (List.mem_cons_of_mem _ hs)) (id + 1)
      rw [rowsFrom, hr]
      exact ⟨r :: rows, by rw [hrows]; rfl⟩

/-- There is a table just if no state has two different things to do on one terminal. -/
theorem exists_ofCollection_iff : (∃ t, ofCollection g c follow = .ok t) ↔
    ∀ s ∈ c.states, Consistent (candidates g follow s) := by
  constructor
  · rintro ⟨t, ht⟩ s hs a x y hx hy
    obtain ⟨q, hq⟩ := List.getElem?_of_mem hs
    have hactionx := (action_eq_some_iff ht q a x).mpr ⟨s, hq, hx⟩
    have hactiony := (action_eq_some_iff ht q a y).mpr ⟨s, hq, hy⟩
    exact Option.some.inj (hactionx.symm.trans hactiony)
  · intro h
    obtain ⟨rows, hrows⟩ := exists_rowsFrom h 0
    rw [ofCollection, hrows]
    exact ⟨_, rfl⟩

/-! The conflicts of LR(1) item sets. -/

/-- The action without the state that it leads to. -/
def forget : Action → Action
  | .shift _ => .shift 0
  | x => x

theorem eq_or_shifts_of_forget (h : forget x = forget y) :
    x = y ∨ ∃ q r, x = .shift q ∧ y = .shift r := by
  cases x with
  | shift q =>
      cases y with
      | shift r => exact Or.inr ⟨q, r, rfl, rfl⟩
      | reduce p => cases h
      | accept => cases h
  | reduce p =>
      cases y with
      | reduce q => exact Or.inl h
      | shift r => cases h
      | accept => cases h
  | accept =>
      cases y with
      | accept => exact Or.inl rfl
      | shift r => cases h
      | reduce p => cases h

section Lr1

variable {r : ItemSet} {γ : List Symbol} {nodes : List (Option ItemSet)}

/-- The state that an item set stands for. -/
def stateOf (g : Grammar) (nodes : List (Option ItemSet)) (r : ItemSet) : CollectionState :=
  ⟨r.entries, Listing.row nodes (Lr1.successors g (.ofGrammar g) (some r))⟩

theorem mem_transitions_stateOf {X : Symbol} {q : StateId}
    (h : (X, q) ∈ (stateOf g nodes r).transitions) : X ∈ r.symbols g ∧
      q = Listing.place nodes (Lr1.closure? g (.ofGrammar g) (r.kernel g X)) := by
  obtain ⟨e, he, heq⟩ := List.mem_map.mp h
  obtain ⟨Y, hY, rfl⟩ := List.mem_map.mp he
  cases heq
  exact ⟨hY, rfl⟩

variable (hg : g.WellFormed) (hc : c.Canonical g) (ht : t.Faithful g c)

include hg hc ht

/-- What an item set asks for, a faithful table does after the same symbols. -/
theorem exists_action_of_candidate (hr : Lr1.Represents g γ r)
    (h : (a, x) ∈ candidates g none (stateOf g nodes r)) :
    ∃ top, c.walk γ = some top ∧ (t.action top a).map forget = some (forget x) := by
  have hviable : ∀ e ∈ r.entries, e.core.isComplete g = true →
      ∃ α, g.Viable γ e.core.production α [] ∧ α.length = e.core.dot.toNat := by
    intro e he hcomplete
    have hitem : e.core ∈ r.items := List.mem_map_of_mem he
    obtain ⟨α, β, hviable, hdot⟩ := (hr.mem_iff e.core).mp hitem
    rw [(hviable.isComplete_item hg hdot).mp hcomplete] at hviable
    exact ⟨α, hviable, hdot⟩
  cases x with
  | shift next =>
      obtain ⟨hX, _⟩ := mem_transitions_stateOf (mem_candidates_shift.mp h)
      obtain ⟨p, α, β, hexpected⟩ := hr.viable_of_mem_symbols hg hX
      obtain ⟨top, hwalk⟩ := hc.exists_walk hexpected
      obtain ⟨q, hq⟩ := hc.next γ top hwalk p α _ β hexpected
      exact ⟨top, hwalk, by rw [(ht.shift_iff top a q).mpr hq]; rfl⟩
  | reduce p =>
      obtain ⟨hp, e, he, hcomplete, rfl, ha⟩ := mem_candidates_reduce.mp h
      obtain ⟨α, hexpected, hdot⟩ := hviable e he hcomplete
      obtain ⟨top, hwalk⟩ := hc.exists_walk hexpected
      have hon : g.PossibleOn γ e.core a := by
        rw [← hr.lookaheads_iff, ItemSet.lookaheads_of_mem he]
        exact ha
      have hviableOn := hon.viableOn hg hexpected hdot
      exact ⟨top, hwalk, by rw [ht.reduce γ top hwalk _ α a hviableOn hp]; rfl⟩
  | accept =>
      obtain ⟨rfl, e, he, hcomplete, hproduction⟩ := mem_candidates_accept.mp h
      obtain ⟨α, hexpected, _⟩ := hviable e he hcomplete
      obtain ⟨top, hwalk⟩ := hc.exists_walk hexpected
      rw [hproduction] at hexpected
      have haction := (ht.accept_iff γ top hwalk .eoi).mpr ⟨rfl, α, hexpected⟩
      exact ⟨top, hwalk, by rw [haction]; rfl⟩

theorem consistent_stateOf (hr : Lr1.Represents g γ r) :
    Consistent (candidates g none (stateOf g nodes r)) := by
  intro a x y hx hy
  obtain ⟨top, hwalk, hactionx⟩ := exists_action_of_candidate hg hc ht hr hx
  obtain ⟨top', hwalk', hactiony⟩ := exists_action_of_candidate hg hc ht hr hy
  cases hwalk.symm.trans hwalk'
  have hforget : forget x = forget y := Option.some.inj (hactionx.symm.trans hactiony)
  rcases eq_or_shifts_of_forget hforget with heq | ⟨q, q', rfl, rfl⟩
  · exact heq
  · -- where a terminal leads is given by the item set
    obtain ⟨_, hq⟩ := mem_transitions_stateOf (mem_candidates_shift.mp hx)
    obtain ⟨_, hq'⟩ := mem_transitions_stateOf (mem_candidates_shift.mp hy)
    rw [hq, hq']

/-- If there is a faithful table and an LR(1) collection, there is an LR(1) table. -/
theorem exists_generate_lr1 {c' : Collection}
    (hcollection : Lr1.collection? g (.ofGrammar g) = some c') :
    ∃ t', generate g .lr1 = .ok t' := by
  have hconsistent : ∀ s ∈ c'.states, Consistent (candidates g none s) := by
    intro s hs
    obtain ⟨γ, r, hr, rfl⟩ := Lr1.represents_of_mem_states hg hcollection hs
    exact consistent_stateOf hg hc ht hr
  obtain ⟨t', ht'⟩ := exists_ofCollection_iff.mpr hconsistent
  refine ⟨t', ?_⟩
  simp only [generate, Method.collection?, hcollection, ht']
  rfl

end Lr1

end ParseTable

end ParserForge

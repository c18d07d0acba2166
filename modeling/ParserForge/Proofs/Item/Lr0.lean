import Mathlib
import ParserForge.Item.Lr0
import ParserForge.Proofs.Automaton.Subsets
import ParserForge.Proofs.Item.Canonical

/-!
The LR(0) collection is canonical.  The paths through the automaton of places are the viable items,
and the subset construction follows the paths.
-/

namespace ParserForge

namespace Item

theorem count_append (ps qs : List Production) : count (ps ++ qs) = count ps + count qs := by
  induction ps with
  | nil => simp [count]
  | cons p ps ih =>
      simp only [List.cons_append, count, ih]
      omega

end Item

namespace Lr0

open Grammar

variable {g : Grammar} {α β γ : List Symbol} {p : ProductionId} {r : Production}

theorem length_chain (g : Grammar) (base : Nat) (body : List Symbol) :
    (chain g base body).length = body.length + 1 := by
  induction body generalizing base with
  | nil => rfl
  | cons X body ih => simp [chain, ih]

theorem chain_getElem? (g : Grammar) (base : Nat) (α : List Symbol) (X : Symbol)
    (β : List Symbol) : (chain g base (α ++ X :: β))[α.length]? =
      some { moves := [(X, base + α.length + 1)], silent := predicted g X } := by
  induction α generalizing base with
  | nil => rfl
  | cons Y α ih =>
      simp only [List.cons_append, chain, List.length_cons, List.getElem?_cons_succ, ih]
      rw [Nat.add_right_comm base 1, Nat.add_assoc base]

theorem chain_getElem?_length (g : Grammar) (base : Nat) (α : List Symbol) :
    (chain g base α)[α.length]? = some { accepting := true } := by
  induction α generalizing base with
  | nil => rfl
  | cons Y α ih => simpa [chain] using ih (base + 1)

theorem chains_getElem? (g : Grammar) (base : Nat) (before : List Production)
    (r : Production) (after : List Production) {k : Nat} (hk : k ≤ r.body.length) :
    (chains g base (before ++ r :: after))[Item.count before + k]? =
      (chain g (base + Item.count before) r.body)[k]? := by
  induction before generalizing base with
  | nil =>
      have hlt : k < (chain g base r.body).length := by
        rw [length_chain]
        omega
      simp only [List.nil_append, chains, Item.count, Nat.zero_add, Nat.add_zero]
      exact List.getElem?_append_left hlt
  | cons b before ih =>
      have hskip : Item.count (b :: before) + k =
          (chain g base b.body).length + (Item.count before + k) := by
        rw [length_chain, Item.count]
        omega
      rw [List.cons_append, chains, hskip, List.getElem?_append_right (Nat.le_add_right _ _),
        Nat.add_sub_cancel_left, ih]
      rw [Nat.add_assoc base, Nat.add_assoc base]
      rfl

/-- The state that stands for a place in the body of a production. -/
theorem itemAutomaton_getElem? (hr : g.productions[p]? = some r) {k : Nat}
    (hk : k ≤ r.body.length) : (itemAutomaton g).states[placesBefore g p + k]? =
      (chain g (placesBefore g p) r.body)[k]? := by
  obtain ⟨hp, hget⟩ := List.getElem?_eq_some_iff.mp hr
  have hsplit : g.productions = g.productions.take p ++ r :: g.productions.drop (p + 1) := by
    rw [← hget, List.getElem_cons_drop, List.take_append_drop]
  have h := chains_getElem? g 0 (g.productions.take p) r (g.productions.drop (p + 1)) hk
  rw [← hsplit, Nat.zero_add] at h
  simpa [itemAutomaton, placesBefore] using h

theorem edges_of_next (hr : g.productions[p]? = some r) {X : Symbol}
    (hbody : r.body = α ++ X :: β) :
    (itemAutomaton g).movesFrom (placesBefore g p + α.length) =
        [(X, placesBefore g p + (α ++ [X]).length)] ∧
      (itemAutomaton g).silentFrom (placesBefore g p + α.length) = predicted g X := by
  have hk : α.length ≤ r.body.length := by
    rw [hbody, List.length_append]
    omega
  have hstate := itemAutomaton_getElem? hr hk
  rw [hbody, chain_getElem?] at hstate
  simp only [Nfa.movesFrom, Nfa.silentFrom, hstate, List.length_append, List.length_singleton]
  exact ⟨rfl, rfl⟩

theorem edges_of_complete (hr : g.productions[p]? = some r) (hbody : r.body = α) :
    (itemAutomaton g).movesFrom (placesBefore g p + α.length) = [] ∧
      (itemAutomaton g).silentFrom (placesBefore g p + α.length) = [] := by
  have hstate := itemAutomaton_getElem? hr (Nat.le_refl r.body.length)
  rw [hbody, chain_getElem?_length] at hstate
  simp only [Nfa.movesFrom, Nfa.silentFrom, hstate]
  exact ⟨rfl, rfl⟩

theorem mem_predicted {X : Symbol} {q : StateId} : q ∈ predicted g X ↔
    ∃ p r, X = .nonterminal r.head ∧ g.productions[p]? = some r ∧ q = placesBefore g p := by
  cases X with
  | terminal t => simp [predicted]
  | nonterminal n =>
      simp only [predicted, List.mem_map, mem_productionsOf]
      constructor
      · rintro ⟨p, ⟨r, hr, rfl⟩, rfl⟩
        exact ⟨p, r, rfl, hr, rfl⟩
      · rintro ⟨p, r, hn, hr, rfl⟩
        cases hn
        exact ⟨p, ⟨r, hr, rfl⟩, rfl⟩

/-- A viable item is the end of a path of its symbols. -/
theorem path_of_viable (hg : g.WellFormed) (h : g.Viable γ p α β) :
    (itemAutomaton g).Path (itemAutomaton g).start γ (placesBefore g p + α.length) := by
  induction h with
  | start => exact .refl _
  | advance h ih =>
      obtain ⟨r, hr, hbody⟩ := h.production hg
      refine ih.trans (.single_move ?_)
      rw [(edges_of_next hr hbody).1]
      exact List.mem_singleton.mpr rfl
  | predict h hr ih =>
      obtain ⟨s, hs, hbody⟩ := h.production hg
      have hedge := (edges_of_next hs hbody).2
      have := ih.trans (.single_silent (hedge ▸ mem_predicted.mpr ⟨_, _, rfl, hr, rfl⟩))
      simpa using this

/-- A path of symbols ends in a viable item. -/
theorem viable_of_path (hg : g.WellFormed) {q : StateId}
    (h : (itemAutomaton g).Path (itemAutomaton g).start γ q) :
    ∃ p α β, g.Viable γ p α β ∧ q = placesBefore g p + α.length := by
  have hstart : ∃ p α β, g.Viable [] p α β ∧
      (itemAutomaton g).start = placesBefore g p + α.length := ⟨_, _, _, .start, rfl⟩
  refine Nfa.Path.invariant (P := fun γ q => ∃ p α β, g.Viable γ p α β ∧
    q = placesBefore g p + α.length) ?_ ?_ h hstart
  · rintro γ _ s ⟨p, α, β, hviable, rfl⟩ hedge
    obtain ⟨r, hr, hbody⟩ := hviable.production hg
    cases β with
    | nil =>
        rw [(edges_of_complete hr (by simpa using hbody)).2] at hedge
        exact absurd hedge List.not_mem_nil
    | cons X β =>
        rw [(edges_of_next hr hbody).2] at hedge
        obtain ⟨q, r', rfl, hr', rfl⟩ := mem_predicted.mp hedge
        exact ⟨q, [], _, .predict hviable hr', rfl⟩
  · rintro γ _ X s ⟨p, α, β, hviable, rfl⟩ hedge
    obtain ⟨r, hr, hbody⟩ := hviable.production hg
    cases β with
    | nil =>
        rw [(edges_of_complete hr (by simpa using hbody)).1] at hedge
        exact absurd hedge List.not_mem_nil
    | cons Y β =>
        rw [(edges_of_next hr hbody).1] at hedge
        cases List.mem_singleton.mp hedge
        exact ⟨p, _, _, hviable.advance, rfl⟩

/-- The items of the first productions stand for their places. -/
theorem length_flatMap_places (g : Grammar) {m : Nat} (hm : m ≤ g.productions.length) :
    ((List.range m).flatMap fun p =>
      (List.range ((g.body p).length + 1)).map fun dot => (⟨p, UInt16.ofNat dot⟩ : Item)).length =
        placesBefore g m := by
  induction m with
  | zero => rfl
  | succ m ih =>
      have hbody : g.body m = g.productions[m].body := body_eq (List.getElem?_eq_getElem hm)
      rw [List.range_succ, List.flatMap_append, List.length_append, ih (Nat.le_of_succ_le hm),
        placesBefore, placesBefore, List.take_succ_eq_append_getElem hm, Item.count_append]
      simp [Item.count, hbody]

theorem length_items (g : Grammar) : (items g).length = Item.count g.productions := by
  have := length_flatMap_places g (Nat.le_refl _)
  rwa [placesBefore, List.take_length] at this

/-- The item of a place. -/
theorem items_getElem? (hr : g.productions[p]? = some r) {k : Nat} (hk : k ≤ r.body.length) :
    (items g)[placesBefore g p + k]? = some ⟨p, UInt16.ofNat k⟩ := by
  obtain ⟨hp, _⟩ := List.getElem?_eq_some_iff.mp hr
  have hrange : List.range g.productions.length =
      List.range p ++ p :: (List.range (g.productions.length - p - 1)).map (p + ·.succ) := by
    have hn : g.productions.length = p + (g.productions.length - p - 1 + 1) := by omega
    conv => lhs; rw [hn, List.range_add, List.range_succ_eq_map]
    simp [Function.comp_def]
  have hlength := length_flatMap_places g hp.le
  rw [items, hrange, List.flatMap_append, List.flatMap_cons,
    List.getElem?_append_right (by rw [hlength]; exact Nat.le_add_right _ _), hlength,
    Nat.add_sub_cancel_left, List.getElem?_append_left (by simp [body_eq hr]; omega), body_eq hr,
    List.getElem?_map, List.getElem?_range (by omega)]
  rfl

/-- The states of the collection are the sets of places, by their items. -/
theorem states_collection {q : StateId} {members : List StateId}
    (h : (itemAutomaton g).subsetListing.nodes[q]? = some members) :
    ∃ s, (collection g).states[q]? = some s ∧
      s.items = members.filterMap fun m => (items g)[m]?.map fun i => ⟨i, ∅⟩ := by
  simp [collection, Nfa.states_determinize, h, Nfa.dfaState]

theorem next_collection (g : Grammar) (q : StateId) (X : Symbol) :
    (collection g).next q X = ((itemAutomaton g).determinize fun _ => some ()).next q X := by
  simp only [Collection.next, collection, List.getElem?_map, Array.getElem?_toList, Dfa.next]
  cases ((itemAutomaton g).determinize fun _ => some ()).states[q]? <;> rfl

theorem walk_collection (g : Grammar) (γ : List Symbol) :
    (collection g).walk γ = ((itemAutomaton g).determinize fun _ => some ()).run 0 γ := by
  induction γ using List.reverseRecOn with
  | nil => rfl
  | append_singleton γ X ih =>
      rw [Collection.walk_concat, Dfa.run_concat, ih]
      simp only [next_collection]

/-- The members of the state that symbols lead to are the places that they lead to. -/
theorem reaches_of_walk {q : StateId} (h : (collection g).walk γ = some q) :
    ∃ members, (itemAutomaton g).subsetListing.nodes[q]? = some members ∧
      (itemAutomaton g).Reaches γ members := by
  rw [walk_collection] at h
  exact Nfa.exists_reaches_of_run h

theorem place_lt_size (hr : g.productions[p]? = some r) {k : Nat} (hk : k ≤ r.body.length) :
    placesBefore g p + k < (itemAutomaton g).size := by
  have hlt : k < (chain g (placesBefore g p) r.body).length := by
    rw [length_chain]
    omega
  have hstate := itemAutomaton_getElem? hr hk
  rw [List.getElem?_eq_getElem hlt] at hstate
  exact (Array.getElem?_eq_some_iff.mp hstate).1

/-- A symbol leads on from a state only if an item of the state expects it. -/
theorem viable_of_next (hg : g.WellFormed) {q s : StateId} {X : Symbol}
    (h : (collection g).walk γ = some q) (hnext : (collection g).next q X = some s) :
    ∃ p α β, g.Viable γ p α (X :: β) := by
  obtain ⟨members, hq, hreaches⟩ := reaches_of_walk h
  have hdfa := Nfa.next_determinize (fun _ => some ()) hq X
  rw [← next_collection, hnext] at hdfa
  split at hdfa
  · cases hdfa
  · next hne =>
      obtain ⟨place, hplace⟩ := List.exists_mem_of_ne_nil _ hne
      obtain ⟨m, hm, hmove⟩ := Nfa.mem_targets.mp hplace
      obtain ⟨p, α, β, hviable, rfl⟩ := viable_of_path hg ((hreaches.mem_iff m).mp hm).2
      obtain ⟨r, hr, hbody⟩ := hviable.production hg
      cases β with
      | nil =>
          rw [(edges_of_complete hr (by simpa using hbody)).1] at hmove
          exact absurd hmove List.not_mem_nil
      | cons Y β =>
          rw [(edges_of_next hr hbody).1] at hmove
          cases List.mem_singleton.mp hmove
          exact ⟨p, α, β, hviable⟩

/-- The LR(0) collection is canonical. -/
theorem canonical_collection (hg : g.WellFormed) : (collection g).Canonical g where
  state := by
    intro γ q h
    obtain ⟨members, hq, _⟩ := reaches_of_walk h
    obtain ⟨s, hs, _⟩ := states_collection hq
    exact ⟨s, hs⟩
  mem_iff := by
    intro γ q s h hs i
    obtain ⟨members, hq, hreaches⟩ := reaches_of_walk h
    obtain ⟨s', hs', hitems⟩ := states_collection hq
    cases hs.symm.trans hs'
    rw [hitems]
    constructor
    · rintro ⟨e, he, rfl⟩
      obtain ⟨m, hm, hname⟩ := List.mem_filterMap.mp he
      obtain ⟨p, α, β, hviable, rfl⟩ := viable_of_path hg ((hreaches.mem_iff m).mp hm).2
      obtain ⟨r, hr, hbody⟩ := hviable.production hg
      rw [items_getElem? hr (by simp [hbody])] at hname
      cases hname
      exact (hviable.possible hg).2
    · rintro ⟨α, β, hviable, hdot⟩
      obtain ⟨r, hr, hbody⟩ := hviable.production hg
      have hlength : α.length ≤ r.body.length := by simp [hbody]
      refine ⟨⟨i, ∅⟩, List.mem_filterMap.mpr ⟨placesBefore g i.production + α.length, ?_, ?_⟩, rfl⟩
      · exact (hreaches.mem_iff _).mpr ⟨place_lt_size hr hlength, path_of_viable hg hviable⟩
      · rw [items_getElem? hr hlength, hdot, UInt16.ofNat_toNat]
        rfl
  next := by
    intro γ q h p α X β hviable
    have hadvance := hviable.advance
    obtain ⟨r, hr, hbody⟩ := hadvance.production hg
    have hlength : (α ++ [X]).length ≤ r.body.length := by
      simp [hbody]
    obtain ⟨s, hs⟩ := Nfa.exists_run_of_path (fun _ => some ()) (path_of_viable hg hadvance)
      (place_lt_size hr hlength)
    rw [← walk_collection, Collection.walk_concat, h, Option.bind_some] at hs
    exact ⟨s, hs⟩
  expected := fun _ _ h X _ hnext => viable_of_next hg h hnext

end Lr0

end ParserForge

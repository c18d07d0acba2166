import Mathlib
import ParserForge.Proofs.Grammar.Productive
import ParserForge.Proofs.Item.Lr1
import ParserForge.Table.Generate

/-!
Tables do what the items ask for.  A row has no conflicts, so it holds exactly what there is to do
in its state; in the state that symbols lead to, this is given by the items possible after them.
-/

namespace ParserForge

namespace ParseTable

open Grammar

/-- What a table does in the states of a collection. -/
structure Faithful (g : Grammar) (c : Collection) (t : ParseTable) : Prop where
  length : t.rows.length = c.states.length
  shapes : ∀ p : ProductionId, t.shapes[p]? =
    (g.productions[p]?).map fun r => (r.head, r.body.length)
  goto : ∀ q n, t.goto q n = c.next q (.nonterminal n)
  shift_iff : ∀ q a r, t.action q a = some (.shift r) ↔ c.next q (.terminal a) = some r
  reduce : ∀ γ q, c.walk γ = some q → ∀ p α a, g.ViableOn γ p α [] a → p ≠ .accept →
    t.action q a = some (.reduce p)
  viable : ∀ γ q, c.walk γ = some q → ∀ p a, t.action q a = some (.reduce p) →
    p ≠ .accept ∧ ∃ α, g.Viable γ p α []
  accept_iff : ∀ γ q, c.walk γ = some q → ∀ a, t.action q a = some .accept ↔
    a = .eoi ∧ ∃ α, g.Viable γ .accept α []

/-- The table reduces only by what can stand before the terminal. -/
def Precise (g : Grammar) (c : Collection) (t : ParseTable) : Prop :=
  ∀ γ q, c.walk γ = some q → ∀ p a, t.action q a = some (.reduce p) → ∃ α, g.ViableOn γ p α [] a

variable {g : Grammar} {c : Collection} {t : ParseTable} {follow : Option FollowSets}

theorem lookup_enter {q : StateId} {actions entered : List (TerminalId × Action)}
    {e : TerminalId × Action} (h : enter q actions e = .ok entered) (a : TerminalId) (x : Action) :
    entered.lookup a = some x ↔ actions.lookup a = some x ∨ (a, x) = e := by
  obtain ⟨b, y⟩ := e
  simp only [enter] at h
  split at h
  · next hnone =>
      cases h
      rw [List.lookup_append]
      by_cases hab : a = b
      · subst hab
        simp [hnone, eq_comm]
      · simp [List.lookup_cons, beq_false_of_ne hab, hab]
  · next z hz =>
      split at h
      · next heq =>
          cases h
          constructor
          · exact Or.inl
          · rintro (hx | hx)
            · exact hx
            · cases hx
              rw [hz, heq]
      · cases h

/-- A row without conflicts finds exactly what was entered. -/
theorem lookup_foldlM_enter {q : StateId} {entries actions entered : List (TerminalId × Action)}
    (h : entries.foldlM (enter q) actions = .ok entered) (a : TerminalId) (x : Action) :
    entered.lookup a = some x ↔ actions.lookup a = some x ∨ (a, x) ∈ entries := by
  induction entries generalizing actions with
  | nil =>
      cases h
      simp
  | cons e entries ih =>
      rw [List.foldlM_cons] at h
      cases hfirst : enter q actions e with
      | error conflict =>
          rw [hfirst] at h
          cases h
      | ok first =>
          rw [hfirst] at h
          rw [ih h, lookup_enter hfirst, List.mem_cons, or_assoc]

theorem rowsFrom_eq_ok {id : StateId} {states : List CollectionState} {rows : List TableRow}
    (h : rowsFrom g follow id states = .ok rows) : rows.length = states.length ∧
      ∀ (q : StateId) (s : CollectionState), states[q]? = some s →
        ∃ r, rows[q]? = some r ∧ row g follow (id + q) s = .ok r := by
  induction states generalizing id rows with
  | nil =>
      cases h
      exact ⟨rfl, fun q s hs => by simp at hs⟩
  | cons s states ih =>
      rw [rowsFrom] at h
      split at h
      · cases h
      · next r hr =>
          cases hrest : rowsFrom g follow (id + 1) states with
          | error conflict =>
              rw [hrest] at h
              cases h
          | ok rest =>
              rw [hrest] at h
              cases h
              obtain ⟨hlength, hrows⟩ := ih hrest
              refine ⟨congrArg (· + 1) hlength, fun q s' hs' => ?_⟩
              cases q with
              | zero =>
                  cases hs'
                  exact ⟨r, rfl, hr⟩
              | succ q =>
                  obtain ⟨r', hr', hrow⟩ := hrows q s' hs'
                  refine ⟨r', hr', ?_⟩
                  rwa [Nat.add_assoc, Nat.add_comm 1 q] at hrow

theorem lookup_gotos (transitions : List (Symbol × StateId)) (n : NonterminalId) :
    (transitions.filterMap fun (symbol, next) =>
      match symbol with
      | .terminal _ => none
      | .nonterminal n => some (n, next)).lookup n = transitions.lookup (.nonterminal n) := by
  induction transitions with
  | nil => rfl
  | cons e transitions ih =>
      obtain ⟨X, q⟩ := e
      cases X with
      | terminal a =>
          have hne : (Symbol.nonterminal n == Symbol.terminal a) = false :=
            beq_false_of_ne Symbol.noConfusion
          rw [List.lookup_cons, hne]
          exact ih
      | nonterminal m =>
          by_cases hnm : n = m
          · simp [hnm]
          · have hne : (Symbol.nonterminal n == Symbol.nonterminal m) = false :=
              beq_false_of_ne fun h => hnm (Symbol.nonterminal.inj h)
            simp only [List.filterMap_cons, List.lookup_cons, hne, beq_false_of_ne hnm]
            exact ih

/-- The row of a state holds what there is to do in it. -/
theorem lookup_row {id : StateId} {s : CollectionState} {r : TableRow}
    (h : row g follow id s = .ok r) :
    (∀ a x, r.actions.lookup a = some x ↔ (a, x) ∈ candidates g follow s) ∧
      ∀ n, r.gotos.lookup n = s.transitions.lookup (.nonterminal n) := by
  simp only [row] at h
  cases hfold : (candidates g follow s).foldlM (enter id) [] with
  | error conflict =>
      rw [hfold] at h
      cases h
  | ok actions =>
      rw [hfold] at h
      cases h
      refine ⟨fun a x => ?_, lookup_gotos s.transitions⟩
      rw [lookup_foldlM_enter hfold]
      simp

theorem mem_candidates_shift {s : CollectionState} {a : TerminalId} {q : StateId} :
    (a, Action.shift q) ∈ candidates g follow s ↔ (Symbol.terminal a, q) ∈ s.transitions := by
  simp only [candidates, List.mem_append, List.mem_filterMap, List.mem_flatMap]
  constructor
  · rintro (⟨⟨X, r⟩, hmem, heq⟩ | ⟨e, _, hmem⟩)
    · cases X with
      | terminal b =>
          cases heq
          exact hmem
      | nonterminal n => cases heq
    · split at hmem
      · simp at hmem
      · simp at hmem
  · exact fun hmem => Or.inl ⟨_, hmem, rfl⟩

theorem mem_candidates_reduce {s : CollectionState} {a : TerminalId} {p : ProductionId} :
    (a, Action.reduce p) ∈ candidates g follow s ↔ p ≠ .accept ∧
      ∃ e ∈ s.items, e.core.isComplete g = true ∧ e.core.production = p ∧
        a ∈ reduceOn g follow e := by
  simp only [candidates, List.mem_append, List.mem_filterMap, List.mem_flatMap,
    CollectionState.completed, List.mem_filter]
  constructor
  · rintro (⟨⟨X, r⟩, _, heq⟩ | ⟨e, ⟨he, hcomplete⟩, hmem⟩)
    · cases X <;> cases heq
    · split at hmem
      · simp at hmem
      · next hne =>
          obtain ⟨b, hb, heq⟩ := List.mem_map.mp hmem
          cases heq
          exact ⟨hne, e, he, hcomplete, rfl, hb⟩
  · rintro ⟨hne, e, he, hcomplete, rfl, ha⟩
    refine Or.inr ⟨e, ⟨he, hcomplete⟩, ?_⟩
    rw [if_neg hne]
    exact List.mem_map.mpr ⟨a, ha, rfl⟩

theorem mem_candidates_accept {s : CollectionState} {a : TerminalId} :
    (a, Action.accept) ∈ candidates g follow s ↔ a = .eoi ∧
      ∃ e ∈ s.items, e.core.isComplete g = true ∧ e.core.production = .accept := by
  simp only [candidates, List.mem_append, List.mem_filterMap, List.mem_flatMap,
    CollectionState.completed, List.mem_filter]
  constructor
  · rintro (⟨⟨X, r⟩, _, heq⟩ | ⟨e, ⟨he, hcomplete⟩, hmem⟩)
    · cases X <;> cases heq
    · split at hmem
      · next heq =>
          cases List.mem_singleton.mp hmem
          exact ⟨rfl, e, he, hcomplete, heq⟩
      · simp at hmem
  · rintro ⟨rfl, e, he, hcomplete, heq⟩
    refine Or.inr ⟨e, ⟨he, hcomplete⟩, ?_⟩
    rw [if_pos heq]
    exact List.mem_singleton_self _

/-- The rows of a table are those of the states. -/
theorem rows_ofCollection (h : ofCollection g c follow = .ok t) :
    t.rows.length = c.states.length ∧
    (t.shapes = g.productions.map fun r => (r.head, r.body.length)) ∧
    ∀ (q : StateId) (s : CollectionState), c.states[q]? = some s →
      ∃ r, t.rows[q]? = some r ∧ row g follow q s = .ok r := by
  simp only [ofCollection] at h
  cases hrows : rowsFrom g follow 0 c.states with
  | error conflict =>
      rw [hrows] at h
      cases h
  | ok rows =>
      rw [hrows] at h
      cases h
      obtain ⟨hlength, hrow⟩ := rowsFrom_eq_ok hrows
      refine ⟨hlength, rfl, fun q s hs => ?_⟩
      obtain ⟨r, hr, hr'⟩ := hrow q s hs
      rw [Nat.zero_add] at hr'
      exact ⟨r, hr, hr'⟩

/-- What a table does in a state is what there is to do in it. -/
theorem action_eq_some_iff (h : ofCollection g c follow = .ok t) (q : StateId) (a : TerminalId)
    (x : Action) : t.action q a = some x ↔
      ∃ s, c.states[q]? = some s ∧ (a, x) ∈ candidates g follow s := by
  obtain ⟨hlength, _, hrows⟩ := rows_ofCollection h
  cases hs : c.states[q]? with
  | none =>
      have hrow : t.rows[q]? = none := by
        rw [List.getElem?_eq_none_iff, hlength]
        exact List.getElem?_eq_none_iff.mp hs
      simp [action, hrow]
  | some s =>
      obtain ⟨r, hr, hrow⟩ := hrows q s hs
      simp [action, hr, (lookup_row hrow).1]

theorem goto_eq (h : ofCollection g c follow = .ok t) (q : StateId) (n : NonterminalId) :
    t.goto q n = c.next q (.nonterminal n) := by
  obtain ⟨hlength, _, hrows⟩ := rows_ofCollection h
  rw [goto, Collection.next]
  cases hs : c.states[q]? with
  | none =>
      have hrow : t.rows[q]? = none := by
        rw [List.getElem?_eq_none_iff, hlength]
        exact List.getElem?_eq_none_iff.mp hs
      rw [hrow]
      rfl
  | some s =>
      obtain ⟨r, hr, hrow⟩ := hrows q s hs
      rw [hr, Option.bind_some, Option.bind_some, (lookup_row hrow).2]

/-- As no state has two things to do on a terminal, it shifts to where the terminal leads. -/
theorem shift_iff (h : ofCollection g c follow = .ok t) (q : StateId) (a : TerminalId)
    (r : StateId) : t.action q a = some (.shift r) ↔ c.next q (.terminal a) = some r := by
  have hshift : ∀ r, t.action q a = some (.shift r) ↔
      ∃ s, c.states[q]? = some s ∧ (Symbol.terminal a, r) ∈ s.transitions := by
    intro r
    rw [action_eq_some_iff h]
    simp only [mem_candidates_shift]
  have hnext : ∀ r, c.next q (.terminal a) = some r → t.action q a = some (.shift r) := by
    intro r hr
    rw [Collection.next, Option.bind_eq_some_iff] at hr
    obtain ⟨s, hs, hlookup⟩ := hr
    exact (hshift r).mpr ⟨s, hs, Listing.mem_of_lookup hlookup⟩
  refine ⟨fun hr => ?_, hnext r⟩
  obtain ⟨s, hs, hmem⟩ := (hshift r).mp hr
  have hnext' : c.next q (.terminal a) = s.transitions.lookup (.terminal a) := by
    rw [Collection.next, hs, Option.bind_some]
  cases hlookup : s.transitions.lookup (.terminal a) with
  | none =>
      have := List.lookup_eq_none_iff.mp hlookup _ hmem
      simp at this
  | some r' =>
      rw [hlookup] at hnext'
      have heq := (hnext r' hnext').symm.trans hr
      cases heq
      exact hnext'

section Canonical

variable (hg : g.WellFormed) (hc : c.Canonical g) (h : ofCollection g c follow = .ok t)

include hg hc

/-- A listed item that is complete is an item without symbols behind its dot. -/
theorem viable_of_complete {γ : List Symbol} {q : StateId} {s : CollectionState}
    {e : LookaheadItem} (hwalk : c.walk γ = some q) (hs : c.states[q]? = some s)
    (he : e ∈ s.items) (hcomplete : e.core.isComplete g = true) :
    ∃ α, g.Viable γ e.core.production α [] ∧ α.length = e.core.dot.toNat := by
  obtain ⟨α, β, hviable, hdot⟩ := (hc.mem_iff γ q s hwalk hs e.core).mp ⟨e, he, rfl⟩
  rw [(hviable.isComplete_item hg hdot).mp hcomplete] at hviable
  exact ⟨α, hviable, hdot⟩

/-- An item without symbols behind its dot is listed. -/
theorem exists_complete {γ α : List Symbol} {q : StateId} {p : ProductionId}
    (hwalk : c.walk γ = some q) (hviable : g.Viable γ p α []) :
    ∃ s e, c.states[q]? = some s ∧ e ∈ s.items ∧ e.core.isComplete g = true ∧
      e.core.production = p ∧ α.length = e.core.dot.toNat := by
  obtain ⟨s, hs⟩ := hc.state γ q hwalk
  obtain ⟨hdot, hpossible⟩ := hviable.possible hg
  obtain ⟨e, he, hcore⟩ := (hc.mem_iff γ q s hwalk hs _).mpr hpossible
  have hproduction : e.core.production = p := congrArg Item.production hcore
  have hlength : α.length = e.core.dot.toNat := by rw [hcore, hdot]
  refine ⟨s, e, hs, he, ?_, hproduction, hlength⟩
  exact (Viable.isComplete_item hg (hproduction ▸ hviable) hlength).mpr rfl

include h

/-- A table that reduces at least where a production can stand before the terminal is faithful. -/
theorem faithful_ofCollection (hon : ∀ γ q s, c.walk γ = some q → c.states[q]? = some s →
    ∀ e ∈ s.items, ∀ a, g.PossibleOn γ e.core a → a ∈ reduceOn g follow e) :
    t.Faithful g c where
  length := (rows_ofCollection h).1
  shapes := by
    intro p
    rw [(rows_ofCollection h).2.1, List.getElem?_map]
  goto := goto_eq h
  shift_iff := shift_iff h
  reduce := by
    intro γ q hwalk p α a hviable hp
    obtain ⟨s, e, hs, he, hcomplete, rfl, hdot⟩ := exists_complete hg hc hwalk hviable.viable
    refine (action_eq_some_iff h q a _).mpr ⟨s, hs, ?_⟩
    exact mem_candidates_reduce.mpr
      ⟨hp, e, he, hcomplete, rfl, hon γ q s hwalk hs e he a ⟨α, [], hviable, hdot⟩⟩
  viable := by
    intro γ q hwalk p a haction
    obtain ⟨s, hs, hmem⟩ := (action_eq_some_iff h q a _).mp haction
    obtain ⟨hp, e, he, hcomplete, rfl, _⟩ := mem_candidates_reduce.mp hmem
    obtain ⟨α, hviable, _⟩ := viable_of_complete hg hc hwalk hs he hcomplete
    exact ⟨hp, α, hviable⟩
  accept_iff := by
    intro γ q hwalk a
    rw [action_eq_some_iff h]
    simp only [mem_candidates_accept]
    constructor
    · rintro ⟨s, hs, rfl, e, he, hcomplete, hproduction⟩
      obtain ⟨α, hviable, _⟩ := viable_of_complete hg hc hwalk hs he hcomplete
      exact ⟨rfl, α, hproduction ▸ hviable⟩
    · rintro ⟨rfl, α, hviable⟩
      obtain ⟨s, e, hs, he, hcomplete, hproduction, _⟩ := exists_complete hg hc hwalk hviable
      exact ⟨s, hs, rfl, e, he, hcomplete, hproduction⟩

end Canonical

/-- A table without FOLLOW sets reduces on the lookaheads alone. -/
theorem precise_ofCollection (hg : g.WellFormed) (hc : c.Canonical g) (hexact : c.Exact g)
    (h : ofCollection g c none = .ok t) : t.Precise g c := by
  intro γ q hwalk p a haction
  obtain ⟨s, hs, hmem⟩ := (action_eq_some_iff h q a _).mp haction
  obtain ⟨_, e, he, hcomplete, rfl, ha⟩ := mem_candidates_reduce.mp hmem
  obtain ⟨α, hviable, hdot⟩ := viable_of_complete hg hc hwalk hs he hcomplete
  have hon := (hexact γ q s hwalk hs e he a).mp ha
  exact ⟨α, hon.viableOn hg hviable hdot⟩

/-- The FOLLOW sets that a method reduces on. -/
def followSets? (g : Grammar) : Method → Option FollowSets
  | .slr1 => some (.ofGrammar g (.ofGrammar g))
  | .lr1 => none

/-- The table of a grammar is the table of the item sets of the method. -/
theorem generate_of_collection? {method : Method}
    (hc : method.collection? g (.ofGrammar g) = some c) :
    generate g method = (ofCollection g c (followSets? g method)).mapError .conflict := by
  simp only [generate, hc]
  cases method <;> rfl

theorem generate_eq_ok_iff {method : Method}
    (hc : method.collection? g (.ofGrammar g) = some c) :
    generate g method = .ok t ↔ ofCollection g c (followSets? g method) = .ok t := by
  rw [generate_of_collection? hc]
  cases ofCollection g c (followSets? g method) <;> simp [Except.mapError]

theorem generate_eq_ok {method : Method} (h : generate g method = .ok t) :
    ∃ c, method.collection? g (.ofGrammar g) = some c ∧
      ofCollection g c (followSets? g method) = .ok t := by
  cases hc : method.collection? g (.ofGrammar g) with
  | none => simp [generate, hc] at h
  | some c => exact ⟨c, rfl, (generate_eq_ok_iff hc).mp h⟩

/-- The tables of both methods are faithful to their collections, which are canonical, and those of
the LR(1) method are precise. -/
theorem faithful_of_collection? {method : Method} (hg : g.WellFormed)
    (hc : method.collection? g (.ofGrammar g) = some c)
    (h : ofCollection g c (followSets? g method) = .ok t) :
    c.Canonical g ∧ t.Faithful g c ∧ (method = .lr1 → t.Precise g c) := by
  cases method with
  | slr1 =>
      obtain rfl := Option.some.inj hc
      have hcanonical := Lr0.canonical_collection hg
      refine ⟨hcanonical, faithful_ofCollection hg hcanonical h ?_, Method.noConfusion⟩
      rintro γ q s _ _ e _ a ⟨α, β, hviable, _⟩
      exact hviable.mem_follow hg
  | lr1 =>
      have hcanonical := Lr1.canonical_collection? hg hc
      have hexact := Lr1.exact_collection? hg hc
      refine ⟨hcanonical, faithful_ofCollection hg hcanonical h ?_, fun _ =>
        precise_ofCollection hg hcanonical hexact h⟩
      exact fun γ q s hwalk hs e he a ha => (hexact γ q s hwalk hs e he a).mpr ha

theorem faithful_generate {method : Method} (hg : g.WellFormed)
    (h : generate g method = .ok t) : ∃ c, c.Canonical g ∧ t.Faithful g c ∧
      (method = .lr1 → t.Precise g c) := by
  obtain ⟨c, hc, htable⟩ := generate_eq_ok h
  exact ⟨c, faithful_of_collection? hg hc htable⟩

/-! Tables by computation, without hashing. -/

theorem generate_slr1 (g : Grammar) : generate g .slr1 =
    (ofCollection g
      ⟨(let a := Lr0.itemAutomaton g
        let found := (Listing.start (a.closure [a.start])).run
          (fun members => ((a.movesOf members).map Prod.fst).eraseDups.map fun x =>
            (x, a.closure (a.targets members x))) (Nat.pow 2 a.size)
        List.zipWith (a.dfaState fun _ => some ()) found.nodes found.rows).map fun s =>
          { items := s.members.filterMap fun q => (Lr0.items g)[q]?.map fun i => ⟨i, ∅⟩
            transitions := s.transitions }⟩
      (some (.ofGrammar g (.ofGrammar g)))).mapError .conflict := by
  simp only [← Nfa.toList_states_determinize]
  simp only [generate, Method.collection?, Lr0.collection, List.getElem?_toArray]

theorem generate_lr1 (g : Grammar) : generate g .lr1 =
    let found := Lr1.itemSetListing g (.ofGrammar g)
    match (found.nodes.mapM id).map fun sets => (⟨List.zipWith
      (fun s row => ⟨s.entries, row⟩) sets found.rows⟩ : Collection) with
    | none => .error .endless
    | some c => (ofCollection g c none).mapError .conflict := by
  simp only [← Lr1.collection?_eq]
  rfl

end ParseTable

/-! The words over one letter: `S -> a S` and `S -> ε`. -/

namespace Letters

def declarations : List Declaration :=
  [.terminal "a", .nonterminal "S", .production 1 [.terminal 2, .nonterminal 1], .production 1 []]

def grammar : Grammar :=
  ⟨["$eoi", "$epsilon", "a"], ["$start", "S"],
    [⟨0, [.nonterminal 1]⟩, ⟨1, [.terminal 2, .nonterminal 1]⟩, ⟨1, []⟩], 1⟩

def table : ParseTable :=
  ⟨[⟨[(2, .shift 2), (0, .reduce 2)], [(1, 1)]⟩, ⟨[(0, .accept)], []⟩,
      ⟨[(2, .shift 2), (0, .reduce 2)], [(1, 3)]⟩, ⟨[(0, .reduce 1)], []⟩],
    [(0, 1), (1, 2), (1, 0)]⟩

theorem define_declarations : Grammar.define declarations = .ok grammar := by decide +kernel

theorem generate_slr1 : ParseTable.generate grammar .slr1 = .ok table := by
  rw [ParseTable.generate_slr1]
  decide +kernel

theorem generate_lr1 : ParseTable.generate grammar .lr1 = .ok table := by
  rw [ParseTable.generate_lr1]
  decide +kernel

end Letters

/-! The tables of the nested pairs: a state for each item set. -/

namespace Nested

def slrTable : ParseTable :=
  ⟨[⟨[(2, .shift 2), (0, .reduce 2), (3, .reduce 2)], [(1, 1)]⟩, ⟨[(0, .accept)], []⟩,
      ⟨[(2, .shift 2), (0, .reduce 2), (3, .reduce 2)], [(1, 3)]⟩, ⟨[(3, .shift 4)], []⟩,
      ⟨[(0, .reduce 1), (3, .reduce 1)], []⟩],
    [(0, 1), (1, 3), (1, 0)]⟩

def lrTable : ParseTable :=
  ⟨[⟨[(2, .shift 2), (0, .reduce 2)], [(1, 1)]⟩, ⟨[(0, .accept)], []⟩,
      ⟨[(2, .shift 3), (3, .reduce 2)], [(1, 4)]⟩, ⟨[(2, .shift 3), (3, .reduce 2)], [(1, 5)]⟩,
      ⟨[(3, .shift 6)], []⟩, ⟨[(3, .shift 7)], []⟩, ⟨[(0, .reduce 1)], []⟩,
      ⟨[(3, .reduce 1)], []⟩],
    [(0, 1), (1, 3), (1, 0)]⟩

theorem generate_slr1 : ParseTable.generate grammar .slr1 = .ok slrTable := by
  rw [ParseTable.generate_slr1]
  decide +kernel

theorem generate_lr1 : ParseTable.generate grammar .lr1 = .ok lrTable := by
  rw [ParseTable.generate_lr1]
  decide +kernel

end Nested

end ParserForge

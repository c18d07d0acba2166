import Mathlib
import ParserForge.Proofs.Item.Connected
import ParserForge.Proofs.Item.Filled
import ParserForge.Proofs.Table.Conflicts

/-!
Tables and conflicts, cell by cell.  A cell is a state and a terminal, and its candidates are read
off the item sets and the transitions alone.  There is a table just if no cell has two candidates,
and then it holds the candidates; otherwise the conflict names a cell and two of its candidates.
-/

namespace ParserForge

namespace Method

/-- The method reduces the completed item on the terminal: it follows the head of the production or
is a lookahead of the item. -/
def ReducesOn (g : Grammar) (e : LookaheadItem) (a : TerminalId) : Method → Prop
  | slr1 => a ∈ (FollowSets.ofGrammar g (.ofGrammar g)).get (g.head e.core.production)
  | lr1 => a ∈ e.lookaheads

end Method

namespace ParseTable

open Grammar

variable {g : Grammar} {c : Collection} {follow : Option FollowSets} {method : Method}
  {k : Conflict} {q : StateId} {a : TerminalId} {x : Action}

/-- The item that has seen the start symbol. -/
def acceptingItem : Item := ⟨.accept, 1⟩

/-- What a state can be asked to do on a terminal: to shift where the terminal leads, to accept at
the end of the input if the start symbol has been seen, and to reduce by any other item that is
complete. -/
inductive Candidate (g : Grammar) (method : Method) (c : Collection) (q : StateId) :
    TerminalId → Action → Prop
  | shift {a : TerminalId} {r : StateId} (h : c.next q (.terminal a) = some r) :
      Candidate g method c q a (.shift r)
  | accept {s : CollectionState} {e : LookaheadItem} (hs : c.states[q]? = some s)
      (he : e ∈ s.items) (h : e.core = acceptingItem) : Candidate g method c q .eoi .accept
  | reduce {s : CollectionState} {e : LookaheadItem} {a : TerminalId}
      (hs : c.states[q]? = some s) (he : e ∈ s.items) (hcomplete : e.core.isComplete g = true)
      (hne : e.core ≠ acceptingItem) (ha : method.ReducesOn g e a) :
      Candidate g method c q a (.reduce e.core.production)

/-! The candidates are what the row of the state is filled with. -/

theorem eq_acceptingItem_iff (hg : g.WellFormed) {i : Item} :
    i = acceptingItem ↔ i.isComplete g = true ∧ i.production = .accept := by
  have hbody : g.body .accept = [.nonterminal g.start] := body_eq hg.accept
  rw [Item.isComplete, decide_eq_true_eq]
  constructor
  · rintro rfl
    rw [acceptingItem, hbody]
    exact ⟨rfl, rfl⟩
  · rintro ⟨hdot, hproduction⟩
    rw [hproduction, hbody] at hdot
    exact Item.ext_of_toNat hproduction hdot

theorem mem_reduceOn_iff {e : LookaheadItem} :
    a ∈ reduceOn g (followSets? g method) e ↔ method.ReducesOn g e a := by
  cases method <;> rfl

theorem candidate_iff (hg : g.WellFormed) (hkeyed : c.Keyed) : Candidate g method c q a x ↔
    ∃ s, c.states[q]? = some s ∧ (a, x) ∈ candidates g (followSets? g method) s := by
  constructor
  · rintro (hnext | ⟨hs, he, h⟩ | ⟨hs, he, hcomplete, hne, ha⟩)
    · obtain ⟨s, hs, hlookup⟩ := Option.bind_eq_some_iff.mp hnext
      exact ⟨s, hs, mem_candidates_shift.mpr (Listing.mem_of_lookup hlookup)⟩
    · obtain ⟨hcomplete, hproduction⟩ := (eq_acceptingItem_iff hg).mp h
      exact ⟨_, hs, mem_candidates_accept.mpr ⟨rfl, _, he, hcomplete, hproduction⟩⟩
    · refine ⟨_, hs, mem_candidates_reduce.mpr ⟨fun hproduction => hne ?_, _, he, hcomplete, rfl,
        mem_reduceOn_iff.mpr ha⟩⟩
      exact (eq_acceptingItem_iff hg).mpr ⟨hcomplete, hproduction⟩
  · rintro ⟨s, hs, hmem⟩
    cases x with
    | shift r =>
        exact .shift ((hkeyed.mem_transitions_iff hs).mp (mem_candidates_shift.mp hmem))
    | accept =>
        obtain ⟨rfl, e, he, hcomplete, hproduction⟩ := mem_candidates_accept.mp hmem
        exact .accept hs he ((eq_acceptingItem_iff hg).mpr ⟨hcomplete, hproduction⟩)
    | reduce p =>
        obtain ⟨hp, e, he, hcomplete, rfl, ha⟩ := mem_candidates_reduce.mp hmem
        refine .reduce hs he hcomplete (fun h => hp ?_) (mem_reduceOn_iff.mp ha)
        exact ((eq_acceptingItem_iff hg).mp h).2

/-! A conflict is between two different entries of one row. -/

theorem enter_eq_error {actions : List (TerminalId × Action)} {e : TerminalId × Action}
    (h : enter q actions e = .error k) : k.state = q ∧
      actions.lookup k.terminal = some k.existing ∧ (k.terminal, k.incoming) = e ∧
      k.existing ≠ k.incoming := by
  rw [enter] at h
  split at h
  · cases h
  · next existing hlookup =>
      split at h
      · cases h
      · next hne =>
          cases h
          exact ⟨rfl, hlookup, rfl, hne⟩

theorem foldlM_enter_eq_error {entries actions : List (TerminalId × Action)}
    (h : entries.foldlM (enter q) actions = .error k) : k.state = q ∧
      (actions.lookup k.terminal = some k.existing ∨ (k.terminal, k.existing) ∈ entries) ∧
      (k.terminal, k.incoming) ∈ entries ∧ k.existing ≠ k.incoming := by
  induction entries generalizing actions with
  | nil => cases h
  | cons e entries ih =>
      rw [List.foldlM_cons] at h
      cases hfirst : enter q actions e with
      | error conflict =>
          rw [hfirst] at h
          cases h
          obtain ⟨hstate, hexisting, hincoming, hne⟩ := enter_eq_error hfirst
          exact ⟨hstate, Or.inl hexisting, hincoming ▸ List.mem_cons_self, hne⟩
      | ok first =>
          rw [hfirst] at h
          obtain ⟨hstate, hexisting, hincoming, hne⟩ := ih h
          rw [lookup_enter hfirst, or_assoc, ← List.mem_cons] at hexisting
          exact ⟨hstate, hexisting, List.mem_cons_of_mem e hincoming, hne⟩

theorem row_eq_error {s : CollectionState} (h : row g follow q s = .error k) : k.state = q ∧
    (k.terminal, k.existing) ∈ candidates g follow s ∧
    (k.terminal, k.incoming) ∈ candidates g follow s ∧ k.existing ≠ k.incoming := by
  simp only [row] at h
  cases hfold : (candidates g follow s).foldlM (enter q) [] with
  | error conflict =>
      rw [hfold] at h
      cases h
      obtain ⟨hstate, hexisting, hincoming, hne⟩ := foldlM_enter_eq_error hfold
      exact ⟨hstate, hexisting.resolve_left (by simp), hincoming, hne⟩
  | ok actions =>
      rw [hfold] at h
      cases h

theorem rowsFrom_eq_error {id : StateId} {states : List CollectionState}
    (h : rowsFrom g follow id states = .error k) :
    ∃ (q : Nat) (s : CollectionState), states[q]? = some s ∧ row g follow (id + q) s = .error k := by
  induction states generalizing id with
  | nil => cases h
  | cons s states ih =>
      rw [rowsFrom] at h
      split at h
      · next conflict hrow =>
          cases h
          exact ⟨0, s, rfl, hrow⟩
      · cases hrest : rowsFrom g follow (id + 1) states with
        | error conflict =>
            rw [hrest] at h
            cases h
            obtain ⟨q, s', hs', hrow⟩ := ih hrest
            refine ⟨q + 1, s', hs', ?_⟩
            rwa [Nat.add_comm q 1, ← Nat.add_assoc]
        | ok rest =>
            rw [hrest] at h
            cases h

theorem ofCollection_eq_error (h : ofCollection g c follow = .error k) :
    ∃ s, c.states[k.state]? = some s ∧ (k.terminal, k.existing) ∈ candidates g follow s ∧
      (k.terminal, k.incoming) ∈ candidates g follow s ∧ k.existing ≠ k.incoming := by
  simp only [ofCollection] at h
  cases hrows : rowsFrom g follow 0 c.states with
  | ok rows =>
      rw [hrows] at h
      cases h
  | error conflict =>
      rw [hrows] at h
      cases h
      obtain ⟨q, s, hs, hrow⟩ := rowsFrom_eq_error hrows
      obtain ⟨hstate, hexisting, hincoming, hne⟩ := row_eq_error hrow
      rw [Nat.zero_add] at hstate
      exact ⟨s, hstate ▸ hs, hexisting, hincoming, hne⟩

/-! Tables of the item sets of a method. -/

theorem generate_eq_error_iff {e : TableError}
    (hc : method.collection? g (.ofGrammar g) = some c) : generate g method = .error e ↔
    ∃ k, ofCollection g c (followSets? g method) = .error k ∧ e = .conflict k := by
  rw [generate_of_collection? hc]
  cases ofCollection g c (followSets? g method) <;> simp [Except.mapError, eq_comm]

theorem keyed_of_collection? (hg : g.WellFormed)
    (hc : method.collection? g (.ofGrammar g) = some c) : c.Keyed := by
  cases method with
  | slr1 =>
      obtain rfl := Option.some.inj hc
      exact Lr0.keyed_collection g
  | lr1 => exact Lr1.keyed_collection? hg hc

/-- No cell has two different candidates. -/
def Unambiguous (g : Grammar) (method : Method) (c : Collection) : Prop :=
  ∀ q a x y, Candidate g method c q a x → Candidate g method c q a y → x = y

theorem unambiguous_iff (hg : g.WellFormed) (hkeyed : c.Keyed) : Unambiguous g method c ↔
    ∃ t, ofCollection g c (followSets? g method) = .ok t := by
  rw [exists_ofCollection_iff]
  constructor
  · intro h s hs a x y hx hy
    obtain ⟨q, hq⟩ := List.getElem?_of_mem hs
    exact h q a x y ((candidate_iff hg hkeyed).mpr ⟨s, hq, hx⟩)
      ((candidate_iff hg hkeyed).mpr ⟨s, hq, hy⟩)
  · intro h q a x y hx hy
    obtain ⟨s, hs, hx⟩ := (candidate_iff hg hkeyed).mp hx
    obtain ⟨s', hs', hy⟩ := (candidate_iff hg hkeyed).mp hy
    cases hs.symm.trans hs'
    exact h s (List.mem_of_getElem? hs) a x y hx hy

/-- Where the construction of the collection comes to its end, there is a table if and only if no
cell has two different candidates.  The table does what the candidates say, nothing in the cells
without one, and its gotos are the transitions on nonterminals.  Without a table there is a conflict
between two different candidates of one cell. -/
theorem generate_decides {ds : List Declaration} (hg : Grammar.define ds = .ok g)
    (hends : method = .lr1 → Lr1.Terminates g) :
    ∃ c, method.collection? g (.ofGrammar g) = some c ∧
      ((∃ t, generate g method = .ok t) ↔ Unambiguous g method c) ∧
      (∀ t, generate g method = .ok t →
        (∀ q a x, t.action q a = some x ↔ Candidate g method c q a x) ∧
        ∀ q n, t.goto q n = c.next q (.nonterminal n)) ∧
      ∀ e, generate g method = .error e → ∃ k, e = .conflict k ∧ k.existing ≠ k.incoming ∧
        Candidate g method c k.state k.terminal k.existing ∧
        Candidate g method c k.state k.terminal k.incoming := by
  have hwf := wellFormed_of_define hg
  obtain ⟨c, hc⟩ : ∃ c, method.collection? g (.ofGrammar g) = some c := by
    cases method with
    | slr1 => exact ⟨_, rfl⟩
    | lr1 => exact (Lr1.terminates_iff hwf).mp (hends rfl)
  have hkeyed := keyed_of_collection? hwf hc
  refine ⟨c, hc, ?_, fun t ht => ?_, fun e he => ?_⟩
  · rw [unambiguous_iff hwf hkeyed]
    exact exists_congr fun t => generate_eq_ok_iff hc
  · have htable := (generate_eq_ok_iff hc).mp ht
    refine ⟨fun q a x => ?_, goto_eq htable⟩
    rw [action_eq_some_iff htable, candidate_iff hwf hkeyed]
  · obtain ⟨k, hk, rfl⟩ := (generate_eq_error_iff hc).mp he
    obtain ⟨s, hs, hexisting, hincoming, hne⟩ := ofCollection_eq_error hk
    exact ⟨k, rfl, hne, (candidate_iff hwf hkeyed).mpr ⟨s, hs, hexisting⟩,
      (candidate_iff hwf hkeyed).mpr ⟨s, hs, hincoming⟩⟩

theorem generate_decides_nested : Grammar.define Nested.declarations = .ok Nested.grammar ∧
    Lr1.Terminates Nested.grammar ∧
    ∃ c, Method.lr1.collection? Nested.grammar (.ofGrammar Nested.grammar) = some c ∧
      Unambiguous Nested.grammar .lr1 c ∧
      ∀ q a x, Nested.lrTable.action q a = some x ↔ Candidate Nested.grammar .lr1 c q a x := by
  have hends : Method.lr1 = .lr1 → Lr1.Terminates Nested.grammar := fun _ => Nested.terminates
  obtain ⟨c, hc, hexists, htable, _⟩ := generate_decides Nested.define_declarations hends
  exact ⟨Nested.define_declarations, Nested.terminates, c, hc,
    hexists.mp ⟨_, Nested.generate_lr1⟩, (htable _ Nested.generate_lr1).1⟩

end ParseTable

end ParserForge

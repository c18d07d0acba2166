import Mathlib
import ParserForge.Proofs.Item.Chains
import ParserForge.Proofs.Item.Goto
import ParserForge.Proofs.Item.Lookups
import ParserForge.Proofs.Table.Candidates

/-!
Collections and tables with everything looked up: the productions of items, the FOLLOW sets of heads
and, for a conflict, the names of its terminal and of the symbols in its productions.  The items of
all states are in range, and nothing is missing.
-/

namespace ParserForge

namespace Grammar

/-- As `symbolName`, with the name looked up. -/
def symbolName? (g : Grammar) : Symbol → Option String
  | .terminal t => g.terminals[t]?
  | .nonterminal n => g.nonterminals[n]?

/-- As `renderProduction`, with the production and all names looked up. -/
def renderProduction? (g : Grammar) (p : ProductionId) : Option String := do
  let r ← g.productions[p]?
  let head ← g.nonterminals[r.head]?
  let names ← r.body.mapM g.symbolName?
  return head ++ " -> " ++ if names.isEmpty then "ε" else " ".intercalate names

variable {g : Grammar}

theorem symbolName?_eq {X : Symbol} (h : g.IsUserSymbol X) :
    g.symbolName? X = some (g.symbolName X) := by
  cases X with
  | terminal t =>
      have ht : t < g.terminals.length := h.2
      simp [symbolName?, symbolName, terminalName, ht]
  | nonterminal n =>
      have hn : n < g.nonterminals.length := h.2
      simp [symbolName?, symbolName, nonterminalName, hn]

theorem renderProduction?_eq (hg : g.WellFormed) {p : ProductionId} {r : Production}
    (hr : g.productions[p]? = some r) : g.renderProduction? p = some (g.renderProduction p) := by
  have hmem := List.mem_of_getElem? hr
  have hhead : g.nonterminals[r.head]? = some (g.nonterminalName (g.head p)) := by
    rw [head_eq hr, nonterminalName, List.getElem?_eq_getElem (hg.head_lt hmem), Option.getD_some]
  have hnames := mapM_eq_some fun X hX => symbolName?_eq (hg.symbols r hmem X hX)
  rw [renderProduction?, renderProduction, body_eq hr, hr]
  simp only [hhead, hnames, Option.bind_eq_bind, Option.bind_some]
  rfl

end Grammar

namespace Action

/-- The production that is to be reduced, if any, is one of the grammar. -/
def Known (g : Grammar) : Action → Prop
  | reduce p => ∃ r, g.productions[p]? = some r
  | _ => True

/-- The production that is to be reduced in words, on a line of its own. -/
def rule (g : Grammar) : Action → String
  | reduce p => "\n  " ++ p.label ++ ": " ++ g.renderProduction p
  | _ => ""

/-- As `rule`, with the production and all names looked up. -/
def rule? (g : Grammar) : Action → Option String
  | reduce p => (g.renderProduction? p).map fun rule => "\n  " ++ p.label ++ ": " ++ rule
  | _ => some ""

theorem rule?_eq {g : Grammar} (hg : g.WellFormed) {x : Action} (hx : x.Known g) :
    x.rule? g = some (x.rule g) := by
  cases x with
  | shift q => rfl
  | accept => rfl
  | reduce p =>
      obtain ⟨r, hr⟩ := hx
      rw [rule?, Grammar.renderProduction?_eq hg hr]
      rfl

end Action

namespace Conflict

/-- As `message`, with all names looked up. -/
def message? (g : Grammar) (c : Conflict) : Option String := do
  let terminal ← g.terminals[c.terminal]?
  let existing ← c.existing.rule? g
  let incoming ← c.incoming.rule? g
  return "conflict in state " ++ c.state.label ++ " on `" ++ terminal ++ "': " ++
    c.existing.render ++ " vs " ++ c.incoming.render ++ existing ++ incoming

theorem message?_eq {g : Grammar} (hg : g.WellFormed) {c : Conflict}
    (hterminal : c.terminal < g.terminals.length) (hexisting : c.existing.Known g)
    (hincoming : c.incoming.Known g) : c.message? g = some (c.message g) := by
  have hname : g.terminals[c.terminal]? = some (g.terminalName c.terminal) := by
    rw [Grammar.terminalName, List.getElem?_eq_getElem hterminal, Option.getD_some]
  simp only [message?, hname, Action.rule?_eq hg hexisting, Action.rule?_eq hg hincoming,
    Option.bind_eq_bind, Option.bind_some]
  rfl

end Conflict

/-- The items are in range, and the terminals that a state reduces or shifts on are terminals of the
grammar. -/
structure CollectionState.InRange (g : Grammar) (s : CollectionState) : Prop where
  items : ∀ e ∈ s.items, e.core.InRange g
  lookaheads : ∀ e ∈ s.items, ∀ t ∈ e.lookaheads, t < g.terminals.length
  transitions : ∀ t q, (Symbol.terminal t, q) ∈ s.transitions → t < g.terminals.length

theorem Grammar.Possible.inRange {g : Grammar} (hg : g.WellFormed) {γ : List Symbol} {i : Item}
    (h : g.Possible γ i) : i.InRange g := by
  obtain ⟨α, β, hviable, hdot⟩ := h
  obtain ⟨r, hr, hbody⟩ := hviable.production hg
  refine ⟨r, hr, ?_⟩
  rw [hbody, List.length_append, ← hdot]
  exact Nat.le_add_right _ _

/-- As `collection?`, with everything looked up. -/
def Method.build? (g : Grammar) (first : FirstSets) : Method → Option (Option Collection)
  | slr1 => (Lr0.build? g).map some
  | lr1 => Lr1.build? g first (Lr1.Closure.enough g)
      (Nat.pow 2 ((g.terminals.length + 1) * Item.count g.productions) + 1)

/-- The FOLLOW sets that a method reduces on, with everything looked up. -/
def Method.follow? (g : Grammar) (first : FirstSets) : Method → Option (Option FollowSets)
  | slr1 => (FollowSets.ofGrammar? g first).map some
  | lr1 => some none

namespace Method

variable {g : Grammar} {method : Method} {c : Collection}

theorem build?_eq (hg : g.WellFormed) (method : Method) :
    method.build? g (.ofGrammar g) = some (method.collection? g (.ofGrammar g)) := by
  cases method with
  | slr1 => rw [build?, Lr0.build?_eq hg, Option.map_some, collection?]
  | lr1 => exact Lr1.build?_eq hg

theorem follow?_eq (hg : g.WellFormed) (method : Method) :
    method.follow? g (.ofGrammar g) = some (ParseTable.followSets? g method) := by
  cases method with
  | slr1 =>
      rw [follow?, FollowSets.ofGrammar?_eq hg (FirstSets.sound_ofGrammar hg).length_eq]
      rfl
  | lr1 => rfl

theorem lookaheads_lt (hg : g.WellFormed) (hc : method.collection? g (.ofGrammar g) = some c)
    {s : CollectionState} (hs : s ∈ c.states) {e : LookaheadItem} (he : e ∈ s.items)
    {t : TerminalId} (ht : t ∈ e.lookaheads) : t < g.terminals.length := by
  cases method with
  | slr1 =>
      obtain rfl := Option.some.inj hc
      rw [Lr0.bare_collection s hs e he] at ht
      exact absurd ht (by simp)
  | lr1 =>
      obtain ⟨γ, r, hr, rfl⟩ := Lr1.represents_of_mem_states hg hc hs
      rw [← ItemSet.lookaheads_of_mem he] at ht
      obtain ⟨α, β, hviable, -⟩ := (hr.lookaheads_iff e.core t).mp ht
      exact hviable.lt_length hg

/-- The states of the collections are in range. -/
theorem inRange_of_collection? (hg : g.WellFormed)
    (hc : method.collection? g (.ofGrammar g) = some c) : ∀ s ∈ c.states, s.InRange g := by
  obtain ⟨hcanonical, hconnected⟩ : c.Canonical g ∧ c.Connected := by
    cases method with
    | slr1 =>
        obtain rfl := Option.some.inj hc
        exact ⟨Lr0.canonical_collection hg, Lr0.connected_collection g⟩
    | lr1 => exact ⟨Lr1.canonical_collection? hg hc, Lr1.connected_collection? hg hc⟩
  intro s hs
  -- some symbols lead to the state, and after them its items are possible and its edges expected
  obtain ⟨q, hq⟩ := List.getElem?_of_mem hs
  obtain ⟨γ, hwalk⟩ := hconnected q (List.getElem?_eq_some_iff.mp hq).1
  refine ⟨fun e he => ?_, fun e he t ht => lookaheads_lt hg hc hs he ht, fun t r htr => ?_⟩
  · exact ((hcanonical.mem_iff γ q s hwalk hq e.core).mp ⟨e, he, rfl⟩).inRange hg
  · have hnext := ((ParseTable.keyed_of_collection? hg hc).mem_transitions_iff hq).mp htr
    obtain ⟨p, α, β, hviable⟩ := hcanonical.expected γ q hwalk _ r hnext
    obtain ⟨rule, hrule, hbody⟩ := hviable.production hg
    have huser : g.IsUserSymbol (.terminal t) :=
      hg.symbols rule (List.mem_of_getElem? hrule) _ (by simp [hbody])
    exact huser.2

end Method

namespace ParseTable

open Grammar

variable {g : Grammar} {follow : Option FollowSets} {s : CollectionState}

/-- As `Item.isComplete`, with the production looked up. -/
def isComplete? (g : Grammar) (i : Item) : Option Bool :=
  g.productions[i.production]?.map fun r => i.dot.toNat = r.body.length

/-- As `reduceOn`, with the production and the FOLLOW set of its head looked up. -/
def reduceOn? (g : Grammar) (follow : Option FollowSets) (i : LookaheadItem) :
    Option TerminalSet :=
  match follow with
  | some sets => g.productions[i.core.production]?.bind fun r => sets.table.get? r.head
  | none => some i.lookaheads

/-- What there is to do by an item. -/
def reductions? (g : Grammar) (follow : Option FollowSets) (i : LookaheadItem) :
    Option (List (TerminalId × Action)) :=
  match isComplete? g i.core with
  | none => none
  | some false => some []
  | some true =>
      if i.core.production = .accept then some [(.eoi, .accept)]
      else
        (reduceOn? g follow i).map fun terminals =>
          terminals.members.map fun t => (t, .reduce i.core.production)

/-- As `candidates`, with everything looked up. -/
def candidates? (g : Grammar) (follow : Option FollowSets) (s : CollectionState) :
    Option (List (TerminalId × Action)) := do
  let shifts := s.transitions.filterMap fun (symbol, next) =>
    match symbol with
    | .terminal t => some (t, Action.shift next)
    | .nonterminal _ => none
  let reductions ← s.items.mapM (reductions? g follow)
  return shifts ++ reductions.flatten

/-- Enters everything that there is to do.  A conflict is put into words. -/
def enterAll? (g : Grammar) (id : StateId) : List (TerminalId × Action) →
    List (TerminalId × Action) → Option (Except Conflict (List (TerminalId × Action)))
  | [], actions => some (.ok actions)
  | entry :: entries, actions =>
      match enter id actions entry with
      | .error c => (c.message? g).map fun _ => .error c
      | .ok actions => enterAll? g id entries actions

/-- As `row`, with everything looked up. -/
def row? (g : Grammar) (follow : Option FollowSets) (id : StateId) (s : CollectionState) :
    Option (Except Conflict TableRow) := do
  let gotos := s.transitions.filterMap fun (symbol, next) =>
    match symbol with
    | .terminal _ => none
    | .nonterminal n => some (n, next)
  let entered ← enterAll? g id (← candidates? g follow s) []
  return entered.map fun actions => ⟨actions, gotos⟩

/-- As `rowsFrom`, with everything looked up. -/
def rowsFrom? (g : Grammar) (follow : Option FollowSets) (id : StateId) :
    List CollectionState → Option (Except Conflict (List TableRow))
  | [] => some (.ok [])
  | s :: rest =>
      match row? g follow id s with
      | none => none
      | some (.error c) => some (.error c)
      | some (.ok r) => (rowsFrom? g follow (id + 1) rest).map fun rows => rows.map (r :: ·)

/-- As `ofCollection`, with everything looked up. -/
def ofCollection? (g : Grammar) (c : Collection) (follow : Option FollowSets) :
    Option (Except Conflict ParseTable) :=
  (rowsFrom? g follow 0 c.states).map fun rows => rows.map fun rows =>
    ⟨rows, g.productions.map fun p => (p.head, p.body.length)⟩

/-- As `generate`, with everything looked up. -/
def generate? (g : Grammar) (method : Method) : Option (Except TableError ParseTable) := do
  let first ← FirstSets.ofGrammar? g
  match ← method.build? g first with
  | none => return .error .endless
  | some c =>
      let follow ← method.follow? g first
      let table ← ofCollection? g c follow
      return table.mapError .conflict

/-- The FOLLOW sets, if there are any, have been found for this grammar. -/
def FollowSound (g : Grammar) (follow : Option FollowSets) : Prop :=
  ∀ sets, follow = some sets → FollowSets.Sound g sets.table

/-- The entry is about a terminal and a production of the grammar. -/
def Listed (g : Grammar) (entry : TerminalId × Action) : Prop :=
  entry.1 < g.terminals.length ∧ entry.2.Known g

theorem isComplete?_eq {i : Item} (h : i.InRange g) : isComplete? g i = some (i.isComplete g) := by
  obtain ⟨r, hr, -⟩ := h
  rw [isComplete?, Item.isComplete, hr, body_eq hr, Option.map_some]

theorem reduceOn?_eq (hg : g.WellFormed) (hfollow : FollowSound g follow) {i : LookaheadItem}
    (h : i.core.InRange g) : reduceOn? g follow i = some (reduceOn g follow i) := by
  obtain ⟨r, hr, -⟩ := h
  cases follow with
  | none => rfl
  | some sets =>
      have hlength := (hfollow sets rfl).length_eq
      have hhead := hg.head_lt (List.mem_of_getElem? hr)
      rw [reduceOn?, reduceOn, hr, head_eq hr]
      exact SetTable.get?_eq (hlength ▸ hhead)

theorem reductions?_eq (hg : g.WellFormed) (hfollow : FollowSound g follow) {i : LookaheadItem}
    (h : i.core.InRange g) : reductions? g follow i = some
      (if i.core.isComplete g then
        if i.core.production = .accept then [(.eoi, .accept)]
        else (reduceOn g follow i).members.map fun t => (t, .reduce i.core.production)
      else []) := by
  rw [reductions?, isComplete?_eq h, reduceOn?_eq hg hfollow h]
  cases i.core.isComplete g with
  | false => rfl
  | true =>
      simp only [Option.map_some, if_true]
      split <;> rfl

theorem flatMap_filter {α β : Type} (f : α → List β) (p : α → Bool) (as : List α) :
    (as.filter p).flatMap f = (as.map fun a => if p a then f a else []).flatten := by
  induction as with
  | nil => rfl
  | cons a as ih => cases ha : p a <;> simp [ha, ih]

/-- What there is to do by all items together is what there is to do by the completed ones. -/
theorem candidates?_eq (hg : g.WellFormed) (hfollow : FollowSound g follow) (hs : s.InRange g) :
    candidates? g follow s = some (candidates g follow s) := by
  have hreductions := mapM_eq_some fun e he => reductions?_eq hg hfollow (hs.items e he)
  rw [candidates?, hreductions, candidates, CollectionState.completed, flatMap_filter]
  rfl

theorem listed_of_mem_candidates (hg : g.WellFormed) (hfollow : FollowSound g follow)
    (hs : s.InRange g) : ∀ entry ∈ candidates g follow s, Listed g entry := by
  rintro ⟨a, x⟩ h
  cases x with
  | shift q => exact ⟨hs.transitions a q (mem_candidates_shift.mp h), trivial⟩
  | accept =>
      obtain ⟨rfl, -⟩ := mem_candidates_accept.mp h
      exact ⟨Nat.lt_of_lt_of_le Nat.two_pos hg.terminals, trivial⟩
  | reduce p =>
      obtain ⟨-, e, he, -, rfl, ha⟩ := mem_candidates_reduce.mp h
      obtain ⟨r, hr, -⟩ := hs.items e he
      refine ⟨?_, r, hr⟩
      cases follow with
      | none => exact hs.lookaheads e he a ha
      | some sets => exact (hfollow sets rfl).bounded _ a ha

theorem listed_of_enter {q : StateId} {actions entered : List (TerminalId × Action)}
    {entry : TerminalId × Action} (hactions : ∀ e ∈ actions, Listed g e) (hentry : Listed g entry)
    (h : enter q actions entry = .ok entered) : ∀ e ∈ entered, Listed g e := by
  rw [enter] at h
  split at h
  · cases h
    intro e he
    rcases List.mem_append.mp he with he | he
    · exact hactions e he
    · exact List.mem_singleton.mp he ▸ hentry
  · split at h
    · cases h
      exact hactions
    · cases h

/-- A conflict between listed entries can be put into words. -/
theorem message?_of_enter (hg : g.WellFormed) {q : StateId} {actions : List (TerminalId × Action)}
    {entry : TerminalId × Action} (hactions : ∀ e ∈ actions, Listed g e) (hentry : Listed g entry)
    {c : Conflict} (h : enter q actions entry = .error c) : c.message? g = some (c.message g) := by
  obtain ⟨-, hexisting, rfl, -⟩ := enter_eq_error h
  have hlisted := hactions _ (Listing.mem_of_lookup hexisting)
  exact Conflict.message?_eq hg hentry.1 hlisted.2 hentry.2

theorem enterAll?_eq (hg : g.WellFormed) (q : StateId) {entries : List (TerminalId × Action)}
    (hentries : ∀ e ∈ entries, Listed g e) {actions : List (TerminalId × Action)}
    (hactions : ∀ e ∈ actions, Listed g e) :
    enterAll? g q entries actions = some (entries.foldlM (enter q) actions) := by
  induction entries generalizing actions with
  | nil => rfl
  | cons entry entries ih =>
      obtain ⟨hentry, hentries⟩ := List.forall_mem_cons.mp hentries
      rw [enterAll?, List.foldlM_cons]
      cases henter : enter q actions entry with
      | error c =>
          simp only [message?_of_enter hg hactions hentry henter]
          rfl
      | ok entered => exact ih hentries (listed_of_enter hactions hentry henter)

theorem row?_eq (hg : g.WellFormed) (hfollow : FollowSound g follow) (q : StateId)
    (hs : s.InRange g) : row? g follow q s = some (row g follow q s) := by
  have hentered := enterAll?_eq hg q (listed_of_mem_candidates hg hfollow hs)
    (List.forall_mem_nil _)
  simp only [row?, candidates?_eq hg hfollow hs, hentered, Option.bind_eq_bind, Option.bind_some]
  rfl

theorem rowsFrom?_eq (hg : g.WellFormed) (hfollow : FollowSound g follow) (q : StateId)
    {states : List CollectionState} (hstates : ∀ s ∈ states, s.InRange g) :
    rowsFrom? g follow q states = some (rowsFrom g follow q states) := by
  induction states generalizing q with
  | nil => rfl
  | cons s states ih =>
      obtain ⟨hs, hstates⟩ := List.forall_mem_cons.mp hstates
      rw [rowsFrom?, rowsFrom, row?_eq hg hfollow q hs, ih (q + 1) hstates]
      cases row g follow q s <;> rfl

theorem ofCollection?_eq (hg : g.WellFormed) (hfollow : FollowSound g follow) {c : Collection}
    (hc : ∀ s ∈ c.states, s.InRange g) :
    ofCollection? g c follow = some (ofCollection g c follow) := by
  rw [ofCollection?, rowsFrom?_eq hg hfollow 0 hc]
  rfl

theorem followSound_followSets? (hg : g.WellFormed) (method : Method) :
    FollowSound g (followSets? g method) := by
  intro sets hsets
  cases method with
  | slr1 =>
      obtain rfl := Option.some.inj hsets
      exact FollowSets.sound_ofGrammar hg
  | lr1 => cases hsets

/-- Nothing is missing in the making of a table. -/
theorem generate?_eq (hg : g.WellFormed) (method : Method) :
    generate? g method = some (generate g method) := by
  simp only [generate?, FirstSets.ofGrammar?_eq hg, method.build?_eq hg, method.follow?_eq hg,
    Option.bind_eq_bind, Option.bind_some]
  cases hc : method.collection? g (.ofGrammar g) with
  | none =>
      simp only [generate, hc]
      rfl
  | some c =>
      have htable := ofCollection?_eq hg (followSound_followSets? hg method)
        (Method.inRange_of_collection? hg hc)
      simp only [generate_of_collection? hc, htable, Option.bind_some]
      rfl

end ParseTable

namespace Grammar

/-- In the making of item sets and tables, dots stay in the bodies, which are short enough for them,
and nothing that is looked up is missing.  The number of a dot never runs over, so no two places of
the grammar have the same item; and the LR(1) item sets find what they look up, and room for one dot
more, however many steps their closures may take and however many of them are made. -/
structure StaysInRange (g : Grammar) : Prop where
  dots : ∀ r ∈ g.productions, ∀ k ≤ r.body.length, (UInt16.ofNat k).toNat = k
  places : (Lr0.items g).length = Item.count g.productions ∧ (Lr0.items g).Nodup ∧
    ∀ i ∈ Lr0.items g, i.InRange g
  items : ∀ (method : Method) (c : Collection), method.collection? g (.ofGrammar g) = some c →
    ∀ s ∈ c.states, ∀ e ∈ s.items, ∃ r, g.productions[e.core.production]? = some r ∧
      e.core.dot.toNat ≤ r.body.length ∧ r.body.length ≤ 65535
  itemSets : ∀ (steps : ItemSet → Nat) (turns : Nat),
    ∃ found, Lr1.itemSets? g (.ofGrammar g) steps turns = some found ∧
      ∀ s, some s ∈ found.nodes → ∀ i ∈ s.items, i.InRange g
  first : FirstSets.ofGrammar? g = some (.ofGrammar g)
  follow : FollowSets.ofGrammar? g (.ofGrammar g) = some (.ofGrammar g (.ofGrammar g))
  collection : ∀ method : Method,
    method.build? g (.ofGrammar g) = some (method.collection? g (.ofGrammar g))
  table : ∀ method : Method,
    ParseTable.generate? g method = some (ParseTable.generate g method)

/-- Whatever has been declared, item sets and tables stay in range. -/
theorem staysInRange_of_define {ds : List Declaration} {g : Grammar} (h : define ds = .ok g) :
    g.StaysInRange := by
  have hg := wellFormed_of_define h
  refine ⟨fun r hr k hk => ?_, ⟨Lr0.length_items g, ?_, fun i => Lr0.inRange_of_mem_items hg⟩,
    fun method c hc s hs e he => ?_, fun steps turns => ?_, FirstSets.ofGrammar?_eq hg,
    FollowSets.ofGrammar?_eq hg (FirstSets.sound_ofGrammar hg).length_eq, Method.build?_eq hg,
    ParseTable.generate?_eq hg⟩
  · obtain ⟨p, hp⟩ := List.getElem?_of_mem hr
    exact hg.toNat_dot hp hk
  · refine (Lr0.pairwise_items hg).imp ?_
    rintro i j hbefore rfl
    rcases hbefore with hlt | ⟨-, hlt⟩
    · exact Nat.lt_irrefl _ hlt
    · exact UInt16.lt_irrefl _ hlt
  · obtain ⟨r, hr, hdot⟩ := (Method.inRange_of_collection? hg hc s hs).items e he
    exact ⟨r, hr, hdot, hg.lengths r (List.mem_of_getElem? hr)⟩
  · have hfound := Lr1.itemSets?_eq hg steps turns
    exact ⟨_, hfound, fun s hs => (Lr1.inRange_of_itemSets? hg hfound s hs).items⟩

theorem staysInRange_nested : define Nested.declarations = .ok Nested.grammar ∧
    Nested.grammar.StaysInRange :=
  ⟨Nested.define_declarations, staysInRange_of_define Nested.define_declarations⟩

end Grammar

end ParserForge

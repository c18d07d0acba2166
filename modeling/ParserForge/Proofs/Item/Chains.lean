import Mathlib
import ParserForge.Proofs.Automaton.Builder
import ParserForge.Proofs.Automaton.Shape
import ParserForge.Proofs.Checked
import ParserForge.Proofs.Item.InRange

/-!
The LR(0) collection step by step.  The states of the automaton of places are added production by
production, and then their edges, for which the states of a place and of the productions are looked
up.  Nothing that is looked up is missing, and the automaton in the end is that of all places.
-/

namespace ParserForge

namespace Lr0

open Grammar NfaBuilder

/-- What has been added to the automaton of places: its states, the item of each of them, and the
states of each production, place by place. -/
structure Draft where
  builder : NfaBuilder Symbol Unit
  items : List Item
  chains : List (List StateId)

/-- Adds a state for a dot, as the last one of its production. -/
def addPlace (p : ProductionId) (d : NfaBuilder Symbol Unit × List Item × List StateId)
    (dot : Nat) : NfaBuilder Symbol Unit × List Item × List StateId :=
  let (builder, q) := d.1.addState
  (builder, d.2.1 ++ [⟨p, UInt16.ofNat dot⟩], d.2.2 ++ [q])

/-- Adds the states for the dots in a production, the last of which is accepting. -/
def Draft.addChain? (d : Draft) (r : Production × ProductionId) : Option Draft := do
  let (builder, items, chain) :=
    (List.range (r.1.body.length + 1)).foldl (addPlace r.2) (d.builder, d.items, [])
  let last ← chain[r.1.body.length]?
  let builder ← builder.setAccepting? last true
  return ⟨builder, items, d.chains ++ [chain]⟩

/-- Adds a silent edge to the start of a production. -/
def addPrediction? (chains : List (List StateId)) (source : StateId)
    (builder : NfaBuilder Symbol Unit) (p : ProductionId) : Option (NfaBuilder Symbol Unit) := do
  let chain ← chains[p]?
  let target ← chain[0]?
  builder.addSilent? source target

/-- Adds the edges from the place before a symbol. -/
def addEdges? (g : Grammar) (chains : List (List StateId)) (chain : List StateId)
    (builder : NfaBuilder Symbol Unit) (symbol : Symbol × Nat) :
    Option (NfaBuilder Symbol Unit) := do
  let source ← chain[symbol.2]?
  let target ← chain[symbol.2 + 1]?
  let builder ← builder.addMove? source symbol.1 target
  match symbol.1 with
  | .terminal _ => some builder
  | .nonterminal n => (g.productionsOf n).foldlM (addPrediction? chains source) builder

/-- Adds the edges between the places in a production. -/
def addBody? (g : Grammar) (chains : List (List StateId)) (builder : NfaBuilder Symbol Unit)
    (r : Production × ProductionId) : Option (NfaBuilder Symbol Unit) := do
  let chain ← chains[r.2]?
  r.1.body.zipIdx.foldlM (addEdges? g chains chain) builder

/-- A state of the collection, with the items of its members looked up. -/
def state? (items : List Item) (s : DfaState Symbol Unit) : Option CollectionState := do
  let members ← s.members.mapM fun q => items[q]?
  return ⟨members.map fun i => ⟨i, ∅⟩, s.transitions⟩

/-- As `collection`, with everything looked up. -/
def build? (g : Grammar) : Option Collection := do
  let draft ← g.productions.zipIdx.foldlM Draft.addChain? ⟨.empty, [], []⟩
  let builder ← g.productions.zipIdx.foldlM (addBody? g draft.chains) draft.builder
  let chain ← draft.chains[ProductionId.accept]?
  let start ← chain[0]?
  let nfa ← builder.build? start
  let dfa ← nfa.determinize? fun _ => some ()
  let states ← dfa.states.toList.mapM (state? draft.items)
  return ⟨states⟩

/-- The states of the places in a body before there are edges. -/
def bare : List Symbol → List (NfaState Symbol Unit)
  | [] => [{ accepting := true }]
  | _ :: rest => {} :: bare rest

/-- The numbers of the states for the places in a production. -/
def numbers (g : Grammar) (p : ProductionId) : List StateId :=
  (List.range ((g.body p).length + 1)).map (placesBefore g p + ·)

/-- The items of the places in a production. -/
def places (g : Grammar) (p : ProductionId) : List Item :=
  (List.range ((g.body p).length + 1)).map fun dot => ⟨p, UInt16.ofNat dot⟩

/-- The draft after the first `m` productions. -/
def draft (g : Grammar) (m : Nat) : Draft :=
  ⟨ofList ((g.productions.take m).flatMap fun r => bare r.body), (List.range m).flatMap (places g),
    (List.range m).map (numbers g)⟩

variable {g : Grammar} {p : ProductionId} {r : Production}

theorem bare_eq (body : List Symbol) :
    bare body = List.replicate body.length { accepting := false } ++ [{ accepting := true }] := by
  induction body with
  | nil => rfl
  | cons X body ih => simp [bare, ih, List.replicate_succ]

theorem foldl_addPlace (p : ProductionId) (states : List (NfaState Symbol Unit))
    (items : List Item) (n : Nat) :
    (List.range n).foldl (addPlace p) (ofList states, items, []) =
      (ofList (states ++ List.replicate n { accepting := false }),
        items ++ (List.range n).map fun dot => ⟨p, UInt16.ofNat dot⟩,
        (List.range n).map (states.length + ·)) := by
  induction n with
  | zero => simp
  | succ n ih =>
      rw [List.range_succ, List.foldl_append, ih]
      simp [addPlace, List.replicate_succ']

theorem length_bares (ps : List Production) :
    (ps.flatMap fun r => bare r.body).length = Item.count ps := by
  induction ps with
  | nil => rfl
  | cons r ps ih =>
      rw [List.flatMap_cons, List.length_append, ih, bare_eq, Item.count]
      simp

theorem draft_succ (hr : g.productions[p]? = some r) : draft g (p + 1) =
    ⟨ofList (((g.productions.take p).flatMap fun r => bare r.body) ++ bare r.body),
      (List.range p).flatMap (places g) ++ places g p,
      (List.range p).map (numbers g) ++ [numbers g p]⟩ := by
  obtain ⟨hp, hget⟩ := List.getElem?_eq_some_iff.mp hr
  have htake : g.productions.take (p + 1) = g.productions.take p ++ [r] := by
    rw [List.take_succ_eq_append_getElem hp, hget]
  simp [draft, htake, List.range_succ]

/-- The states of one production more. -/
theorem addChain?_draft (hr : g.productions[p]? = some r) :
    (draft g p).addChain? (r, p) = some (draft g (p + 1)) := by
  have hlength := length_bares (g.productions.take p)
  have hlast : ((List.range (r.body.length + 1)).map
      (Item.count (g.productions.take p) + ·))[r.body.length]? =
        some (Item.count (g.productions.take p) + r.body.length) := by simp
  -- all of the states are added alike, and the last one is changed in its place afterwards
  have haccepting := update?_append (((g.productions.take p).flatMap fun r => bare r.body) ++
    List.replicate r.body.length { accepting := false }) [] { accepting := false }
    fun s => { s with accepting := true }
  rw [List.length_append, hlength, List.length_replicate, List.append_assoc, List.append_assoc,
    ← bare_eq, ← List.replicate_succ'] at haccepting
  rw [draft_succ hr, numbers, places, placesBefore, body_eq hr]
  simp only [Draft.addChain?, draft, foldl_addPlace, hlength, hlast, Option.bind_eq_bind,
    Option.bind_some, setAccepting?, haccepting]
  rfl

theorem foldlM_addChain? : g.productions.zipIdx.foldlM Draft.addChain? ⟨.empty, [], []⟩ =
    some (draft g g.productions.length) :=
  foldlM_zipIdx_eq_some (draft g) fun _ _ hr => addChain?_draft hr

/-! The edges. -/

/-- The states of a production are where the chains of the finished draft say. -/
theorem getElem?_chains (hr : g.productions[p]? = some r) {k : Nat} (hk : k ≤ r.body.length) :
    (draft g g.productions.length).chains[p]? = some (numbers g p) ∧
      (numbers g p)[k]? = some (placesBefore g p + k) := by
  have hp := (List.getElem?_eq_some_iff.mp hr).1
  have hlt : k < r.body.length + 1 := Nat.lt_succ_of_le hk
  constructor
  · simp [draft, hp]
  · simp [numbers, body_eq hr, hlt]

/-- Silent edges to the starts of some productions. -/
theorem foldlM_addPrediction? (before after : List (NfaState Symbol Unit))
    (s : NfaState Symbol Unit) {ps : List ProductionId}
    (hps : ∀ p ∈ ps, p < g.productions.length) :
    ps.foldlM (addPrediction? (draft g g.productions.length).chains before.length)
        (ofList (before ++ s :: after)) =
      some (ofList (before ++
        { s with silent := s.silent ++ ps.map (placesBefore g) } :: after)) := by
  induction ps generalizing s with
  | nil => simp
  | cons p ps ih =>
      obtain ⟨hp, hps⟩ := List.forall_mem_cons.mp hps
      obtain ⟨hchain, hstart⟩ := getElem?_chains (List.getElem?_eq_getElem hp) (Nat.zero_le _)
      simp only [List.foldlM_cons, addPrediction?, hchain, hstart, addSilent?_append,
        Option.bind_eq_bind, Option.bind_some, ih _ hps, List.map_cons, Nat.add_zero,
        List.append_assoc, List.singleton_append]

theorem bare_getElem? {body : List Symbol} {k : Nat} {X : Symbol} (hX : body[k]? = some X) :
    (bare body).drop k = {} :: (bare body).drop (k + 1) := by
  have hk := (List.getElem?_eq_some_iff.mp hX).1
  have hlt : k < (bare body).length := by
    rw [bare_eq]
    simp
    omega
  rw [List.drop_eq_getElem_cons hlt]
  simp [bare_eq, hk]

theorem chain_take_succ (g : Grammar) (base : StateId) {body : List Symbol} {k : Nat} {X : Symbol}
    (hX : body[k]? = some X) : (chain g base body).take (k + 1) = (chain g base body).take k ++
      [{ moves := [(X, base + k + 1)], silent := predicted g X }] := by
  obtain ⟨hk, hget⟩ := List.getElem?_eq_some_iff.mp hX
  have hbody : body = body.take k ++ X :: body.drop (k + 1) := by
    rw [← hget, List.getElem_cons_drop, List.take_append_drop]
  have hstate := chain_getElem? g base (body.take k) X (body.drop (k + 1))
  rw [← hbody, List.length_take_of_le hk.le] at hstate
  obtain ⟨hlt, hstate⟩ := List.getElem?_eq_some_iff.mp hstate
  rw [List.take_succ_eq_append_getElem hlt, hstate]

/-- The edges from one place more. -/
theorem addEdges?_eq (hr : g.productions[p]? = some r) {before : List (NfaState Symbol Unit)}
    (hbefore : before.length = placesBefore g p) (after : List (NfaState Symbol Unit)) {k : Nat}
    {X : Symbol} (hX : r.body[k]? = some X) :
    addEdges? g (draft g g.productions.length).chains (numbers g p)
        (ofList (before ++ (chain g (placesBefore g p) r.body).take k ++
          ((bare r.body).drop k ++ after))) (X, k) =
      some (ofList (before ++ (chain g (placesBefore g p) r.body).take (k + 1) ++
        ((bare r.body).drop (k + 1) ++ after))) := by
  have hk := (List.getElem?_eq_some_iff.mp hX).1
  have hlength : (before ++ (chain g (placesBefore g p) r.body).take k).length =
      placesBefore g p + k := by
    have := length_chain g (placesBefore g p) r.body
    rw [List.length_append, hbefore, List.length_take_of_le (by omega)]
  have hsource := (getElem?_chains hr hk.le).2
  have htarget := (getElem?_chains hr (k := k + 1) hk).2
  -- the place before the symbol is the first one that is still bare
  have hmove := addMove?_append (before ++ (chain g (placesBefore g p) r.body).take k)
    ((bare r.body).drop (k + 1) ++ after) {} X (placesBefore g p + (k + 1))
  rw [hlength] at hmove
  rw [bare_getElem? hX, chain_take_succ g _ hX, List.cons_append]
  simp only [addEdges?, hsource, htarget, hmove, Option.bind_eq_bind, Option.bind_some]
  cases X with
  | terminal t => simp [predicted, Nat.add_assoc]
  | nonterminal n =>
      have hps : ∀ p ∈ g.productionsOf n, p < g.productions.length := by
        intro p hp
        obtain ⟨r, hr, -⟩ := mem_productionsOf.mp hp
        exact (List.getElem?_eq_some_iff.mp hr).1
      have hpredicted := foldlM_addPrediction?
        (before ++ (chain g (placesBefore g p) r.body).take k) ((bare r.body).drop (k + 1) ++ after)
        { moves := [(.nonterminal n, placesBefore g p + (k + 1))] } hps
      rw [hlength] at hpredicted
      simpa [predicted, Nat.add_assoc] using hpredicted

theorem chain_eq (g : Grammar) (base : StateId) (body : List Symbol) :
    (chain g base body).take body.length ++ [{ accepting := true }] = chain g base body := by
  obtain ⟨hlt, hget⟩ := List.getElem?_eq_some_iff.mp (chain_getElem?_length g base body)
  rw [← hget, ← List.take_succ_eq_append_getElem hlt, ← length_chain g base body, List.take_length]

/-- The edges between the places in one production more. -/
theorem addBody?_eq (hr : g.productions[p]? = some r) {before : List (NfaState Symbol Unit)}
    (hbefore : before.length = placesBefore g p) (after : List (NfaState Symbol Unit)) :
    addBody? g (draft g g.productions.length).chains (ofList (before ++ (bare r.body ++ after)))
        (r, p) =
      some (ofList (before ++ (chain g (placesBefore g p) r.body ++ after))) := by
  have hfold := foldlM_zipIdx_eq_some
    (fun k => ofList (before ++ (chain g (placesBefore g p) r.body).take k ++
      ((bare r.body).drop k ++ after)))
    (fun k X hX => addEdges?_eq hr hbefore after hX)
  have hlast : (bare r.body).drop r.body.length = [{ accepting := true }] := by simp [bare_eq]
  have hjoin : before ++ (chain g (placesBefore g p) r.body).take r.body.length ++
      ([{ accepting := true }] ++ after) =
        before ++ (chain g (placesBefore g p) r.body ++ after) := by
    rw [List.append_assoc, ← List.append_assoc (List.take _ _), chain_eq]
  rw [hlast, hjoin, List.take_zero, List.append_nil, List.drop_zero] at hfold
  rw [addBody?, (getElem?_chains hr (Nat.zero_le _)).1]
  exact hfold

theorem length_chains (g : Grammar) (base : StateId) (ps : List Production) :
    (chains g base ps).length = Item.count ps := by
  induction ps generalizing base with
  | nil => rfl
  | cons r ps ih => rw [chains, List.length_append, length_chain, ih, Item.count]

theorem chains_append (g : Grammar) (base : StateId) (ps qs : List Production) :
    chains g base (ps ++ qs) = chains g base ps ++ chains g (base + Item.count ps) qs := by
  induction ps generalizing base with
  | nil => rfl
  | cons r ps ih =>
      rw [List.cons_append, chains, ih, chains, Item.count, List.append_assoc,
        Nat.add_assoc base, Nat.add_assoc base]

/-- The automaton of places, once the edges of the first `m` productions have been added. -/
def linked (g : Grammar) (m : Nat) : NfaBuilder Symbol Unit :=
  ofList (chains g 0 (g.productions.take m) ++
    (g.productions.drop m).flatMap fun r => bare r.body)

theorem addBody?_linked (hr : g.productions[p]? = some r) :
    addBody? g (draft g g.productions.length).chains (linked g p) (r, p) =
      some (linked g (p + 1)) := by
  obtain ⟨hp, hget⟩ := List.getElem?_eq_some_iff.mp hr
  have hchains : chains g 0 (g.productions.take (p + 1)) =
      chains g 0 (g.productions.take p) ++ chain g (placesBefore g p) r.body := by
    rw [List.take_succ_eq_append_getElem hp, hget, chains_append, Nat.zero_add, ← placesBefore]
    simp [chains]
  rw [linked, List.drop_eq_getElem_cons hp, hget, List.flatMap_cons,
    addBody?_eq hr (length_chains g 0 _), linked, hchains, List.append_assoc]

theorem foldlM_addBody? : g.productions.zipIdx.foldlM
    (addBody? g (draft g g.productions.length).chains) (draft g g.productions.length).builder =
      some ⟨(itemAutomaton g).states⟩ := by
  have hfold := foldlM_zipIdx_eq_some (linked g) fun _ _ hr => addBody?_linked hr
  simpa [linked, draft, chains, itemAutomaton, ofList] using hfold

/-! The collection. -/

/-- Moves lead to the next place, and silent edges to what is predicted. -/
theorem successors_of_mem_chain {base : Nat} {body : List Symbol} {s : NfaState Symbol Unit}
    (hs : s ∈ chain g base body) {q : Nat} (hq : q ∈ s.successors) :
    q ≤ base + body.length ∨ ∃ X, q ∈ predicted g X := by
  induction body generalizing base with
  | nil =>
      cases List.mem_singleton.mp hs
      exact absurd hq List.not_mem_nil
  | cons X body ih =>
      rw [List.length_cons]
      rcases List.mem_cons.mp hs with rfl | hs
      · rcases List.mem_append.mp hq with hq | hq
        · exact .inr ⟨X, hq⟩
        · left
          rw [List.mem_singleton.mp hq]
          omega
      · refine (ih hs).imp_left fun hle => ?_
        omega

theorem exists_mem_chain {base : Nat} {ps : List Production} {s : NfaState Symbol Unit}
    (hs : s ∈ chains g base ps) : ∃ (k : Nat) (r : Production), s ∈ chain g k r.body ∧
      k + r.body.length < base + Item.count ps := by
  induction ps generalizing base with
  | nil => exact absurd hs List.not_mem_nil
  | cons r ps ih =>
      rw [Item.count]
      rcases List.mem_append.mp hs with hs | hs
      · exact ⟨base, r, hs, by omega⟩
      · obtain ⟨k, r', hs, hlt⟩ := ih hs
        exact ⟨k, r', hs, by omega⟩

theorem size_itemAutomaton (g : Grammar) : (itemAutomaton g).size = Item.count g.productions := by
  simp [itemAutomaton, Nfa.size, length_chains]

/-- The automaton of places has no stray edges. -/
theorem closed_itemAutomaton (hg : g.WellFormed) : (itemAutomaton g).Closed where
  start := place_lt_size hg.accept (Nat.zero_le _)
  edges := by
    intro s hs q hq
    obtain ⟨k, r, hs, hlt⟩ := exists_mem_chain (Array.mem_toList_iff.mpr hs)
    rw [Nat.zero_add, ← size_itemAutomaton] at hlt
    rcases successors_of_mem_chain hs hq with hle | ⟨X, hX⟩
    · exact Nat.lt_of_le_of_lt hle hlt
    · obtain ⟨p, r, -, hr, rfl⟩ := mem_predicted.mp hX
      exact place_lt_size hr (Nat.zero_le _)

theorem build_itemAutomaton (hg : g.WellFormed) :
    (⟨(itemAutomaton g).states⟩ : NfaBuilder Symbol Unit).build? (placesBefore g .accept) =
      some (itemAutomaton g) := if_pos (closed_itemAutomaton hg).start

/-- The members of the states are places, which have items. -/
theorem lt_length_items (hg : g.WellFormed) {s : DfaState Symbol Unit}
    (hs : s ∈ ((itemAutomaton g).determinize fun _ => some ()).states.toList) {q : StateId}
    (hq : q ∈ s.members) : q < (items g).length := by
  have hmembers : s.members ∈ (itemAutomaton g).subsetListing.nodes := by
    rw [← Nfa.map_members_determinize (itemAutomaton g) fun _ => some ()]
    exact List.mem_map_of_mem hs
  obtain ⟨seeds, hseeds, -⟩ := Nfa.exists_seeds_of_mem (closed_itemAutomaton hg) _ hmembers
  rw [length_items, ← size_itemAutomaton]
  exact (Nfa.mem_closure.mp (hseeds ▸ hq)).1

/-- The items of a state are those of its members, none of which is missing. -/
theorem state?_eq {s : DfaState Symbol Unit} (hs : ∀ q ∈ s.members, q < (items g).length) :
    state? (items g) s =
      some ⟨s.members.filterMap fun q => (items g).toArray[q]?.map fun i => ⟨i, ∅⟩,
        s.transitions⟩ := by
  have hmembers : s.members.mapM (fun q => (items g)[q]?) =
      some (s.members.filterMap fun q => (items g)[q]?) :=
    mapM_eq_filterMap fun q hq => ⟨_, List.getElem?_eq_getElem (hs q hq)⟩
  simp [state?, hmembers, List.map_filterMap]

/-- Every lookup of the LR(0) construction finds something, and it gives the collection. -/
theorem build?_eq (hg : g.WellFormed) : build? g = some (collection g) := by
  have hstart := getElem?_chains hg.accept (Nat.zero_le _)
  have hstates := mapM_eq_some fun s hs => state?_eq fun q hq => lt_length_items hg hs hq
  have hitems : (draft g g.productions.length).items = items g := rfl
  simp only [build?, foldlM_addChain?, foldlM_addBody?, hstart, Option.bind_eq_bind,
    Option.bind_some, Nat.add_zero, build_itemAutomaton hg,
    (closed_itemAutomaton hg).determinize?_eq, hitems, hstates]
  rfl

end Lr0

end ParserForge

import Mathlib
import ParserForge.Proofs.Item.Centers

/-!
The LR(0) collection by closure and goto.  Both work on sets of items: the closure adds what items
predict, and a symbol leads from a set to the closure of those of its items that have the dot moved
over the symbol.  The items that are possible after some symbols are made in this way, so the subset
construction on places makes the collection that is defined by closure and goto, with the items of
every state in strictly ascending order.
-/

namespace ParserForge

open Grammar
open Lr1 (Predicts)

namespace Lr0

variable {g : Grammar} {c : Collection} {k s : Set Item} {i j : Item} {γ α β : List Symbol}
  {p : ProductionId} {X : Symbol}

/-- The item is in the set, or an item that is found in the same way predicts it. -/
inductive Closes (g : Grammar) (k : Set Item) : Item → Prop
  | mem {i : Item} (hi : i ∈ k) : Closes g k i
  | predicts {i j : Item} (hi : Closes g k i) (hj : Predicts g i j) : Closes g k j

/-- The items of a set and everything that they predict, directly or through other items. -/
def closure (g : Grammar) (k : Set Item) : Set Item := {i | Closes g k i}

/-- The items of a set that expect the symbol next, with the dot moved over it. -/
def advanced (g : Grammar) (s : Set Item) (X : Symbol) : Set Item :=
  {j | ∃ i ∈ s, i.next g = some X ∧ j = i.advance}

/-- The set that a symbol leads to from a set of items. -/
def goto (g : Grammar) (s : Set Item) (X : Symbol) : Set Item := closure g (advanced g s X)

/-- The order of items: by production and, within a production, by dot. -/
def Before (i j : Item) : Prop :=
  i.production < j.production ∨ i.production = j.production ∧ i.dot < j.dot

/-- The collection that closure and goto define.  State zero is the closure of the item that
expects the start symbol.  A state has a transition, and just one, on each symbol that one of its
items expects, and it leads to the set that the symbol leads to.  No two states have the same items,
every state can be reached, and the items stand in strictly ascending order, without lookaheads. -/
structure ByGoto (g : Grammar) (c : Collection) : Prop where
  start : 0 < c.states.length ∧ (c.centers 0 : Set Item) = closure g {Item.start .accept}
  exists_next_iff : ∀ q < c.states.length, ∀ X,
    (∃ r, c.next q X = some r) ↔ ∃ i ∈ c.centers q, i.next g = some X
  centers_next : ∀ q X r, c.next q X = some r →
    r < c.states.length ∧ (c.centers r : Set Item) = goto g (c.centers q) X
  keyed : c.Keyed
  distinct : c.Distinct
  connected : c.Connected
  ascending : ∀ s ∈ c.states, s.items.Pairwise fun d e => Before d.core e.core
  bare : ∀ s ∈ c.states, ∀ e ∈ s.items, e.lookaheads = ∅

/-! What is possible after some symbols, by closure and goto. -/

theorem possible_of_closes (hg : g.WellFormed) (hk : ∀ i ∈ k, g.Possible γ i)
    (h : Closes g k i) : g.Possible γ i := by
  induction h with
  | mem hi => exact hk _ hi
  | predicts _ hj ih =>
      obtain ⟨p, r, hnext, hr, rfl⟩ := hj
      exact ih.predict hg hnext hr

/-- A set has what is possible after some symbols if it has the first item, if there are no symbols,
and what moving the dot over the last one makes of the items that are possible before it. -/
structure Kernel (g : Grammar) (γ : List Symbol) (k : Set Item) : Prop where
  start : γ = [] → Item.start .accept ∈ k
  advance : ∀ δ X i, γ = δ ++ [X] → g.Possible δ i → i.next g = some X → i.advance ∈ k

theorem closes_of_viable (hg : g.WellFormed) (hk : Kernel g γ k) (h : g.Viable γ p α β) :
    ∀ i : Item, i.production = p → α.length = i.dot.toNat → Closes g k i := by
  induction h with
  | start =>
      intro i hp hdot
      have hi : i = .start .accept := Item.ext_of_toNat hp hdot.symm
      exact .mem (hi ▸ hk.start rfl)
  | advance h _ =>
      rintro i rfl hdot
      obtain ⟨j, hproduction, hj, hnext, rfl⟩ := h.exists_before hg hdot
      exact .mem (hk.advance _ _ j rfl ⟨_, _, hproduction ▸ h, hj⟩ hnext)
  | @predict γ α β p q r h hr ih =>
      rintro i rfl hdot
      obtain ⟨hj, _⟩ := h.possible hg
      have hnext := Viable.next_item (i := ⟨p, UInt16.ofNat α.length⟩) hg h hj.symm
      have hi : i = .start i.production := Item.ext_of_toNat rfl hdot.symm
      exact .predicts (ih hk _ rfl hj.symm) ⟨_, r, hnext, hr, hi⟩

/-- The items that are possible after some symbols are the closure of a kernel of such items. -/
theorem possible_iff_closes (hg : g.WellFormed) (hk : Kernel g γ k)
    (hpossible : ∀ i ∈ k, g.Possible γ i) : g.Possible γ i ↔ Closes g k i := by
  constructor
  · rintro ⟨α, β, hviable, hdot⟩
    exact closes_of_viable hg hk hviable i rfl hdot
  · exact possible_of_closes hg hpossible

theorem possible_nil (hg : g.WellFormed) :
    {i | g.Possible [] i} = closure g {Item.start .accept} := by
  ext i
  refine possible_iff_closes hg ⟨fun _ => rfl, fun δ X _ h => ?_⟩ ?_
  · exact absurd h.symm (List.append_ne_nil_of_right_ne_nil δ (List.cons_ne_nil X []))
  · rintro i rfl
    exact ⟨[], _, .start, rfl⟩

theorem possible_concat (hg : g.WellFormed) (γ : List Symbol) (X : Symbol) :
    {i | g.Possible (γ ++ [X]) i} = goto g {i | g.Possible γ i} X := by
  ext i
  refine possible_iff_closes hg ⟨fun h => ?_, fun δ Y j h hj hnext => ?_⟩ ?_
  · exact absurd h (List.append_ne_nil_of_right_ne_nil γ (List.cons_ne_nil X []))
  · obtain ⟨rfl, rfl⟩ := List.append_singleton_inj.mp h
    exact ⟨j, hj, hnext, rfl⟩
  · rintro _ ⟨j, hj, hnext, rfl⟩
    exact hj.advance hg hnext

theorem coe_centers (hc : c.Canonical g) {q : StateId} (hwalk : c.walk γ = some q) :
    (c.centers q : Set Item) = {i | g.Possible γ i} := by
  ext i
  exact hc.mem_centers_iff hwalk

/-! The order of the items. -/

theorem pairwise_places (hg : g.WellFormed) {r : Production} (hr : g.productions[p]? = some r) :
    ((List.range (r.body.length + 1)).map fun dot =>
      (⟨p, UInt16.ofNat dot⟩ : Item)).Pairwise Before := by
  rw [List.pairwise_map]
  refine List.pairwise_lt_range.imp_of_mem fun {m n} hm hn hlt => Or.inr ⟨rfl, ?_⟩
  rw [List.mem_range, Nat.lt_succ_iff] at hm hn
  rw [UInt16.lt_iff_toNat_lt, hg.toNat_dot hr hm, hg.toNat_dot hr hn]
  exact hlt

/-- The places stand in the order of their items. -/
theorem pairwise_items (hg : g.WellFormed) : (items g).Pairwise Before := by
  rw [items, List.pairwise_flatMap]
  constructor
  · intro p hp
    have hr := List.getElem?_eq_getElem (List.mem_range.mp hp)
    rw [body_eq hr]
    exact pairwise_places hg hr
  · refine List.pairwise_lt_range.imp fun {m n} hlt i hi j hj => Or.inl ?_
    obtain ⟨_, _, rfl⟩ := List.mem_map.mp hi
    obtain ⟨_, _, rfl⟩ := List.mem_map.mp hj
    exact hlt

/-- What stands at ascending places of a list stands in the order of the list. -/
theorem pairwise_getElem? {α : Type} {R : α → α → Prop} {as : List α} (h : as.Pairwise R)
    {m n : Nat} (hlt : m < n) {a b : α} (ha : as[m]? = some a) (hb : as[n]? = some b) : R a b := by
  obtain ⟨hm, rfl⟩ := List.getElem?_eq_some_iff.mp ha
  obtain ⟨hn, rfl⟩ := List.getElem?_eq_some_iff.mp hb
  exact List.pairwise_iff_getElem.mp h m n hm hn hlt

theorem items_of_mem_states {s : CollectionState} (hs : s ∈ (collection g).states) :
    ∃ members : List StateId, members.Pairwise (· < ·) ∧
      s.items = members.filterMap fun m => (items g)[m]?.map fun i => ⟨i, ∅⟩ := by
  obtain ⟨q, hq⟩ := List.getElem?_of_mem hs
  obtain ⟨γ, hwalk⟩ := connected_collection g q (List.getElem?_eq_some_iff.mp hq).1
  obtain ⟨members, hmembers, hreaches⟩ := reaches_of_walk hwalk
  obtain ⟨s', hs', hitems⟩ := states_collection hmembers
  cases hq.symm.trans hs'
  exact ⟨members, hreaches.ascending, hitems⟩

theorem ascending_collection (hg : g.WellFormed) : ∀ s ∈ (collection g).states,
    s.items.Pairwise fun d e => Before d.core e.core := by
  intro s hs
  obtain ⟨members, hascending, hitems⟩ := items_of_mem_states hs
  rw [hitems, List.pairwise_filterMap]
  refine hascending.imp fun {m n} hlt d hd e he => ?_
  obtain ⟨i, hi, rfl⟩ := Option.map_eq_some_iff.mp hd
  obtain ⟨j, hj, rfl⟩ := Option.map_eq_some_iff.mp he
  exact pairwise_getElem? (pairwise_items hg) hlt hi hj

theorem bare_collection : ∀ s ∈ (collection g).states, ∀ e ∈ s.items, e.lookaheads = ∅ := by
  intro s hs e he
  obtain ⟨members, _, hitems⟩ := items_of_mem_states hs
  rw [hitems] at he
  obtain ⟨m, _, hm⟩ := List.mem_filterMap.mp he
  obtain ⟨i, _, rfl⟩ := Option.map_eq_some_iff.mp hm
  rfl

/-! The collection. -/

theorem exists_next_iff (hg : g.WellFormed) (hc : c.Canonical g) {q : StateId}
    (hwalk : c.walk γ = some q) (X : Symbol) :
    (∃ r, c.next q X = some r) ↔ ∃ i ∈ c.centers q, i.next g = some X := by
  constructor
  · rintro ⟨r, hnext⟩
    obtain ⟨p, α, β, hviable⟩ := hc.expected γ q hwalk X r hnext
    obtain ⟨hdot, hpossible⟩ := hviable.possible hg
    refine ⟨_, (hc.mem_centers_iff hwalk).mpr hpossible, ?_⟩
    exact Viable.next_item (i := ⟨p, UInt16.ofNat α.length⟩) hg hviable hdot.symm
  · rintro ⟨i, hi, hnext⟩
    obtain ⟨α, β, hviable, _⟩ := ((hc.mem_centers_iff hwalk).mp hi).exists_viable hg hnext
    exact hc.next γ q hwalk i.production α X β hviable

/-- The LR(0) collection of a grammar is the one that closure and goto define. -/
theorem collection_byGoto {ds : List Declaration} (hg : Grammar.define ds = .ok g) :
    ByGoto g (collection g) := by
  have hwf := wellFormed_of_define hg
  have hc := canonical_collection hwf
  have hconnected := connected_collection g
  have hstart : (collection g).walk [] = some 0 := rfl
  refine ⟨⟨hc.lt_length_of_walk hstart, ?_⟩, fun q hq X => ?_, fun q X r hnext => ?_,
    keyed_collection g, distinct_collection hwf, hconnected, ascending_collection hwf,
    bare_collection⟩
  · rw [coe_centers hc hstart, possible_nil hwf]
  · obtain ⟨γ, hwalk⟩ := hconnected q hq
    exact exists_next_iff hwf hc hwalk X
  · obtain ⟨γ, hwalk⟩ := hconnected q (Collection.lt_length_of_next hnext)
    have hwalk' : (collection g).walk (γ ++ [X]) = some r := by
      rw [Collection.walk_concat, hwalk, Option.bind_some, hnext]
    refine ⟨hc.lt_length_of_walk hwalk', ?_⟩
    rw [coe_centers hc hwalk', coe_centers hc hwalk, possible_concat hwf]

theorem collection_byGoto_nested : Grammar.define Nested.declarations = .ok Nested.grammar ∧
    ByGoto Nested.grammar (collection Nested.grammar) :=
  ⟨Nested.define_declarations, collection_byGoto Nested.define_declarations⟩

end Lr0

end ParserForge

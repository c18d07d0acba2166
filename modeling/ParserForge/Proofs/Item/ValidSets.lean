import Mathlib
import ParserForge.Proofs.Item.Filled
import ParserForge.Proofs.Item.Valid

/-!
The LR(1) collection against rightmost derivations.  If every nonterminal derives a word, the
collection exists, the state that symbols lead to has just the items that are valid after them, and
symbols lead to one state just if the same items are valid after them.  Uniting the lookaheads of
an item within a set therefore never mixes up two sets.
-/

namespace ParserForge

open Grammar

namespace Collection

/-- The state has the item, with the terminal among its lookaheads. -/
def Holds (c : Collection) (q : StateId) (i : Item) (t : TerminalId) : Prop :=
  ∃ s e, c.states[q]? = some s ∧ e ∈ s.items ∧ e.core = i ∧ t ∈ e.lookaheads

variable {g : Grammar} {c : Collection} {γ : List Symbol} {q : StateId} {i : Item} {t : TerminalId}

/-- If the lookaheads are exact, a state has the items that are possible with the terminal. -/
theorem Canonical.holds_iff (hc : c.Canonical g) (hexact : c.Exact g)
    (hwalk : c.walk γ = some q) : c.Holds q i t ↔ g.PossibleOn γ i t := by
  constructor
  · rintro ⟨s, e, hs, he, rfl, ht⟩
    exact (hexact γ q s hwalk hs e he t).mp ht
  · rintro ⟨α, β, hon, hdot⟩
    obtain ⟨s, hs⟩ := hc.state γ q hwalk
    obtain ⟨e, he, rfl⟩ := (hc.mem_iff γ q s hwalk hs i).mpr ⟨α, β, hon.viable, hdot⟩
    exact ⟨s, e, hs, he, rfl, (hexact γ q s hwalk hs e he t).mpr ⟨α, β, hon, hdot⟩⟩

end Collection

namespace Lr1

variable {g : Grammar} {c : Collection} {s r : ItemSet} {γ δ : List Symbol} {q q' : StateId}

/-- Sets in which all items have lookaheads are given by these. -/
theorem Represents.eq_of_possibleOn (hs : Represents g γ s) (hr : Represents g δ r)
    (hfilled : Filled s) (hfilled' : Filled r)
    (h : ∀ i t, g.PossibleOn γ i t ↔ g.PossibleOn δ i t) : s = r := by
  have hlookaheads : ∀ i t, t ∈ s.lookaheads i ↔ t ∈ r.lookaheads i := by
    intro i t
    rw [hs.lookaheads_iff, hr.lookaheads_iff]
    exact h i t
  apply ItemSet.ext_of_mem
  · intro i
    constructor
    · intro hi
      obtain ⟨t, ht⟩ := hfilled i hi
      exact ItemSet.mem_items_of_mem_lookaheads ((hlookaheads i t).mp ht)
    · intro hi
      obtain ⟨t, ht⟩ := hfilled' i hi
      exact ItemSet.mem_items_of_mem_lookaheads ((hlookaheads i t).mpr ht)
  · exact hlookaheads

/-- Symbols after which the same is possible lead to one state. -/
theorem walk_eq_of_possibleOn (hg : g.WellFormed) (hstarts : ∀ n, g.Reachable n → g.Starts n)
    (h : collection? g (.ofGrammar g) = some c) (hγ : c.walk γ = some q) (hδ : c.walk δ = some q')
    (hsame : ∀ i t, g.PossibleOn γ i t ↔ g.PossibleOn δ i t) : q = q' := by
  obtain ⟨s, hs, hq, _⟩ := represents_of_walk hg h hγ
  obtain ⟨r, hr, hq', _⟩ := represents_of_walk hg h hδ
  have heq : s = r := hs.eq_of_possibleOn hr (hs.filled hstarts) (hr.filled hstarts) hsame
  have hnodup := (itemSetListing_sound g (.ofGrammar g)).nodup
  have hlt := (List.getElem?_eq_some_iff.mp hq).1
  refine (List.getElem?_inj hlt hnodup).mp ?_
  rw [hq, hq', heq]

/-- If every nonterminal derives a word, the LR(1) collection exists.  Symbols lead to a state that
has an item with a lookahead if and only if a rightmost derivation makes the item valid after them
with the terminal, and they lead to one state if and only if the same items are valid with the same
terminals. -/
theorem collection?_valid {ds : List Declaration} (hg : Grammar.define ds = .ok g)
    (hprod : g.Productive) : ∃ c, collection? g (.ofGrammar g) = some c ∧
      (∀ γ i t, (∃ q, c.walk γ = some q ∧ c.Holds q i t) ↔ g.ValidItem γ i t) ∧
      ∀ γ δ q r, c.walk γ = some q → c.walk δ = some r →
        (q = r ↔ ∀ i t, c.Holds q i t ↔ c.Holds r i t) := by
  have hwf := wellFormed_of_define hg
  have hstarts : ∀ n, g.Reachable n → g.Starts n := fun n hn => hprod.starts hwf hn
  obtain ⟨c, hcollection⟩ := exists_collection? hwf hstarts
  have hc := canonical_collection? hwf hcollection
  have hexact := exact_collection? hwf hcollection
  refine ⟨c, hcollection, fun γ i t => ?_, fun γ δ q r hγ hδ => ⟨?_, fun hsame => ?_⟩⟩
  · rw [validItem_iff hwf hprod]
    constructor
    · rintro ⟨q, hwalk, hholds⟩
      exact (hc.holds_iff hexact hwalk).mp hholds
    · rintro ⟨α, β, hon, hdot⟩
      obtain ⟨q, hwalk⟩ := hc.exists_walk hon.viable
      exact ⟨q, hwalk, (hc.holds_iff hexact hwalk).mpr ⟨α, β, hon, hdot⟩⟩
  · rintro rfl
    exact fun _ _ => Iff.rfl
  · apply walk_eq_of_possibleOn hwf hstarts hcollection hγ hδ
    intro i t
    rw [← hc.holds_iff hexact hγ, ← hc.holds_iff hexact hδ]
    exact hsame i t

theorem collection?_valid_nested : Nested.grammar.Productive ∧
    ∃ c, collection? Nested.grammar (.ofGrammar Nested.grammar) = some c ∧
      (∀ γ i t, (∃ q, c.walk γ = some q ∧ c.Holds q i t) ↔ Nested.grammar.ValidItem γ i t) ∧
      ∀ γ δ q r, c.walk γ = some q → c.walk δ = some r →
        (q = r ↔ ∀ i t, c.Holds q i t ↔ c.Holds r i t) :=
  ⟨Nested.productive, collection?_valid Nested.define_declarations Nested.productive⟩

end Lr1

end ParserForge

import Mathlib
import ParserForge.Proofs.Item.InRange
import ParserForge.Proofs.Item.Least
import ParserForge.Proofs.Item.Lr1
import ParserForge.Proofs.Item.Next

/-!
Where closures come to their end.  A closure may go round in a circle only through items without
lookaheads.  If everything reachable can start somehow, a set in which every item has a lookahead
stays so under predictions.  So the LR(1) collection of such a grammar exists, in particular if
every nonterminal derives a word.
-/

namespace ParserForge

namespace Lr1

open Grammar

variable {g : Grammar} {s k : ItemSet} {γ : List Symbol}

theorem filled_initial : Filled initial := by
  intro i hi
  obtain ⟨e, he, rfl⟩ := ItemSet.mem_items_ofList.mp hi
  cases List.mem_singleton.mp he
  exact ⟨.eoi, ItemSet.mem_lookaheads_ofList.mpr ⟨_, he, rfl, TerminalSet.mem_singleton.mpr rfl⟩⟩

section Starts

variable (hg : g.WellFormed) (hstarts : ∀ n, g.Reachable n → g.Starts n)

include hg hstarts

/-- The closure of what is possible comes to its end, if every item has a lookahead. -/
theorem exists_closure? (hk : Within g γ k) (hfilled : Filled k) :
    ∃ s, closure? g (.ofGrammar g) k = some s := by
  obtain ⟨_, c, _, _, _, hs⟩ := Closure.exists_least hg k
  have hfilled : Filled c.items := hs.filled hg hfilled fun i hi j hj => by
    obtain ⟨p, r, hnext, _, _⟩ := hj
    have hpossible := (hs.within hg hk).possible i hi
    obtain ⟨α, β, hviable, hdot⟩ := hpossible.exists_viable hg hnext
    rw [hviable.rest_item hg hdot]
    exact hviable.advance.begins_or_nullable hstarts
  have hcloses : Closes g k c.items := (hs.closes_iff hg).mpr ⟨rfl, hfilled.not_circular⟩
  exact ⟨c.items, (closure?_eq_some_iff hg).mpr hcloses⟩

omit hg in
/-- What is possible is possible with some lookahead. -/
theorem Represents.filled (h : Represents g γ s) : Filled s := by
  intro i hi
  obtain ⟨α, β, hviable, hdot⟩ := (h.mem_iff i).mp hi
  obtain ⟨t, ht⟩ := hviable.exists_viableOn hstarts
  exact ⟨t, (h.lookaheads_iff i t).mpr ⟨α, β, ht, hdot⟩⟩

theorem exists_represents (hk : Kernel g γ k) (hfilled : Filled k) :
    ∃ s, closure? g (.ofGrammar g) k = some s ∧ Represents g γ s := by
  obtain ⟨s, hs⟩ := exists_closure? hg hstarts hk.within hfilled
  exact ⟨s, hs, represents_closure? hg hk hs⟩

/-- All item sets that are found have an answer. -/
theorem exists_of_mem_itemSetListing :
    ∀ o ∈ (itemSetListing g (.ofGrammar g)).nodes, ∃ s γ, o = some s ∧ Represents g γ s := by
  refine Listing.run_nodes_of_closed (P := fun o => ∃ s γ, o = some s ∧ Represents g γ s)
    ?_ _ ?_
  · rintro _ ⟨s, γ, rfl, hs⟩ e he
    obtain ⟨X, _, rfl⟩ := List.mem_map.mp he
    have hfilled : Filled (s.kernel g X) := by
      intro j hj
      obtain ⟨i, hi, hnext, rfl⟩ := ItemSet.mem_items_kernel.mp hj
      obtain ⟨t, ht⟩ := hs.filled hstarts i hi
      exact ⟨t, ItemSet.mem_lookaheads_kernel.mpr ⟨i, ht, hnext, rfl⟩⟩
    obtain ⟨r, hr, hrepresents⟩ := exists_represents hg hstarts (hs.kernel hg X) hfilled
    exact ⟨r, γ ++ [X], hr, hrepresents⟩
  · intro o ho
    rw [Listing.start, List.mem_singleton] at ho
    obtain ⟨s, hs, hrepresents⟩ := exists_represents hg hstarts (kernel_initial g) filled_initial
    exact ⟨s, [], ho.trans hs, hrepresents⟩

/-- The LR(1) collection exists if everything reachable can start somehow. -/
theorem exists_collection? : ∃ c, collection? g (.ofGrammar g) = some c := by
  apply exists_collection?_of_nodes
  intro o ho
  obtain ⟨s, _, hs, _⟩ := exists_of_mem_itemSetListing hg hstarts o ho
  exact ⟨s, hs⟩

end Starts

/-- The construction comes to its end if every nonterminal derives a word. -/
theorem terminates_of_productive (hg : g.WellFormed) (hprod : g.Productive) : Terminates g :=
  (terminates_iff hg).mpr (exists_collection? hg fun _ hn => hprod.starts hg hn)

/-- The closure of a set of items with lookaheads.  The constraints have a least solution, and the
closure ends if and only if no items without lookaheads predict each other in a circle there.  When
it ends, it has the least solution.  If every nonterminal derives a word, it always ends where each
item of the set comes with a lookahead, and so do all closures of the LR(1) construction. -/
theorem closure_least {ds : List Declaration} (hg : Grammar.define ds = .ok g) (k : ItemSet) :
    ∃ s, Least g k s ∧ ((∃ r, Closes g k r) ↔ ¬ Circular g s) ∧ (∀ r, Closes g k r → r = s) ∧
      (g.Productive → (Filled k → ∃ r, Closes g k r) ∧ Terminates g) := by
  have hwf := wellFormed_of_define hg
  obtain ⟨_, c, _, _, _, hleast⟩ := Closure.exists_least hwf k
  have hcloses : ∀ r, Closes g k r ↔ r = c.items ∧ ¬ Circular g c.items :=
    fun r => hleast.closes_iff hwf
  refine ⟨c.items, hleast, ?_, fun r hr => ((hcloses r).mp hr).1, fun hprod => ⟨fun hk => ?_, ?_⟩⟩
  · simp [hcloses]
  · have hfilled := hleast.filled hwf hk fun i _ _ _ =>
      hprod.begins_or_nullable (i.isUserSymbol_rest hwf)
    exact ⟨c.items, (hcloses _).mpr ⟨rfl, hfilled.not_circular⟩⟩
  · exact terminates_of_productive hwf hprod

theorem closure_least_nested : Grammar.define Nested.declarations = .ok Nested.grammar ∧
    Nested.grammar.Productive ∧ Filled initial ∧
    ∃ s, Least Nested.grammar initial s ∧ ¬ Circular Nested.grammar s ∧
      Closes Nested.grammar initial s := by
  obtain ⟨s, hleast, hends, honly, hprod⟩ := closure_least Nested.define_declarations initial
  obtain ⟨r, hr⟩ := (hprod Nested.productive).1 filled_initial
  exact ⟨Nested.define_declarations, Nested.productive, filled_initial, s, hleast,
    hends.mp ⟨r, hr⟩, honly r hr ▸ hr⟩

end Lr1

/-! A nonterminal that is its own alternative: `S -> S` and `S -> b`. -/

namespace Cyclic

def declarations : List Declaration :=
  [.terminal "b", .nonterminal "S", .production 1 [.nonterminal 1], .production 1 [.terminal 2]]

def grammar : Grammar :=
  ⟨["$eoi", "$epsilon", "b"], ["$start", "S"],
    [⟨0, [.nonterminal 1]⟩, ⟨1, [.nonterminal 1]⟩, ⟨1, [.terminal 2]⟩], 1⟩

/-- The item that expects the start symbol, without lookaheads. -/
def bare : ItemSet := .ofList [⟨.start .accept, ∅⟩]

theorem define_declarations : Grammar.define declarations = .ok grammar := by decide +kernel

theorem productive : grammar.Productive := by
  have hword : grammar.Derives [.nonterminal 1] [.terminal 2] :=
    .single ⟨⟨1, [.terminal 2]⟩, by simp [grammar], [], [], rfl, rfl⟩
  have hroot : grammar.Derives [.nonterminal 0] [.nonterminal 1] :=
    .single ⟨⟨0, [.nonterminal 1]⟩, by simp [grammar], [], [], rfl, rfl⟩
  intro n hn
  rcases Nat.le_one_iff_eq_zero_or_eq_one.mp (Nat.le_of_lt_succ hn) with rfl | rfl
  · exact ⟨[2], hroot.trans hword⟩
  · exact ⟨[2], hword⟩

/-- Every body has one symbol, so nothing stands behind it. -/
theorem rest_eq_nil (i : Item) : i.rest grammar = [] := by
  have hbody : ∀ p, (grammar.body p).length ≤ 1
    | 0 | 1 | 2 => le_rfl
    | _ + 3 => Nat.zero_le _
  exact List.drop_eq_nil_of_le ((hbody i.production).trans (Nat.le_add_left 1 _))

/-- No item of the least solution has a lookahead. -/
theorem lookaheads_empty {s : ItemSet} (hs : Lr1.Least grammar bare s) (i : Item) (t : TerminalId) :
    t ∉ s.lookaheads i := by
  refine hs.lookaheads_empty (Grammar.wellFormed_of_define define_declarations) (fun i t ht => ?_)
    (fun i _ _ t ht => ?_) i t
  · obtain ⟨e, he, _, ht⟩ := ItemSet.mem_lookaheads_ofList.mp ht
    cases List.mem_singleton.mp he
    exact List.not_mem_nil ht
  · rw [rest_eq_nil] at ht
    cases ht

/-- Though every nonterminal derives a word, a closure need not end where an item has no
lookaheads: here `S -> S` predicts itself again and again. -/
theorem closure_never_ends : Grammar.define declarations = .ok grammar ∧ grammar.Productive ∧
    (∀ i ∈ bare.items, i.InRange grammar) ∧ ¬ ∃ s, Lr1.Closes grammar bare s := by
  have hwf := Grammar.wellFormed_of_define define_declarations
  refine ⟨define_declarations, productive, ?_, ?_⟩
  · intro i hi
    cases List.mem_singleton.mp hi
    exact Item.inRange_start (r := ⟨0, [.nonterminal 1]⟩) rfl
  · obtain ⟨_, c, _, _, _, hleast⟩ := Lr1.Closure.exists_least hwf bare
    have hfirst : Lr1.Predicts grammar (.start 0) (.start 1) :=
      ⟨1, ⟨1, [.nonterminal 1]⟩, rfl, rfl, rfl⟩
    have hagain : Lr1.Predicts grammar (.start 1) (.start 1) :=
      ⟨1, ⟨1, [.nonterminal 1]⟩, rfl, rfl, rfl⟩
    have hmem : .start 1 ∈ c.items.items :=
      hleast.solves.items _ (hleast.solves.le.items _ (by decide)) _ hfirst
    have hcircular : Lr1.Circular grammar c.items :=
      ⟨.start 1, .single ⟨hagain, hmem, lookaheads_empty hleast _⟩⟩
    rintro ⟨s, hs⟩
    exact ((hleast.closes_iff hwf).mp hs).2 hcircular

end Cyclic

theorem Nested.terminates : Lr1.Terminates Nested.grammar :=
  Lr1.terminates_of_productive (Grammar.wellFormed_of_define Nested.define_declarations)
    Nested.productive

end ParserForge

import Mathlib
import ParserForge.Proofs.Item.Closure
import ParserForge.Proofs.Item.Lr0

/-!
Items in range.  An item is in range if the grammar has its production and its dot stands in the
body or right behind it.  Predicting, advancing and listing the places of a grammar lead to items in
range only, and so the number of a dot, which no body is too long for, never runs over.
-/

namespace ParserForge

namespace Item

/-- The grammar has the production, and the dot stands in its body or right behind it. -/
def InRange (g : Grammar) (i : Item) : Prop :=
  ∃ r, g.productions[i.production]? = some r ∧ i.dot.toNat ≤ r.body.length

variable {g : Grammar} {i : Item} {X : Symbol} {p : ProductionId} {r : Production}

theorem inRange_start (h : g.productions[p]? = some r) : (start p).InRange g :=
  ⟨r, h, Nat.zero_le _⟩

/-- A dot with a symbol behind it does not stand at the end of the body. -/
theorem InRange.dot_lt (h : g.productions[i.production]? = some r) (hnext : i.next g = some X) :
    i.dot.toNat < r.body.length := by
  rw [next, Grammar.body_eq h] at hnext
  exact (List.getElem?_eq_some_iff.mp hnext).1

/-- There is always room for one dot more. -/
theorem InRange.advance? (hg : g.WellFormed) (h : i.InRange g) (hnext : i.next g = some X) :
    i.advance? = some i.advance ∧ i.advance.InRange g := by
  obtain ⟨r, hr, -⟩ := h
  have hlt := dot_lt hr hnext
  have hlength : r.body.length ≤ 65535 := hg.lengths r (List.mem_of_getElem? hr)
  have hsum : (i.dot + 1).toNat = (i.dot.toNat + 1) % 65536 := UInt16.toNat_add i.dot 1
  have hdot : i.advance.dot.toNat = i.dot.toNat + 1 := by
    rw [advance, hsum]
    exact Nat.mod_eq_of_lt (by omega)
  refine ⟨if_neg (by omega), r, hr, ?_⟩
  rw [hdot]
  exact hlt

end Item

namespace Lr0

/-- The listed places are in range. -/
theorem inRange_of_mem_items {g : Grammar} (hg : g.WellFormed) {i : Item} (h : i ∈ items g) :
    i.InRange g := by
  obtain ⟨p, hp, hi⟩ := List.mem_flatMap.mp h
  obtain ⟨k, hk, rfl⟩ := List.mem_map.mp hi
  obtain ⟨r, hr⟩ : ∃ r, g.productions[p]? = some r :=
    ⟨_, List.getElem?_eq_getElem (List.mem_range.mp hp)⟩
  have hle : k ≤ r.body.length := by
    rw [Grammar.body_eq hr, List.mem_range] at hk
    exact Nat.le_of_lt_succ hk
  refine ⟨_, hr, ?_⟩
  rw [hg.toNat_dot hr hle]
  exact hle

end Lr0

/-- The items are in range, and the lookaheads are numbers of terminals. -/
structure ItemSet.InRange (g : Grammar) (s : ItemSet) : Prop where
  items : ∀ i ∈ s.items, i.InRange g
  lookaheads : ∀ i t, t ∈ s.lookaheads i → t < g.terminals.length

namespace ItemSet

variable {g : Grammar} {s : ItemSet}

theorem InRange.kernel (hg : g.WellFormed) (h : s.InRange g) (X : Symbol) :
    (s.kernel g X).InRange g where
  items := by
    intro j hj
    obtain ⟨i, hi, hnext, rfl⟩ := mem_items_kernel.mp hj
    exact ((h.items i hi).advance? hg hnext).2
  lookaheads := by
    intro j t ht
    obtain ⟨i, ht, -⟩ := mem_lookaheads_kernel.mp ht
    exact h.lookaheads i t ht

end ItemSet

namespace Lr1

variable {g : Grammar} {first : FirstSets} {k s : ItemSet} {c d : Closure}

theorem inRange_initial (hg : g.WellFormed) : initial.InRange g where
  items := by
    intro i hi
    obtain ⟨e, he, rfl⟩ := ItemSet.mem_items_ofList.mp hi
    rw [List.mem_singleton.mp he]
    exact Item.inRange_start hg.accept
  lookaheads := by
    intro i t ht
    obtain ⟨e, he, -, ht⟩ := ItemSet.mem_lookaheads_ofList.mp ht
    rw [List.mem_singleton.mp he, TerminalSet.mem_singleton] at ht
    rw [ht]
    exact Nat.lt_of_lt_of_le Nat.two_pos hg.terminals

namespace Closure

theorem passedOn_lt (hg : g.WellFormed) (hfirst : FirstSets.Sound g first.table)
    (hs : s.InRange g) {i : Item} {t : TerminalId} (ht : t ∈ passedOn g first s i) :
    t < g.terminals.length := by
  have hbegins : ∀ u ∈ first.ofSequence (i.rest g), u < g.terminals.length := fun u hu =>
    SetTable.firstOf_lt hfirst.bounded hg.terminals
      (fun v hv => (i.isUserSymbol_rest hg _ hv : g.IsUserTerminal v).2) hu
  simp only [passedOn] at ht
  split at ht
  · rcases TerminalSet.mem_union.mp ht with ht | ht
    · exact hbegins t (TerminalSet.mem_erase.mp ht).2
    · exact hs.lookaheads i t ht
  · exact hbegins t ht

/-- A visit predicts items in range. -/
theorem visit_inRange (hg : g.WellFormed) (hfirst : FirstSets.Sound g first.table)
    (hconsistent : c.queue.Consistent) (hs : c.items.InRange g) (i : Item) :
    (c.visit g first i).items.InRange g := by
  have hgrows : Grows (passedOn g first c.items i) (predictions g i) c (c.visit g first i) :=
    visit_grows hconsistent i
  refine ⟨fun j hj => ?_, fun j t ht => ?_⟩
  · rcases hgrows.items j hj with hj | ⟨p, hp, rfl⟩
    · exact hs.items j hj
    · obtain ⟨r, -, hr⟩ := mem_predictions.mp hp
      exact Item.inRange_start hr
  · rcases hgrows.lookaheads j t ht with ht | ⟨ht, -⟩
    · exact hs.lookaheads j t ht
    · exact passedOn_lt hg hfirst hs ht

end Closure

end Lr1

end ParserForge

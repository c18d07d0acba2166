import Mathlib
import ParserForge.Proofs.Item.Enough
import ParserForge.Proofs.Item.Lr1

/-!
Where the LR(1) construction comes to its end.  Every item set that is found has successors, each of
which is a closure and may go on forever.  There are only so many sets, so the construction ends if
and only if all of these closures do, and then it has a collection.
-/

namespace ParserForge

namespace Lr1

variable {g : Grammar} {s : ItemSet} {X : Symbol}

/-- The closure of the first set ends with the second one. -/
def Closes (g : Grammar) (k s : ItemSet) : Prop :=
  ∃ n, (Closure.start k).run g (.ofGrammar g) n = some s

/-- The item sets that the construction comes to. -/
inductive Found (g : Grammar) : ItemSet → Prop
  | initial {s : ItemSet} (h : Closes g initial s) : Found g s
  | successor {s r : ItemSet} {X : Symbol} (hs : Found g s) (hX : X ∈ s.symbols g)
      (h : Closes g (s.kernel g X) r) : Found g r

/-- All closures of the construction end. -/
structure Terminates (g : Grammar) : Prop where
  initial : ∃ s, Closes g initial s
  successor : ∀ s, Found g s → ∀ X ∈ s.symbols g, ∃ r, Closes g (s.kernel g X) r

theorem Terminates.exists_of_mem_itemSetListing (hg : g.WellFormed) (h : Terminates g) :
    ∀ o ∈ (itemSetListing g (.ofGrammar g)).nodes, ∃ s, o = some s ∧ Found g s := by
  refine Listing.run_nodes_of_closed (P := fun o => ∃ s, o = some s ∧ Found g s) ?_ _ ?_
  · rintro _ ⟨s, rfl, hs⟩ e he
    obtain ⟨X, hX, rfl⟩ := List.mem_map.mp he
    obtain ⟨r, hr⟩ := h.successor s hs X hX
    exact ⟨r, (closure?_eq_some_iff hg).mpr hr, .successor hs hX hr⟩
  · intro o ho
    rw [Listing.start, List.mem_singleton] at ho
    obtain ⟨s, hs⟩ := h.initial
    exact ⟨s, ho.trans ((closure?_eq_some_iff hg).mpr hs), .initial hs⟩

/-- The search lists the successors of what it lists. -/
theorem mem_itemSetListing_of_successor (hg : g.WellFormed)
    (hs : some s ∈ (itemSetListing g (.ofGrammar g)).nodes) (hX : X ∈ s.symbols g) :
    closure? g (.ofGrammar g) (s.kernel g X) ∈ (itemSetListing g (.ofGrammar g)).nodes := by
  obtain ⟨q, hq⟩ := List.getElem?_of_mem hs
  have hlt : q < (itemSetListing g (.ofGrammar g)).rows.length := by
    rw [itemSetListing_complete hg]
    exact (List.getElem?_eq_some_iff.mp hq).1
  exact (itemSetListing_sound g _).targets q hlt _ hq _ (List.mem_map_of_mem hX)

theorem Found.mem_itemSetListing (hg : g.WellFormed) (h : Found g s) :
    some s ∈ (itemSetListing g (.ofGrammar g)).nodes := by
  have hsound := itemSetListing_sound g (.ofGrammar g)
  induction h with
  | initial h =>
      rw [← (closure?_eq_some_iff hg).mpr h]
      exact List.mem_of_getElem? hsound.head
  | @successor s r X _ hX h ih =>
      rw [← (closure?_eq_some_iff hg).mpr h]
      exact mem_itemSetListing_of_successor hg ih hX

/-- The construction has a collection if and only if it comes to its end. -/
theorem terminates_iff (hg : g.WellFormed) :
    Terminates g ↔ ∃ c, collection? g (.ofGrammar g) = some c := by
  constructor
  · intro h
    apply exists_collection?_of_nodes
    intro o ho
    obtain ⟨s, hs, _⟩ := h.exists_of_mem_itemSetListing hg o ho
    exact ⟨s, hs⟩
  · rintro ⟨c, hc⟩
    obtain ⟨sets, hnodes, _⟩ := states_collection? hg hc
    have hsome : ∀ o ∈ (itemSetListing g (.ofGrammar g)).nodes, ∃ s, o = some s := by
      intro o ho
      rw [hnodes] at ho
      obtain ⟨s, _, rfl⟩ := List.mem_map.mp ho
      exact ⟨s, rfl⟩
    refine ⟨?_, fun s hs X hX => ?_⟩
    · obtain ⟨s, hs⟩ := hsome _ (List.mem_of_getElem? (itemSetListing_sound g _).head)
      exact ⟨s, (closure?_eq_some_iff hg).mp hs⟩
    · obtain ⟨r, hr⟩ := hsome _ (mem_itemSetListing_of_successor hg (hs.mem_itemSetListing hg) hX)
      exact ⟨r, (closure?_eq_some_iff hg).mp hr⟩

end Lr1

end ParserForge

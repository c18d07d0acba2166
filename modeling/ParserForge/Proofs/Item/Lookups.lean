import Mathlib
import ParserForge.Proofs.Grammar.Lookups
import ParserForge.Proofs.Item.InRange
import ParserForge.Proofs.Item.Lr1

/-!
The LR(1) collection with everything looked up: the productions of items, the lookaheads of items
that wait, the sets of nonterminals, item sets by number and numbers of item sets, and the room for
one dot more.  However long it goes on, nothing is missing.
-/

namespace ParserForge

namespace Item

variable {g : Grammar} {i : Item}

/-- As `next`, with the production looked up. -/
def next? (g : Grammar) (i : Item) : Option (Option Symbol) :=
  g.productions[i.production]?.map fun r => r.body[i.dot.toNat]?

/-- As `rest`, with the production looked up. -/
def rest? (g : Grammar) (i : Item) : Option (List Symbol) :=
  g.productions[i.production]?.map fun r => r.body.drop (i.dot.toNat + 1)

theorem InRange.next?_eq (h : i.InRange g) : i.next? g = some (i.next g) := by
  obtain ⟨r, hr, -⟩ := h
  rw [next?, next, hr, Grammar.body_eq hr, Option.map_some]

theorem InRange.rest?_eq (h : i.InRange g) : i.rest? g = some (i.rest g) := by
  obtain ⟨r, hr, -⟩ := h
  rw [rest?, rest, hr, Grammar.body_eq hr, Option.map_some]

end Item

namespace ItemSet

variable {g : Grammar} {s : ItemSet}

/-- If there is a symbol behind the dot: the symbol, and the item with the dot moved over it. -/
def move? (g : Grammar) (e : LookaheadItem) : Option (Option (Symbol × LookaheadItem)) := do
  match ← e.core.next? g with
  | none => return none
  | some X => return some (X, ⟨← e.core.advance?, e.lookaheads⟩)

/-- The items with their dots moved, by the symbols that were behind the dots. -/
def kernels? (g : Grammar) (s : ItemSet) : Option (List (Symbol × ItemSet)) := do
  let moved ← s.entries.mapM (move? g)
  return (groupByKey moved.reduceOption).map fun group => (group.1, ofList group.2)

theorem move?_eq (hg : g.WellFormed) {e : LookaheadItem} (h : e.core.InRange g) : move? g e =
    some ((e.core.next g).map fun X => (X, ⟨e.core.advance, e.lookaheads⟩)) := by
  rw [move?, h.next?_eq, Option.bind_eq_bind, Option.bind_some]
  cases hnext : e.core.next g with
  | none => rfl
  | some X =>
      simp only [(h.advance? hg hnext).1]
      rfl

/-- The entries that a symbol moves on. -/
theorem filterMap_move (g : Grammar) (X : Symbol) (es : List LookaheadItem) :
    ((es.filterMap fun e => (e.core.next g).map fun Y =>
        (Y, (⟨e.core.advance, e.lookaheads⟩ : LookaheadItem))).filterMap fun p =>
      if p.1 = X then some p.2 else none) =
      (es.filter fun e => e.core.next g = some X).map fun e => ⟨e.core.advance, e.lookaheads⟩ := by
  induction es with
  | nil => rfl
  | cons e es ih =>
      cases hnext : e.core.next g with
      | none => simp [hnext, ih]
      | some Y => by_cases hY : Y = X <;> simp [hnext, hY, ih]

/-- The kernels are found in one pass over the items. -/
theorem kernels?_eq (hg : g.WellFormed) (h : s.InRange g) :
    s.kernels? g = some ((s.symbols g).map fun X => (X, s.kernel g X)) := by
  have hmoved := mapM_eq_some fun e (he : e ∈ s.entries) =>
    move?_eq hg (h.items e.core (List.mem_map_of_mem he))
  have hsymbols : (s.entries.filterMap fun e => (e.core.next g).map fun Y =>
      (Y, (⟨e.core.advance, e.lookaheads⟩ : LookaheadItem))).map Prod.fst =
        s.items.filterMap (Item.next g) := by
    simp [items, List.map_filterMap, List.filterMap_map, Function.comp_def]
  rw [kernels?, hmoved, Option.bind_eq_bind, Option.bind_some, groupByKey_eq, List.map_map,
    List.reduceOption, List.filterMap_map, Function.id_comp, hsymbols, ← symbols]
  refine congrArg some (List.map_congr_left fun X _ => ?_)
  exact congrArg (Prod.mk X) (congrArg ofList (filterMap_move g X s.entries))

end ItemSet

namespace Lr1

variable {g : Grammar} {k s : ItemSet} {c d : Closure}

namespace Closure

/-- As `visit`, with everything looked up. -/
def visit? (g : Grammar) (first : FirstSets) (c : Closure) (i : Item) : Option Closure := do
  match ← i.next? g with
  | some (.nonterminal n) =>
      let passed ← first.behind? (← i.rest? g) (c.items.get? i)
      return (g.productionsOf n).foldl (predict passed) c
  | _ => return c

/-- As `run`, with everything looked up. -/
def run? (g : Grammar) (first : FirstSets) : Nat → Closure → Option (Option ItemSet)
  | 0, _ => some none
  | n + 1, c =>
      match c.queue.pop? with
      | none => some (some c.items)
      | some (i, queue) =>
          match visit? g first ⟨c.items, queue⟩ i with
          | none => none
          | some c => run? g first n c

/-- What a visit looks up is there, since the item that is visited is one of the set. -/
theorem visit?_eq (hg : g.WellFormed) (hs : c.items.InRange g) {i : Item}
    (hi : i ∈ c.items.items) :
    visit? g (.ofGrammar g) c i = some (c.visit g (.ofGrammar g) i) := by
  have hrange := hs.items i hi
  obtain ⟨own, hown⟩ := ItemSet.mem_items.mp hi
  have hbelow : Grammar.NonterminalsBelow (FirstSets.ofGrammar g).table.sets.length (i.rest g) := by
    rw [(FirstSets.sound_ofGrammar hg).length_eq]
    exact fun n hn => (i.isUserSymbol_rest hg _ hn : g.IsUserNonterminal n).2
  have hlookaheads : c.items.lookaheads i = own := by
    rw [ItemSet.lookaheads, hown, Option.getD_some]
  have hpassed := FirstSets.behind?_eq hbelow own
  rw [visit?, hrange.next?_eq, Option.bind_eq_bind, Option.bind_some, visit]
  cases i.next g with
  | none => rfl
  | some X =>
      cases X with
      | terminal t => rfl
      | nonterminal n =>
          simp only [hrange.rest?_eq, hown, hpassed, passedOn, hlookaheads, Option.bind_eq_bind,
            Option.bind_some]
          rfl

/-- What the steps of a closure keep: it grows from a set, and its items are in range. -/
structure Steady (g : Grammar) (k : ItemSet) (c : Closure) : Prop where
  growing : c.Growing g (.ofGrammar g) k
  inRange : c.items.InRange g

theorem start_steady (hk : k.InRange g) : (start k).Steady g k where
  growing := start_growing g _ k
  inRange := hk

theorem step_steady (hg : g.WellFormed) (hc : c.Steady g k)
    (h : c.step g (.ofGrammar g) = some d) : d.Steady g k where
  growing := step_growing hc.growing h
  inRange := by
    obtain ⟨⟨i, rest⟩, hpop, rfl⟩ := Option.map_eq_some_iff.mp h
    have hrest := WorkQueue.pop?_consistent hc.growing.consistent hpop
    exact visit_inRange (c := ⟨c.items, rest⟩) hg (FirstSets.sound_ofGrammar hg) hrest hc.inRange i

/-- Nothing is missing in any number of steps. -/
theorem run?_eq (hg : g.WellFormed) (hc : c.Steady g k) (n : Nat) :
    run? g (.ofGrammar g) n c = some (run g (.ofGrammar g) n c) := by
  induction n generalizing c with
  | zero => rfl
  | succ n ih =>
      cases hpop : c.queue.pop? with
      | none => rw [run?, run, hpop, step, hpop, Option.map_none]
      | some p =>
          obtain ⟨i, queue⟩ := p
          -- what waits is in the set, so the lookaheads of the item are there
          have hi : i ∈ c.items.items := by
            refine hc.growing.waiting i ?_
            rw [WorkQueue.waiting_of_pop? hpop]
            exact List.mem_cons_self
          have hstep : c.step g (.ofGrammar g) =
              some (visit g (.ofGrammar g) ⟨c.items, queue⟩ i) := by
            rw [step, hpop, Option.map_some]
          have hvisit := visit?_eq (c := ⟨c.items, queue⟩) hg hc.inRange hi
          simp only [run?, run, hpop, hstep, hvisit]
          exact ih (step_steady hg hc hstep)

/-- The sets in which closures end are in range. -/
theorem run_inRange (hg : g.WellFormed) (hc : c.Steady g k) {n : Nat}
    (h : run g (.ofGrammar g) n c = some s) : s.InRange g := by
  obtain ⟨d, hd, -, rfl⟩ := run_induction (fun _ _ hc hd => step_steady hg hc hd) hc h
  exact hd.inRange

end Closure

/-- The closure after at most so many steps. -/
def closureWithin (g : Grammar) (steps : ItemSet → Nat) (k : ItemSet) : Option ItemSet :=
  (Closure.start k).run g (.ofGrammar g) (steps k)

/-- As `successors`, with closures that may take so many steps. -/
def successorsWithin (g : Grammar) (steps : ItemSet → Nat) :
    Option ItemSet → List (Symbol × Option ItemSet)
  | none => []
  | some s => (s.symbols g).map fun X => (X, closureWithin g steps (s.kernel g X))

/-- As `closure?`, with everything looked up. -/
def closure?? (g : Grammar) (first : FirstSets) (steps : ItemSet → Nat) (k : ItemSet) :
    Option (Option ItemSet) := (Closure.start k).run? g first (steps k)

/-- As `successors`, with everything looked up. -/
def successors? (g : Grammar) (first : FirstSets) (steps : ItemSet → Nat) :
    Option ItemSet → Option (List (Symbol × Option ItemSet))
  | none => some []
  | some s => do
      let kernels ← s.kernels? g
      kernels.mapM fun kernel => (closure?? g first steps kernel.2).map fun o => (kernel.1, o)

/-- As `itemSets`, with everything looked up. -/
def itemSets? (g : Grammar) (first : FirstSets) (steps : ItemSet → Nat) (turns : Nat) :
    Option (Discovery (Option ItemSet) Symbol) := do
  let start ← closure?? g first steps initial
  Discovery.run? (successors? g first steps) turns (.start start)

/-- As `collection?`, with everything looked up. -/
def build? (g : Grammar) (first : FirstSets) (steps : ItemSet → Nat) (turns : Nat) :
    Option (Option Collection) := do
  let found ← itemSets? g first steps turns
  return (found.nodes.toList.mapM id).map fun sets =>
    ⟨List.zipWith (fun s row => ⟨s.entries, row⟩) sets found.rows.toList⟩

/-- The set is in range, if there is one. -/
def OptionInRange (g : Grammar) (o : Option ItemSet) : Prop := ∀ s, o = some s → s.InRange g

variable {steps : ItemSet → Nat}

theorem closure??_eq (hg : g.WellFormed) (hk : k.InRange g) (steps : ItemSet → Nat) :
    closure?? g (.ofGrammar g) steps k = some (closureWithin g steps k) :=
  Closure.run?_eq hg (Closure.start_steady hk) (steps k)

theorem closureWithin_inRange (hg : g.WellFormed) (hk : k.InRange g) (steps : ItemSet → Nat) :
    OptionInRange g (closureWithin g steps k) := fun _ h =>
  Closure.run_inRange hg (Closure.start_steady hk) h

/-- Sets in range lead to sets in range, and nothing is missing on the way. -/
theorem successors?_eq (hg : g.WellFormed) (steps : ItemSet → Nat) {o : Option ItemSet}
    (ho : OptionInRange g o) :
    successors? g (.ofGrammar g) steps o = some (successorsWithin g steps o) ∧
      ∀ e ∈ successorsWithin g steps o, OptionInRange g e.2 := by
  cases o with
  | none => exact ⟨rfl, fun _ he => absurd he List.not_mem_nil⟩
  | some s =>
      have hs := ho s rfl
      constructor
      · have hclosures : ∀ kernel ∈ (s.symbols g).map fun X => (X, s.kernel g X),
            (closure?? g (.ofGrammar g) steps kernel.2).map (fun o => (kernel.1, o)) =
              some (kernel.1, closureWithin g steps kernel.2) := by
          intro kernel hkernel
          obtain ⟨X, -, rfl⟩ := List.mem_map.mp hkernel
          rw [closure??_eq hg (hs.kernel hg X), Option.map_some]
        rw [successors?, ItemSet.kernels?_eq hg hs, Option.bind_eq_bind, Option.bind_some,
          mapM_eq_some hclosures, List.map_map]
        rfl
      · intro e he
        obtain ⟨X, -, rfl⟩ := List.mem_map.mp he
        exact closureWithin_inRange hg (hs.kernel hg X) steps

theorem start_inRange (hg : g.WellFormed) (steps : ItemSet → Nat) :
    ∀ o ∈ (Discovery.start (closureWithin g steps initial) :
      Discovery (Option ItemSet) Symbol).listing.nodes, OptionInRange g o := by
  intro o ho
  rw [Discovery.listing_start, Listing.start, List.mem_singleton] at ho
  rw [ho]
  exact closureWithin_inRange hg (inRange_initial hg) steps

/-- Nothing is missing in any number of turns of any number of steps each. -/
theorem itemSets?_eq (hg : g.WellFormed) (steps : ItemSet → Nat) (turns : Nat) :
    itemSets? g (.ofGrammar g) steps turns =
      some ((Discovery.start (closureWithin g steps initial)).run (successorsWithin g steps)
        turns) := by
  rw [itemSets?, closure??_eq hg (inRange_initial hg), Option.bind_eq_bind, Option.bind_some]
  exact Discovery.run?_eq (fun o ho => successors?_eq hg steps ho) turns (start_inRange hg steps)

/-- All item sets that are found are in range. -/
theorem inRange_of_itemSets? (hg : g.WellFormed) {turns : Nat}
    {found : Discovery (Option ItemSet) Symbol}
    (h : itemSets? g (.ofGrammar g) steps turns = some found) :
    ∀ s, some s ∈ found.nodes → s.InRange g := by
  rw [itemSets?_eq hg] at h
  cases h
  intro s hs
  have hnodes := Listing.run_nodes_of_closed (fun o ho => (successors?_eq hg steps ho).2) turns
    (start_inRange hg steps)
  rw [← Discovery.listing_run] at hnodes
  exact hnodes _ (Array.mem_toList_iff.mpr hs) s rfl

/-- With as many steps and turns as the collection takes, it is the collection that is found. -/
theorem build?_eq (hg : g.WellFormed) : build? g (.ofGrammar g) (Closure.enough g)
    (Nat.pow 2 ((g.terminals.length + 1) * Item.count g.productions) + 1) =
      some (collection? g (.ofGrammar g)) := by
  have hsuccessors : successorsWithin g (Closure.enough g) = successors g (.ofGrammar g) := by
    funext o
    cases o <;> rfl
  rw [build?, itemSets?_eq hg, hsuccessors]
  rfl

end Lr1

end ParserForge

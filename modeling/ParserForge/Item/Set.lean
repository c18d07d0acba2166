import ParserForge.Item.Collection

/-!
Item sets with lookaheads.  A set lists its items in strictly ascending order, each with all of
its lookaheads, so two sets with the same contents are the same value.
-/

namespace ParserForge

/-- Items with their lookaheads, in strictly ascending order of the items. -/
structure ItemSet where
  entries : List LookaheadItem
  ascending : entries.Pairwise fun a b => a.core.rank < b.core.rank
deriving DecidableEq

namespace ItemSet

/-- Adds lookaheads to an item of an ascending list, and the item itself if it is missing. -/
def place (i : Item) (ts : TerminalSet) : List LookaheadItem → List LookaheadItem
  | [] => [⟨i, ts⟩]
  | e :: es =>
      if i.rank < e.core.rank then ⟨i, ts⟩ :: e :: es
      else if i = e.core then ⟨i, e.lookaheads ∪ ts⟩ :: es
      else e :: place i ts es

theorem core_of_mem_place {i : Item} {ts : TerminalSet} {es : List LookaheadItem}
    {e : LookaheadItem} (h : e ∈ place i ts es) : e.core = i ∨ e ∈ es := by
  induction es with
  | nil =>
      simp only [place, List.mem_singleton] at h
      exact .inl (h ▸ rfl)
  | cons d ds ih =>
      simp only [place] at h
      split at h
      · rcases List.mem_cons.mp h with rfl | h
        · exact .inl rfl
        · exact .inr h
      · split at h
        · rcases List.mem_cons.mp h with rfl | h
          · exact .inl rfl
          · exact .inr (List.mem_cons_of_mem d h)
        · rcases List.mem_cons.mp h with rfl | h
          · exact .inr List.mem_cons_self
          · exact (ih h).imp id (List.mem_cons_of_mem d)

theorem ascending_place {i : Item} {ts : TerminalSet} {es : List LookaheadItem}
    (h : es.Pairwise fun a b => a.core.rank < b.core.rank) :
    (place i ts es).Pairwise fun a b => a.core.rank < b.core.rank := by
  induction es with
  | nil => simp [place]
  | cons d ds ih =>
      have hd : ∀ e ∈ ds, d.core.rank < e.core.rank := fun e he =>
        List.rel_of_pairwise_cons h he
      have hds := List.Pairwise.of_cons h
      simp only [place]
      split
      · next hlt =>
          refine List.Pairwise.cons ?_ h
          intro e he
          rcases List.mem_cons.mp he with rfl | he
          · exact hlt
          · exact Nat.lt_trans hlt (hd e he)
      · split
        · next heq =>
            refine List.Pairwise.cons ?_ hds
            intro e he
            exact heq ▸ hd e he
        · next hlt hne =>
            refine List.Pairwise.cons ?_ (ih hds)
            intro e he
            rcases core_of_mem_place he with rfl | he
            · refine Nat.lt_of_le_of_ne (Nat.le_of_not_lt hlt) ?_
              exact fun hrank => hne (Item.rank_injective hrank.symm)
            · exact hd e he

instance : Hashable ItemSet := ⟨fun s => hash s.entries⟩

/-- No items. -/
def empty : ItemSet := ⟨[], .nil⟩

instance : EmptyCollection ItemSet := ⟨empty⟩

/-- Adds lookaheads to an item, and the item itself if it is missing. -/
def add (s : ItemSet) (i : Item) (ts : TerminalSet) : ItemSet :=
  ⟨place i ts s.entries, ascending_place s.ascending⟩

/-- The items of a list; the lookaheads of an item that occurs again are united. -/
def ofList (es : List LookaheadItem) : ItemSet :=
  es.foldl (fun s e => s.add e.core e.lookaheads) ∅

/-- The items, in order. -/
def items (s : ItemSet) : List Item := s.entries.map LookaheadItem.core

/-- The lookaheads of an item, if the set has it. -/
def get? (s : ItemSet) (i : Item) : Option TerminalSet :=
  (s.entries.find? fun e => e.core = i).map LookaheadItem.lookaheads

/-- The lookaheads of an item; none if the set does not have it. -/
def lookaheads (s : ItemSet) (i : Item) : TerminalSet := (s.get? i).getD ∅

/-- The symbols behind the dots, in the order in which they show up. -/
def symbols (g : Grammar) (s : ItemSet) : List Symbol :=
  (s.items.filterMap (Item.next g)).eraseDups

/-- The items that expect the symbol next, with the dot moved over it. -/
def kernel (g : Grammar) (s : ItemSet) (symbol : Symbol) : ItemSet :=
  ofList <| (s.entries.filter fun e => e.core.next g = some symbol).map fun e =>
    ⟨e.core.advance, e.lookaheads⟩

end ItemSet

end ParserForge

import Mathlib
import ParserForge.Proofs.Checked
import ParserForge.Proofs.Discovery
import ParserForge.Proofs.Item.Closure
import ParserForge.Proofs.Item.Lr0

/-!
The LR(1) collection is canonical, and its lookaheads are exact.  The search for item sets comes to
its end because every set lists some of the finitely many pairs of items and terminals.
-/

namespace ParserForge

namespace Lr1

open Grammar

variable {g : Grammar} {s : ItemSet} {γ : List Symbol}

/-- An item, or an item with a lookahead: the contents of a set, as pairs. -/
def contents (g : Grammar) (s : ItemSet) : Finset (Item × Nat) :=
  ((Lr0.items g).toFinset ×ˢ Finset.range (g.terminals.length + 1)).filter fun e =>
    e.1 ∈ s.items ∧ (e.2 = 0 ∨ e.2 - 1 ∈ s.lookaheads e.1)

theorem Represents.mem_allItems (hg : g.WellFormed) (h : Represents g γ s) {i : Item}
    (hi : i ∈ s.items) : i ∈ Lr0.items g := by
  obtain ⟨α, β, hviable, hdot⟩ := (h.mem_iff i).mp hi
  obtain ⟨r, hr, hbody⟩ := hviable.production hg
  have hget := Lr0.items_getElem? hr (k := α.length) (by simp [hbody])
  rw [hdot, UInt16.ofNat_toNat] at hget
  exact List.mem_of_getElem? hget

theorem Represents.mem_contents_zero (hg : g.WellFormed) (h : Represents g γ s) (i : Item) :
    (i, 0) ∈ contents g s ↔ i ∈ s.items := by
  simp only [contents, Finset.mem_filter, Finset.mem_product, List.mem_toFinset, Finset.mem_range]
  exact ⟨fun hi => hi.2.1,
    fun hi => ⟨⟨h.mem_allItems hg hi, Nat.succ_pos _⟩, hi, Or.inl trivial⟩⟩

theorem Represents.mem_contents_succ (hg : g.WellFormed) (h : Represents g γ s) (i : Item)
    (t : Nat) : (i, t + 1) ∈ contents g s ↔ t ∈ s.lookaheads i := by
  simp only [contents, Finset.mem_filter, Finset.mem_product, List.mem_toFinset, Finset.mem_range]
  refine ⟨fun ht => ht.2.2.resolve_left (Nat.succ_ne_zero t), fun ht => ?_⟩
  have hi := ItemSet.mem_items_of_mem_lookaheads ht
  obtain ⟨α, β, hviable, _⟩ := (h.lookaheads_iff i t).mp ht
  exact ⟨⟨h.mem_allItems hg hi, Nat.succ_lt_succ (hviable.lt_length hg)⟩, hi, Or.inr ht⟩

/-- What leads on from the set is expected by an item. -/
theorem Represents.viable_of_mem_symbols (hg : g.WellFormed) (h : Represents g γ s) {X : Symbol}
    (hX : X ∈ s.symbols g) : ∃ p α β, g.Viable γ p α (X :: β) := by
  obtain ⟨i, hi, hnext⟩ := ItemSet.mem_symbols.mp hX
  obtain ⟨α, β, hviable, _⟩ := ((h.mem_iff i).mp hi).exists_viable hg hnext
  exact ⟨i.production, α, β, hviable⟩

theorem Represents.eq_of_contents {r : ItemSet} {δ : List Symbol} (hg : g.WellFormed)
    (hs : Represents g γ s) (hr : Represents g δ r) (h : contents g s = contents g r) : s = r := by
  refine ItemSet.ext_of_mem (fun i => ?_) fun i t => ?_
  · rw [← hs.mem_contents_zero hg, ← hr.mem_contents_zero hg, h]
  · rw [← hs.mem_contents_succ hg, ← hr.mem_contents_succ hg, h]

/-- The set, if there is one, lists what is possible after some symbols. -/
def Reachable (g : Grammar) (o : Option ItemSet) : Prop := ∀ s ∈ o, ∃ γ, Represents g γ s

theorem length_le_of_reachable (hg : g.WellFormed) {sets : List (Option ItemSet)}
    (hnodup : sets.Nodup) (h : ∀ o ∈ sets, Reachable g o) :
    sets.length ≤ Nat.pow 2 ((g.terminals.length + 1) * Item.count g.productions) + 1 := by
  let pairs := (Lr0.items g).toFinset ×ˢ Finset.range (g.terminals.length + 1)
  have hinj : ∀ o ∈ sets, ∀ o' ∈ sets, o.map (contents g) = o'.map (contents g) → o = o' := by
    rintro (_ | s) ho (_ | s') ho' heq
    · rfl
    · cases heq
    · cases heq
    · obtain ⟨γ, hs⟩ := h _ ho s rfl
      obtain ⟨δ, hs'⟩ := h _ ho' s' rfl
      rw [hs.eq_of_contents hg hs' (Option.some.inj heq)]
  have hsub : (sets.map (Option.map (contents g))).toFinset ⊆ pairs.powerset.insertNone := by
    intro o ho
    obtain ⟨o', _, rfl⟩ := List.mem_map.mp (List.mem_toFinset.mp ho)
    rw [Finset.mem_insertNone]
    intro c hc
    obtain ⟨s, _, rfl⟩ := Option.mem_map.mp hc
    exact Finset.mem_powerset.mpr (Finset.filter_subset _ _)
  have hpairs : pairs.card ≤ (g.terminals.length + 1) * Item.count g.productions := by
    rw [Finset.card_product, Finset.card_range, Nat.mul_comm, ← Lr0.length_items]
    exact Nat.mul_le_mul_left _ (List.toFinset_card_le _)
  have hcard := Finset.card_le_card hsub
  rw [List.toFinset_card_of_nodup (hnodup.map_on hinj), List.length_map,
    Finset.card_insertNone, Finset.card_powerset] at hcard
  exact hcard.trans (Nat.succ_le_succ (Nat.pow_le_pow_right Nat.two_pos hpairs))

theorem reachable_initial (hg : g.WellFormed) :
    Reachable g (closure? g (.ofGrammar g) initial) := fun _ hs =>
  ⟨[], represents_closure? hg (kernel_initial g) hs⟩

theorem reachable_successors (hg : g.WellFormed) {o : Option ItemSet} (ho : Reachable g o) :
    ∀ e ∈ successors g (.ofGrammar g) o, Reachable g e.2 := by
  cases o with
  | none => exact fun _ he => absurd he List.not_mem_nil
  | some s =>
      intro e he r hr
      obtain ⟨X, _, rfl⟩ := List.mem_map.mp he
      obtain ⟨γ, hs⟩ := ho s rfl
      exact ⟨γ ++ [X], represents_closure? hg (hs.kernel hg X) hr⟩

/-- The item sets and the rows of the collection. -/
def itemSetListing (g : Grammar) (first : FirstSets) : Listing (Option ItemSet) Symbol :=
  (Listing.start (closure? g first initial)).run (successors g first)
    (Nat.pow 2 ((g.terminals.length + 1) * Item.count g.productions) + 1)

theorem listing_itemSets (g : Grammar) (first : FirstSets) :
    (itemSets g first).listing = itemSetListing g first := by
  rw [itemSets, Discovery.listing_run, Discovery.listing_start, itemSetListing]

theorem itemSetListing_sound (g : Grammar) (first : FirstSets) :
    (itemSetListing g first).Sound (successors g first) (closure? g first initial) :=
  Listing.run_sound _ (Listing.start_sound _ _)

/-- The search for item sets comes to its end. -/
theorem itemSetListing_complete (hg : g.WellFormed) :
    (itemSetListing g (.ofGrammar g)).rows.length =
      (itemSetListing g (.ofGrammar g)).nodes.length :=
  Listing.run_rows_length (P := Reachable g) (fun _ => reachable_successors hg)
    (reachable_initial hg) fun _ => length_le_of_reachable hg

/-- All item sets that are found list what is possible after some symbols. -/
theorem reachable_of_mem_itemSetListing (hg : g.WellFormed) :
    ∀ o ∈ (itemSetListing g (.ofGrammar g)).nodes, Reachable g o := by
  refine Listing.run_nodes_of_closed (fun _ => reachable_successors hg) _ ?_
  intro o ho
  rw [Listing.start, List.mem_singleton] at ho
  exact ho ▸ reachable_initial hg

/-- The collection in terms of the lists of its sets and rows. -/
theorem collection?_eq (g : Grammar) (first : FirstSets) : collection? g first =
    ((itemSetListing g first).nodes.mapM id).map fun sets =>
      ⟨List.zipWith (fun s row => ⟨s.entries, row⟩) sets (itemSetListing g first).rows⟩ := by
  rw [← listing_itemSets]
  rfl

/-- There is a collection if all item sets that are found have an answer. -/
theorem exists_collection?_of_nodes {first : FirstSets}
    (h : ∀ o ∈ (itemSetListing g first).nodes, ∃ s, o = some s) :
    ∃ c, collection? g first = some c := by
  have hsets : (itemSetListing g first).nodes.mapM id = some _ := mapM_eq_filterMap h
  rw [collection?_eq, hsets]
  exact ⟨_, rfl⟩

theorem mapM_id_eq_some {α : Type} {os : List (Option α)} {as : List α} (h : os.mapM id = some as) :
    os = as.map some := by
  induction os generalizing as with
  | nil =>
      cases h
      rfl
  | cons o os ih =>
      rw [List.mapM_cons] at h
      obtain ⟨a, ha, h⟩ := Option.bind_eq_some_iff.mp h
      obtain ⟨bs, hbs, h⟩ := Option.bind_eq_some_iff.mp h
      cases h
      rw [List.map_cons, ← ih hbs, ← ha]
      rfl

theorem lookup_successors (first : FirstSets) (X : Symbol) :
    (successors g first (some s)).lookup X =
      if X ∈ s.symbols g then some (closure? g first (s.kernel g X)) else none := by
  rw [successors]
  split
  · next h => exact List.lookup_graph (fun X => closure? g first (s.kernel g X)) h
  · next h =>
      rw [List.lookup_eq_none_iff]
      rintro ⟨Y, o⟩ he
      obtain ⟨Z, hZ, heq⟩ := List.mem_map.mp he
      cases heq
      rw [bne_iff_ne]
      rintro rfl
      exact h hZ

section Collection

variable {c : Collection} {q : StateId}

/-- The states of a collection are its item sets. -/
theorem states_collection? (hg : g.WellFormed) (h : collection? g (.ofGrammar g) = some c) :
    ∃ sets : List ItemSet, (itemSetListing g (.ofGrammar g)).nodes = sets.map some ∧
      ∀ q : StateId, c.states[q]? = (sets[q]?).map fun s => ⟨s.entries,
        Listing.row (itemSetListing g (.ofGrammar g)).nodes
          (successors g (.ofGrammar g) (some s))⟩ := by
  rw [collection?_eq, Option.map_eq_some_iff] at h
  obtain ⟨sets, hsets, rfl⟩ := h
  have hnodes := mapM_id_eq_some hsets
  refine ⟨sets, hnodes, fun q => ?_⟩
  rw [List.getElem?_zipWith]
  cases hq : sets[q]? with
  | none => rfl
  | some s =>
      have hget : (itemSetListing g (.ofGrammar g)).nodes[q]? = some (some s) := by
        rw [hnodes, List.getElem?_map, hq, Option.map_some]
      have hlt : q < (itemSetListing g (.ofGrammar g)).rows.length := by
        rw [itemSetListing_complete hg]
        exact (List.getElem?_eq_some_iff.mp hget).1
      rw [(itemSetListing_sound g _).rows_eq q hlt _ hget]
      rfl

/-- Every state is the set of what is possible after some symbols. -/
theorem represents_of_mem_states (hg : g.WellFormed) (h : collection? g (.ofGrammar g) = some c)
    {s : CollectionState} (hs : s ∈ c.states) : ∃ γ r, Represents g γ r ∧
      s = ⟨r.entries, Listing.row (itemSetListing g (.ofGrammar g)).nodes
        (successors g (.ofGrammar g) (some r))⟩ := by
  obtain ⟨sets, hnodes, hstates⟩ := states_collection? hg h
  obtain ⟨q, hq⟩ := List.getElem?_of_mem hs
  rw [hstates, Option.map_eq_some_iff] at hq
  obtain ⟨r, hr, rfl⟩ := hq
  have hmem : some r ∈ (itemSetListing g (.ofGrammar g)).nodes := by
    rw [hnodes]
    exact List.mem_map_of_mem (List.mem_of_getElem? hr)
  obtain ⟨γ, hγ⟩ := reachable_of_mem_itemSetListing hg _ hmem r rfl
  exact ⟨γ, r, hγ, rfl⟩

/-- The state that symbols lead to is the set of what is possible after them. -/
theorem represents_of_walk (hg : g.WellFormed) (h : collection? g (.ofGrammar g) = some c)
    (hwalk : c.walk γ = some q) : ∃ s, Represents g γ s ∧
      (itemSetListing g (.ofGrammar g)).nodes[q]? = some (some s) ∧
      c.states[q]? = some ⟨s.entries, Listing.row (itemSetListing g (.ofGrammar g)).nodes
        (successors g (.ofGrammar g) (some s))⟩ := by
  obtain ⟨sets, hnodes, hstates⟩ := states_collection? hg h
  have hsound := itemSetListing_sound g (.ofGrammar g)
  have hset : ∀ (q : StateId) (o : Option ItemSet),
      (itemSetListing g (.ofGrammar g)).nodes[q]? = some o →
        ∃ s, o = some s ∧ sets[q]? = some s := by
    intro q o hq
    rw [hnodes, List.getElem?_map, Option.map_eq_some_iff] at hq
    obtain ⟨s, hs, rfl⟩ := hq
    exact ⟨s, rfl, hs⟩
  induction γ using List.reverseRecOn generalizing q with
  | nil =>
      cases hwalk
      obtain ⟨s, hs, hget⟩ := hset 0 _ hsound.head
      refine ⟨s, represents_closure? hg (kernel_initial g) hs, hs ▸ hsound.head, ?_⟩
      rw [hstates, hget, Option.map_some]
  | append_singleton γ X ih =>
      rw [Collection.walk_concat, Option.bind_eq_some_iff] at hwalk
      obtain ⟨q', hq', hnext⟩ := hwalk
      obtain ⟨s, hs, hnode, hstate⟩ := ih hq'
      rw [Collection.next, hstate, Option.bind_some, Listing.lookup_row,
        Option.map_eq_some_iff] at hnext
      obtain ⟨o, ho, rfl⟩ := hnext
      have hlt : q' < (itemSetListing g (.ofGrammar g)).rows.length := by
        rw [itemSetListing_complete hg]
        exact (List.getElem?_eq_some_iff.mp hnode).1
      have hmem := hsound.targets q' hlt _ hnode _ (Listing.mem_of_lookup ho)
      have hplace := Listing.getElem?_place hmem
      obtain ⟨r, rfl, hget⟩ := hset _ o hplace
      rw [lookup_successors] at ho
      split at ho
      · refine ⟨r, represents_closure? hg (hs.kernel hg X) (Option.some.inj ho), hplace, ?_⟩
        rw [hstates, hget, Option.map_some]
      · cases ho

/-- The LR(1) collection is canonical. -/
theorem canonical_collection? (hg : g.WellFormed) (h : collection? g (.ofGrammar g) = some c) :
    c.Canonical g where
  state := fun γ q hwalk => by
    obtain ⟨s, _, _, hstate⟩ := represents_of_walk hg h hwalk
    exact ⟨_, hstate⟩
  mem_iff := by
    intro γ q s hwalk hs i
    obtain ⟨r, hr, _, hstate⟩ := represents_of_walk hg h hwalk
    cases hs.symm.trans hstate
    rw [← hr.mem_iff, ItemSet.items, List.mem_map]
  next := by
    intro γ q hwalk p α X β hviable
    obtain ⟨s, hs, _, hstate⟩ := represents_of_walk hg h hwalk
    obtain ⟨hdot, hpossible⟩ := hviable.possible hg
    have hX : X ∈ s.symbols g := ItemSet.mem_symbols.mpr
      ⟨⟨p, UInt16.ofNat α.length⟩, (hs.mem_iff _).mpr hpossible,
        Viable.next_item (i := ⟨p, UInt16.ofNat α.length⟩) hg hviable hdot.symm⟩
    rw [Collection.next, hstate, Option.bind_some, Listing.lookup_row, lookup_successors, if_pos hX]
    exact ⟨_, rfl⟩
  expected := by
    intro γ q hwalk X r hnext
    obtain ⟨s, hs, _, hstate⟩ := represents_of_walk hg h hwalk
    rw [Collection.next, hstate, Option.bind_some, Listing.lookup_row, lookup_successors,
      Option.map_eq_some_iff] at hnext
    obtain ⟨o, ho, _⟩ := hnext
    split at ho
    · next hX => exact hs.viable_of_mem_symbols hg hX
    · cases ho

/-- The lookaheads of the LR(1) collection are the terminals that can stand behind the items. -/
theorem exact_collection? (hg : g.WellFormed) (h : collection? g (.ofGrammar g) = some c) :
    c.Exact g := by
  intro γ q s hwalk hs e he t
  obtain ⟨r, hr, _, hstate⟩ := represents_of_walk hg h hwalk
  cases hs.symm.trans hstate
  rw [← hr.lookaheads_iff, ItemSet.lookaheads_of_mem he]

end Collection

end Lr1

end ParserForge

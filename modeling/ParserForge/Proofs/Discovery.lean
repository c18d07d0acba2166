import Mathlib
import ParserForge.Discovery

/-!
Breadth-first discovery on plain lists.  The search of `Discovery` keeps a hash table and arrays;
the same search on lists is easier to reason about and can be evaluated by the kernel.  The main
statement describes a finished search: its nodes are distinct, and the row of a node lists the
places of the nodes that its edges lead to.
-/

namespace ParserForge

variable {α ε : Type} [DecidableEq α]

/-- Adds a value behind the others, unless it is one of them. -/
def addNew (nodes : List α) (a : α) : List α := if a ∈ nodes then nodes else nodes ++ [a]

/-- Without the later ones of equal values, no two are equal. -/
theorem nodup_eraseDups (as : List α) : as.eraseDups.Nodup := by
  induction hn : as.length using Nat.strong_induction_on generalizing as with
  | h n ih =>
      cases as with
      | nil => exact List.nodup_nil
      | cons a as =>
          have hlt : (as.filter fun b => !b == a).length < n := by
            rw [← hn, List.length_cons]
            exact Nat.lt_succ_of_le (List.length_filter_le _ _)
          rw [List.eraseDups_cons, List.nodup_cons]
          exact ⟨by simp, ih _ hlt _ rfl⟩

/-- A value that is not known yet is the first of those that are not. -/
theorem eraseDups_removeAll_cons {a : α} {as known : List α} :
    ((a :: as).removeAll known).eraseDups =
      if a ∈ known then (as.removeAll known).eraseDups
      else a :: (as.removeAll (known ++ [a])).eraseDups := by
  have hrest : (as.removeAll known).filter (fun b => !b == a) = as.removeAll (known ++ [a]) := by
    simp only [List.removeAll, List.filter_filter]
    apply List.filter_congr
    intro b _
    simp [Bool.and_comm, beq_eq_decide]
  by_cases ha : a ∈ known
  · simp [List.removeAll, ha]
  · rw [if_neg ha, List.cons_removeAll]
    simp [ha, List.eraseDups_cons, hrest]

/-- The nodes found so far and the rows recorded so far, as lists. -/
structure Listing (α ε : Type) where
  nodes : List α
  rows : List (List (ε × Nat))
deriving DecidableEq

namespace Listing

/-- One node has been found. -/
def start (a : α) : Listing α ε := ⟨[a], []⟩

/-- The nodes after the targets of edges have been added. -/
def addTargets (nodes : List α) (edges : List (ε × α)) : List α :=
  edges.foldl (fun ns e => addNew ns e.2) nodes

/-- The place of a node in the order of discovery. -/
def place (nodes : List α) (a : α) : Nat := nodes.idxOf a

/-- The edges by the places of their targets. -/
def row (nodes : List α) (edges : List (ε × α)) : List (ε × Nat) :=
  edges.map fun e => (e.1, place nodes e.2)

/-- Records the edges of the next node, and the nodes they lead to. -/
def expand (next : α → List (ε × α)) (l : Listing α ε) : Listing α ε :=
  match l.nodes[l.rows.length]? with
  | none => l
  | some a =>
      let nodes := addTargets l.nodes (next a)
      ⟨nodes, l.rows ++ [row nodes (next a)]⟩

/-- Records the edges of at most `n` further nodes. -/
def run (next : α → List (ε × α)) : Nat → Listing α ε → Listing α ε
  | 0, l => l
  | n + 1, l => if l.nodes.length ≤ l.rows.length then l else run next n (l.expand next)

theorem mem_addTargets {nodes : List α} {edges : List (ε × α)} {a : α} :
    a ∈ addTargets nodes edges ↔ a ∈ nodes ∨ ∃ e ∈ edges, e.2 = a := by
  induction edges generalizing nodes with
  | nil => simp [addTargets]
  | cons e edges ih =>
      have hstep : addTargets nodes (e :: edges) = addTargets (addNew nodes e.2) edges := rfl
      have hmem : a ∈ addNew nodes e.2 ↔ a ∈ nodes ∨ e.2 = a := by
        unfold addNew
        split
        · next he =>
            constructor
            · exact Or.inl
            · rintro (h | rfl)
              · exact h
              · exact he
        · simp [eq_comm]
      rw [hstep, ih, hmem]
      simp [or_assoc]

theorem prefix_addTargets (nodes : List α) (edges : List (ε × α)) :
    nodes <+: addTargets nodes edges := by
  induction edges generalizing nodes with
  | nil => exact List.prefix_refl nodes
  | cons e edges ih =>
      refine List.IsPrefix.trans ?_ (ih (addNew nodes e.2))
      unfold addNew
      split
      · exact List.prefix_refl nodes
      · exact List.prefix_append nodes [e.2]

theorem nodup_addTargets {nodes : List α} (h : nodes.Nodup) (edges : List (ε × α)) :
    (addTargets nodes edges).Nodup := by
  induction edges generalizing nodes with
  | nil => exact h
  | cons e edges ih =>
      have hnew : (addNew nodes e.2).Nodup := by
        unfold addNew
        split
        · exact h
        · next he =>
            rw [List.nodup_append]
            refine ⟨h, by simp, ?_⟩
            rintro a ha b hb rfl
            exact he (List.mem_singleton.mp hb ▸ ha)
      exact ih hnew

theorem getElem?_place {nodes : List α} {a : α} (h : a ∈ nodes) :
    nodes[place nodes a]? = some a :=
  List.getElem?_eq_some_iff.mpr ⟨List.idxOf_lt_length_of_mem h, List.getElem_idxOf _⟩

/-- The place of a value does not change when further values are put behind. -/
theorem place_of_initial {ns ms : List α} (h : ns <+: ms) {a : α} (ha : a ∈ ns) :
    place ms a = place ns a := by
  obtain ⟨rest, rfl⟩ := h
  exact List.idxOf_append_of_mem ha

theorem row_of_initial {ns ms : List α} (h : ns <+: ms) {edges : List (ε × α)}
    (hedges : ∀ e ∈ edges, e.2 ∈ ns) : row ms edges = row ns edges := by
  refine List.map_congr_left fun e he => ?_
  rw [place_of_initial h (hedges e he)]

/-- What holds of a search at any time: the nodes are distinct, the first one is where the search
began, and the rows recorded so far are those of the first nodes. -/
structure Sound (next : α → List (ε × α)) (a : α) (l : Listing α ε) : Prop where
  head : l.nodes[0]? = some a
  nodup : l.nodes.Nodup
  rows_le : l.rows.length ≤ l.nodes.length
  targets : ∀ i < l.rows.length, ∀ b, l.nodes[i]? = some b → ∀ e ∈ next b, e.2 ∈ l.nodes
  rows_eq : ∀ i < l.rows.length, ∀ b, l.nodes[i]? = some b →
    l.rows[i]? = some (row l.nodes (next b))

theorem start_sound (next : α → List (ε × α)) (a : α) : (start a).Sound next a where
  head := rfl
  nodup := by simp [start]
  rows_le := by simp [start]
  targets := by simp [start]
  rows_eq := by simp [start]

theorem expand_sound {next : α → List (ε × α)} {a : α} {l : Listing α ε}
    (h : l.Sound next a) : (l.expand next).Sound next a := by
  unfold expand
  split
  · exact h
  · next b hb =>
      have hlt : l.rows.length < l.nodes.length := (List.getElem?_eq_some_iff.mp hb).1
      have hinitial := prefix_addTargets l.nodes (next b)
      have hget : ∀ i < l.nodes.length, ∀ c,
          (addTargets l.nodes (next b))[i]? = some c → l.nodes[i]? = some c := by
        intro i hi c hc
        rwa [List.prefix_iff_getElem?.mp hinitial i hi, ← List.getElem?_eq_getElem hi] at hc
      have htargets : ∀ e ∈ next b, e.2 ∈ addTargets l.nodes (next b) := fun e he =>
        mem_addTargets.mpr (Or.inr ⟨e, he, rfl⟩)
      refine ⟨?_, nodup_addTargets h.nodup _, ?_, ?_, ?_⟩
      · have h0 : 0 < l.nodes.length := Nat.zero_lt_of_lt hlt
        rw [List.prefix_iff_getElem?.mp hinitial 0 h0, ← List.getElem?_eq_getElem h0, h.head]
      · simp only [List.length_append, List.length_singleton]
        exact Nat.le_trans hlt hinitial.length_le
      · intro i hi c hc e he
        simp only [List.length_append, List.length_singleton] at hi
        have hc' := hget i (by omega) c hc
        rcases Nat.lt_succ_iff_lt_or_eq.mp hi with hi | rfl
        · exact hinitial.subset (h.targets i hi c hc' e he)
        · exact htargets e (Option.some.inj (hb.symm.trans hc') ▸ he)
      · intro i hi c hc
        simp only [List.length_append, List.length_singleton] at hi
        have hc' := hget i (by omega) c hc
        rcases Nat.lt_succ_iff_lt_or_eq.mp hi with hi | rfl
        · rw [List.getElem?_append_left hi, h.rows_eq i hi c hc',
            row_of_initial hinitial (h.targets i hi c hc')]
        · rw [List.getElem?_concat_length, Option.some.inj (hb.symm.trans hc')]

theorem run_sound {next : α → List (ε × α)} {a : α} (n : Nat) {l : Listing α ε}
    (h : l.Sound next a) : (l.run next n).Sound next a := by
  induction n generalizing l with
  | zero => exact h
  | succ n ih =>
      rw [run]
      split
      · exact h
      · exact ih (expand_sound h)

theorem expand_nodes_of_closed {next : α → List (ε × α)} {P : α → Prop}
    (hclosed : ∀ b, P b → ∀ e ∈ next b, P e.2) {l : Listing α ε} (h : ∀ b ∈ l.nodes, P b) :
    ∀ b ∈ (l.expand next).nodes, P b := by
  unfold expand
  split
  · exact h
  · next c hc =>
      intro b hb
      rcases mem_addTargets.mp hb with hb | ⟨e, he, rfl⟩
      · exact h b hb
      · exact hclosed c (h c (List.mem_of_getElem? hc)) e he

/-- A property of the first node that edges hand on holds of all nodes. -/
theorem run_nodes_of_closed {next : α → List (ε × α)} {P : α → Prop}
    (hclosed : ∀ b, P b → ∀ e ∈ next b, P e.2) (n : Nat) {l : Listing α ε}
    (h : ∀ b ∈ l.nodes, P b) : ∀ b ∈ (l.run next n).nodes, P b := by
  induction n generalizing l with
  | zero => exact h
  | succ n ih =>
      rw [run]
      split
      · exact h
      · exact ih (expand_nodes_of_closed hclosed h)

/-- Unless it is finished, a search has recorded a row in every round. -/
theorem run_complete_or_rows_length (next : α → List (ε × α)) (n : Nat) (l : Listing α ε) :
    (l.run next n).nodes.length ≤ (l.run next n).rows.length ∨
      (l.run next n).rows.length = l.rows.length + n := by
  induction n generalizing l with
  | zero => exact Or.inr rfl
  | succ n ih =>
      rw [run]
      split
      · next h => exact Or.inl h
      · next h =>
          have hrows : (l.expand next).rows.length = l.rows.length + 1 := by
            rw [expand, List.getElem?_eq_getElem (Nat.lt_of_not_le h)]
            simp
          have := ih (l.expand next)
          omega

/-- A search with as many rounds as there can be nodes comes to its end. -/
theorem run_rows_length {next : α → List (ε × α)} {P : α → Prop}
    (hclosed : ∀ b, P b → ∀ e ∈ next b, P e.2) {a : α} (ha : P a) {n : Nat}
    (hbound : ∀ bs : List α, bs.Nodup → (∀ b ∈ bs, P b) → bs.length ≤ n) :
    ((start a).run next n).rows.length = ((start a).run next n).nodes.length := by
  have hsound := run_sound n (start_sound next a)
  have hall : ∀ b ∈ ((start a).run next n).nodes, P b :=
    run_nodes_of_closed hclosed n (by simpa [start] using ha)
  have hnodes := hbound _ hsound.nodup hall
  have hrows := run_complete_or_rows_length next n (start a)
  have hle := hsound.rows_le
  simp only [start, List.length_nil, Nat.zero_add] at hrows hnodes hle ⊢
  omega

theorem place_of_getElem? {nodes : List α} (h : nodes.Nodup) {q : Nat} {b : α}
    (hb : nodes[q]? = some b) : place nodes b = q := by
  obtain ⟨hq, rfl⟩ := List.getElem?_eq_some_iff.mp hb
  exact h.idxOf_getElem q hq

/-- Every place of a finished search has what the first one has and what every row hands on to the
places in it. -/
theorem run_places {next : α → List (ε × α)} {a : α} {n : Nat} {P : Nat → Prop}
    (hdone : ((start a).run next n).rows.length = ((start a).run next n).nodes.length)
    (hstart : P 0)
    (hedge : ∀ q b, ((start a).run next n).nodes[q]? = some b → P q →
      ∀ e ∈ next b, P (place ((start a).run next n).nodes e.2)) :
    ∀ q < ((start a).run next n).nodes.length, P q := by
  have hsound := run_sound n (start_sound next a)
  generalize hl : (start a).run next n = l at hdone hedge hsound
  have hclosed : ∀ b, b ∈ l.nodes ∧ P (place l.nodes b) →
      ∀ e ∈ next b, e.2 ∈ l.nodes ∧ P (place l.nodes e.2) := by
    rintro b ⟨hb, hplace⟩ e he
    have hget := getElem?_place hb
    have hlt : place l.nodes b < l.rows.length := by
      rw [hdone]
      exact (List.getElem?_eq_some_iff.mp hget).1
    exact ⟨hsound.targets _ hlt b hget e he, hedge _ b hget hplace e he⟩
  have hall : ∀ b ∈ ((start a).run next n).nodes, b ∈ l.nodes ∧ P (place l.nodes b) := by
    refine run_nodes_of_closed hclosed n ?_
    intro b hb
    obtain rfl := List.mem_singleton.mp hb
    refine ⟨List.mem_of_getElem? hsound.head, ?_⟩
    rwa [place_of_getElem? hsound.nodup hsound.head]
  rw [hl] at hall
  intro q hq
  have hget := List.getElem?_eq_getElem hq
  have hplace := (hall _ (List.getElem_mem hq)).2
  rwa [place_of_getElem? hsound.nodup hget] at hplace

omit [DecidableEq α] in
theorem mem_of_lookup [DecidableEq ε] {edges : List (ε × α)} {x : ε} {a : α}
    (h : edges.lookup x = some a) : (x, a) ∈ edges := by
  obtain ⟨before, after, rfl, _⟩ := List.lookup_eq_some_iff.mp h
  simp

/-- Looking up a label in a row finds the place of the node that the edge leads to. -/
theorem lookup_row [DecidableEq ε] (nodes : List α) (edges : List (ε × α)) (x : ε) :
    (row nodes edges).lookup x = (edges.lookup x).map (place nodes) := by
  induction edges with
  | nil => rfl
  | cons e edges ih =>
      have hrow : row nodes (e :: edges) = (e.1, place nodes e.2) :: row nodes edges := rfl
      rw [hrow, List.lookup_cons, List.lookup_cons, ih]
      cases x == e.1 <;> rfl

end Listing

namespace Discovery

variable [Hashable α]

/-- The search as lists. -/
def listing (d : Discovery α ε) : Listing α ε := ⟨d.nodes.toList, d.rows.toList⟩

theorem toList_values_add (n : Numbering α) (a : α) :
    (n.add a).values.toList = addNew n.values.toList a := by
  rw [Numbering.values_add, addNew]
  by_cases h : a ∈ n.values
  · simp [h]
  · simp [h]

theorem toList_values_foldl (edges : List (ε × α)) (n : Numbering α) :
    (edges.foldl (fun found e => found.add e.2) n).values.toList =
      Listing.addTargets n.values.toList edges := by
  induction edges generalizing n with
  | nil => rfl
  | cons e edges ih =>
      have := ih (n.add e.2)
      rw [toList_values_add] at this
      exact this

theorem number?_of_mem {n : Numbering α} {a : α} (h : a ∈ n.values.toList) :
    n.number? a = some (Listing.place n.values.toList a) := by
  rw [n.number?_eq_some_iff, ← Array.getElem?_toList]
  exact Listing.getElem?_place h

theorem numbered_eq (found : Numbering α) (edges : List (ε × α))
    (h : ∀ e ∈ edges, e.2 ∈ found.values.toList) :
    numbered found edges = Listing.row found.values.toList edges := by
  refine List.map_congr_left fun e he => ?_
  rw [number?_of_mem (h e he)]
  rfl

theorem listing_start (a : α) : (start a : Discovery α ε).listing = Listing.start a := by
  have := toList_values_add (Numbering.empty : Numbering α) a
  simp only [listing, start, nodes, this, Listing.start]
  simp [Numbering.empty, addNew]

theorem listing_expand (next : α → List (ε × α)) (d : Discovery α ε) :
    (d.expand next).listing = d.listing.expand next := by
  have hget : d.listing.nodes[d.listing.rows.length]? = d.nodes[d.rows.size]? := by
    simp [listing]
  unfold expand Listing.expand
  rw [hget]
  cases d.nodes[d.rows.size]? with
  | none => rfl
  | some a =>
      have hnodes := toList_values_foldl (next a) d.found
      have hrow := numbered_eq ((next a).foldl (fun found e => found.add e.2) d.found) (next a) (by
        rw [hnodes]
        exact fun e he => Listing.mem_addTargets.mpr (Or.inr ⟨e, he, rfl⟩))
      rw [hnodes] at hrow
      simp [listing, nodes, hnodes, hrow]

/-- The search with hash table and arrays is the search on lists. -/
theorem listing_run (next : α → List (ε × α)) (n : Nat) (d : Discovery α ε) :
    (d.run next n).listing = d.listing.run next n := by
  induction n generalizing d with
  | zero => rfl
  | succ n ih =>
      have hcomplete : d.isComplete = decide (d.listing.nodes.length ≤ d.listing.rows.length) := by
        rfl
      rw [run, Listing.run, hcomplete]
      by_cases h : d.listing.nodes.length ≤ d.listing.rows.length
      · simp [h]
      · simp only [h, decide_false, Bool.false_eq_true, if_false]
        rw [ih, listing_expand]

end Discovery

end ParserForge

import Mathlib
import ParserForge.Grammar.First

/-!
Membership in sets of terminals and in tables of such sets.  A table is at most another one if
each of its sets is a subset of the other table's set.
-/

namespace ParserForge

namespace TerminalSet

variable {s r : TerminalSet} {t u : TerminalId}

@[ext] theorem ext (h : ∀ t, t ∈ s ↔ t ∈ r) : s = r := by
  have hmembers := s.ascending.eq_of_mem_iff r.ascending h
  cases s
  cases r
  simp only at hmembers
  subst hmembers
  rfl

@[simp] theorem not_mem_empty : t ∉ (∅ : TerminalSet) := List.not_mem_nil

@[simp] theorem mem_insert : t ∈ s.insert u ↔ t = u ∨ t ∈ s := mem_place

@[simp] theorem mem_singleton : t ∈ singleton u ↔ t = u := by
  rw [singleton, mem_insert]
  simp

@[simp] theorem mem_union : t ∈ s ∪ r ↔ t ∈ s ∨ t ∈ r := by
  have hfoldl : ∀ (us : List TerminalId) (s : TerminalSet),
      t ∈ us.foldl insert s ↔ t ∈ s ∨ t ∈ us := by
    intro us
    induction us with
    | nil => simp
    | cons u us ih =>
        intro s
        rw [List.foldl_cons, ih, mem_insert, List.mem_cons, or_assoc, or_left_comm]
  exact hfoldl r.members s

@[simp] theorem mem_erase : t ∈ s.erase u ↔ t ≠ u ∧ t ∈ s := by
  have hnodup : s.members.Nodup := s.ascending.imp fun hlt => Nat.ne_of_lt hlt
  exact hnodup.mem_erase_iff

theorem subset_iff : s.subset r = true ↔ ∀ t, t ∈ s → t ∈ r := by
  simp only [subset, List.all_eq_true, contains, decide_eq_true_eq]
  exact Iff.rfl

theorem isEmpty_iff : s.isEmpty = true ↔ ∀ t, t ∉ s := by
  rw [isEmpty, List.isEmpty_iff, List.eq_nil_iff_forall_not_mem]
  exact Iff.rfl

end TerminalSet

namespace SetTable

variable {s r q : SetTable} {n m : NonterminalId} {t : TerminalId}

theorem mem_get_add {ts : TerminalSet} :
    t ∈ (s.add n ts).get m ↔ t ∈ s.get m ∨ m = n ∧ n < s.sets.length ∧ t ∈ ts := by
  simp only [get, add, List.getElem?_modify]
  by_cases hm : m < s.sets.length
  · rw [List.getElem?_eq_getElem hm]
    by_cases hmn : n = m
    · subst hmn
      simp [hm]
    · simp [hmn, Ne.symm hmn]
  · rw [List.getElem?_eq_none (Nat.le_of_not_lt hm)]
    simp only [Option.map_eq_map, Option.map_none, Option.getD_none,
      TerminalSet.not_mem_empty, false_or, false_iff, not_and]
    rintro rfl hlt
    exact absurd hlt hm

@[simp] theorem length_add {ts : TerminalSet} : (s.add n ts).sets.length = s.sets.length := by
  simp [add]

theorem lt_length_of_mem_get (h : t ∈ s.get n) : n < s.sets.length := by
  by_contra hn
  rw [get, List.getElem?_eq_none (Nat.le_of_not_lt hn)] at h
  exact TerminalSet.not_mem_empty h

@[simp] theorem length_empty {k : Nat} : (empty k).sets.length = k := List.length_replicate

@[simp] theorem not_mem_get_empty {k : Nat} : t ∉ (empty k).get n := by
  intro h
  have hn := lt_length_of_mem_get h
  simp only [empty, List.length_replicate] at hn
  simp [get, empty, hn] at h

/-- Each set is a subset of the other table's set. -/
structure Le (s r : SetTable) : Prop where
  length_eq : s.sets.length = r.sets.length
  mem : ∀ n t, t ∈ s.get n → t ∈ r.get n

theorem Le.refl (s : SetTable) : s.Le s := ⟨rfl, fun _ _ h => h⟩

theorem Le.trans (h : s.Le r) (h' : r.Le q) : s.Le q :=
  ⟨h.length_eq.trans h'.length_eq, fun n t ht => h'.mem n t (h.mem n t ht)⟩

theorem Le.antisymm (h : s.Le r) (h' : r.Le s) : s = r := by
  have hsets : s.sets = r.sets := by
    refine List.ext_getElem h.length_eq fun n hs hr => ?_
    apply TerminalSet.ext
    intro t
    have hiff : t ∈ s.get n ↔ t ∈ r.get n := ⟨h.mem n t, h'.mem n t⟩
    simpa [get, hs, hr] using hiff
  cases s
  cases r
  exact congrArg SetTable.mk hsets

theorem le_add (s : SetTable) (n : NonterminalId) (ts : TerminalSet) : s.Le (s.add n ts) :=
  ⟨length_add.symm, fun _ _ h => mem_get_add.mpr (Or.inl h)⟩

theorem le_foldl {ι : Type} {step : SetTable → ι → SetTable}
    (hstep : ∀ (s : SetTable) i, s.Le (step s i)) (l : List ι) (s : SetTable) :
    s.Le (l.foldl step s) := by
  induction l generalizing s with
  | nil => exact .refl s
  | cons i l ih => exact (hstep s i).trans (ih (step s i))

/-- If steps that only add lead back to where they began, none of them adds anything. -/
theorem step_eq_of_foldl_eq {ι : Type} {step : SetTable → ι → SetTable}
    (hstep : ∀ (s : SetTable) i, s.Le (step s i)) {l : List ι} {s : SetTable}
    (h : l.foldl step s = s) :
    ∀ i ∈ l, step s i = s := by
  induction l with
  | nil => simp
  | cons i l ih =>
      have hfirst : step s i = s := by
        refine Le.antisymm ?_ (hstep s i)
        have hle := le_foldl hstep l (step s i)
        rw [List.foldl_cons] at h
        rwa [h] at hle
      rw [List.foldl_cons, hfirst] at h
      intro j hj
      rcases List.mem_cons.mp hj with rfl | hj
      · exact hfirst
      · exact ih h j hj

/-- The members of the sets that are smaller than `bound`, with the place of their set. -/
def pairs (bound : Nat) (s : SetTable) : Finset (Nat × Nat) :=
  (Finset.range s.sets.length ×ˢ Finset.range bound).filter fun p => p.2 ∈ s.get p.1

theorem card_pairs_le (bound : Nat) (s : SetTable) :
    (s.pairs bound).card ≤ s.sets.length * bound := by
  refine (Finset.card_filter_le _ _).trans ?_
  rw [Finset.card_product, Finset.card_range, Finset.card_range]

/-- A table that grows without reaching the bound gains a member. -/
theorem card_pairs_lt {bound : Nat} (h : s.Le r) (hne : r ≠ s)
    (hbound : ∀ n t, t ∈ r.get n → t < bound) : (s.pairs bound).card < (r.pairs bound).card := by
  have hnot : ¬ r.Le s := fun hle => hne (hle.antisymm h)
  have hex : ∃ n t, t ∈ r.get n ∧ t ∉ s.get n := by
    by_contra hall
    simp only [not_exists, not_and, not_not] at hall
    exact hnot ⟨h.length_eq.symm, hall⟩
  obtain ⟨n, t, hr, hs⟩ := hex
  refine Finset.card_lt_card (Finset.ssubset_iff_subset_ne.mpr ⟨?_, ?_⟩)
  · intro p hp
    simp only [pairs, Finset.mem_filter, Finset.mem_product, Finset.mem_range] at hp ⊢
    exact ⟨⟨h.length_eq ▸ hp.1.1, hp.1.2⟩, h.mem _ _ hp.2⟩
  · intro heq
    have hmem : (n, t) ∈ r.pairs bound := by
      simp only [pairs, Finset.mem_filter, Finset.mem_product, Finset.mem_range]
      exact ⟨⟨lt_length_of_mem_get hr, hbound n t hr⟩, hr⟩
    rw [← heq] at hmem
    exact hs (Finset.mem_filter.mp hmem).2

end SetTable

/-- A function is repeated until it changes nothing, and that leads from the first value to the
second. -/
inductive RestsAt {α : Type} (f : α → α) : α → α → Prop where
  | rest {a : α} : f a = a → RestsAt f a a
  | again {a b : α} : f a ≠ a → RestsAt f (f a) b → RestsAt f a b

/-- If the rounds are enough to come to rest, the repetition ends with what they lead to. -/
theorem restsAt_stabilize {α : Type} [DecidableEq α] {f : α → α} {n : Nat} {a : α}
    (h : f (stabilize f n a) = stabilize f n a) : RestsAt f a (stabilize f n a) := by
  induction n generalizing a with
  | zero => exact .rest h
  | succ n ih =>
      rw [stabilize] at h ⊢
      split at h
      · next hsame =>
          rw [if_pos hsame]
          exact .rest h
      · next hchanged =>
          rw [if_neg hchanged]
          exact .again hchanged (ih h)

/-- A repeated function that adds to a measure whenever it changes something comes to rest, if
the measure stays below the number of rounds. -/
theorem stabilize_eq {α : Type} [DecidableEq α] {f : α → α} {P : α → Prop} (size : α → Nat)
    (bound : Nat) (hkeep : ∀ a, P a → P (f a)) (hgrow : ∀ a, P a → f a ≠ a → size a < size (f a))
    (hbound : ∀ a, P a → size a ≤ bound) (n : Nat) {a : α} (ha : P a) (hn : bound < size a + n) :
    f (stabilize f n a) = stabilize f n a := by
  induction n generalizing a with
  | zero =>
      have := hbound a ha
      omega
  | succ n ih =>
      rw [stabilize]
      split
      · next h => exact h
      · next h =>
          have := hgrow a ha h
          exact ih (hkeep a ha) (by omega)

theorem stabilize_induction {α : Type} [DecidableEq α] {f : α → α} {P : α → Prop}
    (hkeep : ∀ a, P a → P (f a)) (n : Nat) {a : α} (ha : P a) : P (stabilize f n a) := by
  induction n generalizing a with
  | zero => exact ha
  | succ n ih =>
      rw [stabilize]
      split
      · exact ha
      · exact ih (hkeep a ha)

end ParserForge

import Mathlib
import ParserForge.Item.Set
import ParserForge.Proofs.Grammar.TerminalSet

/-!
What item sets contain.  A set is known by its items and by the lookaheads of each of them.
-/

namespace ParserForge

namespace ItemSet

variable {s r : ItemSet} {i j : Item} {t : TerminalId} {ts : TerminalSet}

/-- In an ascending list, an item is found if and only if it is there. -/
theorem find?_eq_some_iff {es : List LookaheadItem} {e : LookaheadItem}
    (h : es.Pairwise fun a b => a.core.rank < b.core.rank) :
    (es.find? fun d => d.core = e.core) = some e ↔ e ∈ es := by
  induction es with
  | nil => simp
  | cons d ds ih =>
      have hd : ∀ c ∈ ds, d.core.rank < c.core.rank := fun c hc => List.rel_of_pairwise_cons h hc
      by_cases hcore : d.core = e.core
      · have hnot : e ∉ ds := fun he => Nat.lt_irrefl _ (hcore ▸ hd e he)
        simp [hcore, hnot, eq_comm]
      · have hne : e ≠ d := fun he => hcore (he ▸ rfl)
        simp [hcore, hne, ih (List.Pairwise.of_cons h)]

theorem get?_eq_some_iff : s.get? i = some ts ↔ ⟨i, ts⟩ ∈ s.entries := by
  rw [← find?_eq_some_iff s.ascending, get?, Option.map_eq_some_iff]
  constructor
  · rintro ⟨e, he, rfl⟩
    have hcore := List.find?_some he
    simp only [decide_eq_true_eq] at hcore
    rw [he, ← hcore]
  · exact fun h => ⟨_, h, rfl⟩

theorem mem_items : i ∈ s.items ↔ ∃ ts, s.get? i = some ts := by
  simp only [items, List.mem_map, get?_eq_some_iff]
  constructor
  · rintro ⟨e, he, rfl⟩
    exact ⟨_, he⟩
  · rintro ⟨ts, h⟩
    exact ⟨_, h, rfl⟩

theorem lookaheads_of_mem {e : LookaheadItem} (h : e ∈ s.entries) :
    s.lookaheads e.core = e.lookaheads := by
  rw [lookaheads, get?_eq_some_iff.mpr h, Option.getD_some]

theorem mem_items_of_mem_lookaheads (h : t ∈ s.lookaheads i) : i ∈ s.items := by
  rw [lookaheads] at h
  cases hget : s.get? i with
  | none => simp [hget] at h
  | some ts => exact mem_items.mpr ⟨ts, hget⟩

/-- Sets with the same items and lookaheads are equal. -/
theorem ext_of_mem (hitems : ∀ i, i ∈ s.items ↔ i ∈ r.items)
    (hlookaheads : ∀ i t, t ∈ s.lookaheads i ↔ t ∈ r.lookaheads i) : s = r := by
  have hsets : ∀ i, s.lookaheads i = r.lookaheads i := fun i =>
    TerminalSet.ext (hlookaheads i)
  have hsub : ∀ {s r : ItemSet}, (∀ i, i ∈ s.items → i ∈ r.items) →
      (∀ i, s.lookaheads i = r.lookaheads i) → ∀ e ∈ s.entries, e ∈ r.entries := by
    intro s r hitems hsets e he
    obtain ⟨ts, hts⟩ := mem_items.mp (hitems e.core (List.mem_map.mpr ⟨e, he, rfl⟩))
    have hmem := get?_eq_some_iff.mp hts
    have hts : ts = e.lookaheads := by
      rw [← lookaheads_of_mem he, hsets, lookaheads_of_mem hmem]
    rwa [hts] at hmem
  have hentries : s.entries = r.entries := by
    have hnodup : ∀ s : ItemSet, s.entries.Nodup := fun s =>
      s.ascending.imp fun {a b} (h : a.core.rank < b.core.rank) (heq : a = b) =>
        Nat.lt_irrefl _ (heq ▸ h)
    refine List.Perm.eq_of_pairwise (fun a b _ _ hab hba => ?_) s.ascending r.ascending ?_
    · exact absurd (Nat.lt_trans hab hba) (Nat.lt_irrefl _)
    · refine (List.perm_ext_iff_of_nodup (hnodup s) (hnodup r)).mpr fun e => ?_
      exact ⟨hsub (fun i => (hitems i).mp) hsets e,
        hsub (fun i => (hitems i).mpr) (fun i => (hsets i).symm) e⟩
  cases s
  cases r
  cases hentries
  rfl

theorem find?_place {es : List LookaheadItem}
    (h : es.Pairwise fun a b => a.core.rank < b.core.rank) (i j : Item) (ts : TerminalSet) :
    ((place i ts es).find? fun e => e.core = j) =
      if j = i then
        some ⟨i, ((es.find? fun e => e.core = i).map LookaheadItem.lookaheads).getD ∅ ∪ ts⟩
      else es.find? fun e => e.core = j := by
  have hempty : (∅ : TerminalSet) ∪ ts = ts := by
    ext t
    simp
  induction es with
  | nil =>
      by_cases hj : j = i
      · simp [place, hj, hempty]
      · simp [place, hj, Ne.symm hj]
  | cons d ds ih =>
      have hd : ∀ c ∈ ds, d.core.rank < c.core.rank := fun c hc => List.rel_of_pairwise_cons h hc
      simp only [place]
      split
      · next hlt =>
          have hmissing : (d :: ds).find? (fun e => e.core = i) = none := by
            simp only [List.find?_eq_none, decide_eq_true_eq]
            intro e he heq
            rcases List.mem_cons.mp he with rfl | he
            · exact Nat.lt_irrefl _ (heq ▸ hlt)
            · exact Nat.lt_irrefl _ (heq ▸ Nat.lt_trans hlt (hd e he))
          by_cases hj : j = i
          · simp [hj, hmissing, hempty]
          · simp [hj, Ne.symm hj]
      · split
        · next heq =>
            by_cases hj : j = i
            · simp [hj, heq]
            · simp [hj, Ne.symm hj, ← heq]
        · next hlt hne =>
            by_cases hj : j = i
            · have := ih (List.Pairwise.of_cons h)
              subst hj
              simpa [Ne.symm hne] using this
            · by_cases hdj : d.core = j
              · simp [hdj, hj]
              · simp [hdj, hj, ih (List.Pairwise.of_cons h)]

theorem get?_add (s : ItemSet) (i j : Item) (ts : TerminalSet) :
    (s.add i ts).get? j = if j = i then some (s.lookaheads i ∪ ts) else s.get? j := by
  rw [get?, add, find?_place s.ascending]
  split
  · rfl
  · rfl

theorem mem_items_add : j ∈ (s.add i ts).items ↔ j = i ∨ j ∈ s.items := by
  rw [mem_items, mem_items, get?_add]
  by_cases hj : j = i <;> simp [hj]

theorem mem_lookaheads_add :
    t ∈ (s.add i ts).lookaheads j ↔ (j = i ∧ t ∈ ts) ∨ t ∈ s.lookaheads j := by
  rw [lookaheads, get?_add]
  by_cases hj : j = i
  · simp [hj, or_comm]
  · simp [hj, lookaheads]

/-- A set has all that another one has. -/
structure Le (s r : ItemSet) : Prop where
  items : ∀ i ∈ s.items, i ∈ r.items
  lookaheads : ∀ i t, t ∈ s.lookaheads i → t ∈ r.lookaheads i

theorem Le.refl (s : ItemSet) : s.Le s := ⟨fun _ h => h, fun _ _ h => h⟩

theorem Le.trans {q : ItemSet} (h : s.Le r) (h' : r.Le q) : s.Le q :=
  ⟨fun i hi => h'.items i (h.items i hi), fun i t ht => h'.lookaheads i t (h.lookaheads i t ht)⟩

theorem le_add (s : ItemSet) (i : Item) (ts : TerminalSet) : s.Le (s.add i ts) :=
  ⟨fun _ h => mem_items_add.mpr (Or.inr h), fun _ _ h => mem_lookaheads_add.mpr (Or.inr h)⟩

/-- A set made from a list has its items, each with the lookaheads of all of its occurrences. -/
theorem mem_foldl_add (es : List LookaheadItem) (s : ItemSet) (i : Item) :
    (i ∈ (es.foldl (fun s e => s.add e.core e.lookaheads) s).items ↔
      (∃ e ∈ es, e.core = i) ∨ i ∈ s.items) ∧
    ∀ t, t ∈ (es.foldl (fun s e => s.add e.core e.lookaheads) s).lookaheads i ↔
      (∃ e ∈ es, e.core = i ∧ t ∈ e.lookaheads) ∨ t ∈ s.lookaheads i := by
  induction es generalizing s with
  | nil => simp
  | cons d ds ih =>
      obtain ⟨hitems, hlookaheads⟩ := ih (s.add d.core d.lookaheads)
      simp only [List.foldl_cons, hitems, hlookaheads, mem_items_add, mem_lookaheads_add,
        List.exists_mem_cons_iff]
      refine ⟨?_, fun t => ?_⟩
      · rw [eq_comm, or_left_comm, or_assoc]
      · rw [eq_comm (a := i), or_left_comm, or_assoc]

theorem mem_items_ofList {es : List LookaheadItem} :
    i ∈ (ofList es).items ↔ ∃ e ∈ es, e.core = i := by
  rw [ofList, (mem_foldl_add es ∅ i).1]
  exact or_iff_left List.not_mem_nil

theorem mem_lookaheads_ofList {es : List LookaheadItem} :
    t ∈ (ofList es).lookaheads i ↔ ∃ e ∈ es, e.core = i ∧ t ∈ e.lookaheads := by
  rw [ofList, (mem_foldl_add es ∅ i).2]
  exact or_iff_left List.not_mem_nil

theorem mem_symbols {g : Grammar} {X : Symbol} :
    X ∈ s.symbols g ↔ ∃ i ∈ s.items, i.next g = some X := by
  simp [symbols]

theorem mem_items_kernel {g : Grammar} {X : Symbol} :
    j ∈ (s.kernel g X).items ↔ ∃ i ∈ s.items, i.next g = some X ∧ i.advance = j := by
  rw [kernel, mem_items_ofList]
  simp only [List.mem_map, List.mem_filter, decide_eq_true_eq, items]
  constructor
  · rintro ⟨_, ⟨e, ⟨he, hnext⟩, rfl⟩, rfl⟩
    exact ⟨e.core, ⟨e, he, rfl⟩, hnext, rfl⟩
  · rintro ⟨_, ⟨e, he, rfl⟩, hnext, rfl⟩
    exact ⟨_, ⟨e, ⟨he, hnext⟩, rfl⟩, rfl⟩

theorem mem_lookaheads_kernel {g : Grammar} {X : Symbol} :
    t ∈ (s.kernel g X).lookaheads j ↔
      ∃ i, t ∈ s.lookaheads i ∧ i.next g = some X ∧ i.advance = j := by
  simp only [kernel, mem_lookaheads_ofList, List.mem_map, List.mem_filter, decide_eq_true_eq]
  constructor
  · rintro ⟨_, ⟨e, ⟨he, hnext⟩, rfl⟩, rfl, ht⟩
    exact ⟨e.core, lookaheads_of_mem he ▸ ht, hnext, rfl⟩
  · rintro ⟨i, ht, hnext, rfl⟩
    obtain ⟨ts, hts⟩ := mem_items.mp (mem_items_of_mem_lookaheads ht)
    have he := get?_eq_some_iff.mp hts
    rw [lookaheads, hts, Option.getD_some] at ht
    exact ⟨_, ⟨_, ⟨he, hnext⟩, rfl⟩, rfl, ht⟩

end ItemSet

end ParserForge

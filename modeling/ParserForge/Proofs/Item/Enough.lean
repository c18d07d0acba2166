import Mathlib
import ParserForge.Proofs.Item.Closure
import ParserForge.Proofs.Turns

/-!
The steps that a closure is given are enough: a closure that ends at all ends within them.  While no
item gains anything, the items are worked off in turns, each of which puts back the predicted items
without lookaheads.  If that goes on for long, every item that will ever be visited has been visited
in vain, so nothing is ever gained, and the closure has no end.
-/

namespace ParserForge

namespace ItemSet

variable {s r : ItemSet}

theorem Le.antisymm (h : s.Le r) (h' : r.Le s) : s = r :=
  ext_of_mem (fun i => ⟨h.items i, h'.items i⟩) fun i t => ⟨h.lookaheads i t, h'.lookaheads i t⟩

/-- The set has the item or, with a terminal, the item with the lookahead. -/
def Has (s : ItemSet) : Item × Option TerminalId → Prop
  | (i, none) => i ∈ s.items
  | (i, some t) => t ∈ s.lookaheads i

instance (s : ItemSet) : DecidablePred s.Has
  | (i, none) => inferInstanceAs (Decidable (i ∈ s.items))
  | (i, some t) => inferInstanceAs (Decidable (t ∈ s.lookaheads i))

theorem Le.has (h : s.Le r) {e : Item × Option TerminalId} (he : s.Has e) : r.Has e := by
  obtain ⟨i, _ | t⟩ := e
  · exact h.items i he
  · exact h.lookaheads i t he

/-- A set that has more has something that the other one has not. -/
theorem Le.exists_has (h : s.Le r) (hne : s ≠ r) : ∃ e, r.Has e ∧ ¬ s.Has e := by
  by_contra hnone
  push Not at hnone
  exact hne (h.antisymm ⟨fun i hi => hnone (i, none) hi, fun i t ht => hnone (i, some t) ht⟩)

end ItemSet

namespace Lr1

open Grammar

variable {g : Grammar} {first : FirstSets} {s k : ItemSet} {i : Item} {w : List Item} {n : Nat}

namespace Closure

variable {c d : Closure} {ts : TerminalSet} {ps : List ProductionId} {p : ProductionId}

/-! Visits. -/

/-- The items that a visit puts back if nothing is gained: the predicted ones without lookaheads. -/
def putsBack (g : Grammar) (s : ItemSet) (i : Item) : List Item :=
  ((predictions g i).filter fun p => (s.lookaheads (.start p)).isEmpty).map Item.start

/-- The items after a visit. -/
def visited (g : Grammar) (first : FirstSets) (s : ItemSet) (i : Item) : ItemSet :=
  (visit g first ⟨s, .empty⟩ i).items

theorem items_foldl_predict (h : c.items = d.items) :
    (ps.foldl (predict ts) c).items = (ps.foldl (predict ts) d).items := by
  induction ps generalizing c d with
  | nil => exact h
  | cons p ps ih =>
      apply ih
      simp only [predict, h]
      split
      · rfl
      · exact h

theorem items_visit (c : Closure) (i : Item) :
    (c.visit g first i).items = visited g first c.items i := by
  rw [visited, visit_eq, visit_eq]
  exact items_foldl_predict rfl

theorem waiting_predict (h : c.queue.Consistent) (hitems : (c.predict ts p).items = c.items) :
    (c.predict ts p).queue.waiting =
      if (c.items.lookaheads (.start p)).isEmpty then Turns.push c.queue.waiting (.start p)
      else c.queue.waiting := by
  by_cases hempty : (c.items.lookaheads (.start p)).isEmpty = true
  · rw [if_pos hempty, predict, hempty, Bool.true_or, if_pos rfl, WorkQueue.waiting_push h,
      Turns.push]
  · have hsubset : ts.subset (c.items.lookaheads (.start p)) = true := by
      by_contra hnot
      -- otherwise the item would gain a lookahead
      rw [predict, if_pos (by simp [hnot])] at hitems
      rw [TerminalSet.subset_iff] at hnot
      push Not at hnot
      obtain ⟨t, ht, hmissing⟩ := hnot
      refine hmissing ?_
      rw [← hitems]
      exact ItemSet.mem_lookaheads_add.mpr (Or.inl ⟨rfl, ht⟩)
    rw [if_neg hempty, predict, if_neg (by simp [hempty, hsubset])]

theorem waiting_foldl_predict (h : c.queue.Consistent)
    (hitems : (ps.foldl (predict ts) c).items = c.items) :
    (ps.foldl (predict ts) c).queue.waiting =
      ((ps.filter fun p => (c.items.lookaheads (.start p)).isEmpty).map Item.start).foldl
        Turns.push c.queue.waiting := by
  induction ps generalizing c with
  | nil => rfl
  | cons p ps ih =>
      have hgrows : Grows ts [p] c (c.predict ts p) := predict_grows h p
      have hrest : Grows ts ps (c.predict ts p) (ps.foldl (predict ts) (c.predict ts p)) :=
        foldl_predict_grows ps hgrows.consistent
      have hfirst : (c.predict ts p).items = c.items := by
        apply ItemSet.Le.antisymm ?_ hgrows.le
        rw [← hitems]
        exact hrest.le
      rw [List.foldl_cons] at hitems ⊢
      rw [ih hgrows.consistent (hitems.trans hfirst.symm), hfirst, waiting_predict h hfirst]
      by_cases hempty : (c.items.lookaheads (.start p)).isEmpty = true
      · rw [if_pos hempty, List.filter_cons_of_pos (by simpa using hempty), List.map_cons,
          List.foldl_cons]
      · rw [if_neg hempty, List.filter_cons_of_neg (by simpa using hempty)]

/-! Turns without a gain. -/

/-- The closure in the making has these items, some of which wait in that order. -/
structure At (s : ItemSet) (w : List Item) (c : Closure) : Prop where
  items : c.items = s
  waiting : c.queue.waiting = w
  consistent : c.queue.Consistent

theorem At.step_eq_none (h : At s [] c) : c.step g first = none := by
  rw [step, WorkQueue.pop?_eq_none_iff.mpr h.waiting, Option.map_none]

/-- A step visits the oldest item, and is a turn if nothing is gained. -/
theorem At.exists_step (g : Grammar) (first : FirstSets) (h : At s (i :: w) c) :
    ∃ d, c.step g first = some d ∧ d.items = visited g first s i ∧
    (visited g first s i = s → At s (Turns.turn (putsBack g s) (i :: w)) d) := by
  obtain ⟨rest, hpop, hrest⟩ := WorkQueue.exists_pop? h.waiting
  have hconsistent : rest.Consistent := WorkQueue.pop?_consistent h.consistent hpop
  let popped : Closure := ⟨c.items, rest⟩
  have hitems : (popped.visit g first i).items = visited g first s i := by
    rw [items_visit, ← h.items]
  refine ⟨popped.visit g first i, ?_, hitems, fun hquiet => ⟨hitems.trans hquiet, ?_, ?_⟩⟩
  · rw [step, hpop]
    rfl
  · have hsame : (popped.visit g first i).items = popped.items := by
      rw [hitems, hquiet, ← h.items]
    rw [visit_eq] at hsame ⊢
    rw [waiting_foldl_predict hconsistent hsame, Turns.turn, putsBack]
    change List.foldl Turns.push rest.waiting _ = _
    rw [hrest, ← h.items]
  · have hgrows : Grows (passedOn g first popped.items i) (predictions g i) popped
        (popped.visit g first i) := visit_grows hconsistent i
    exact hgrows.consistent

/-- The closure in the making after some steps, if there are as many. -/
def after (g : Grammar) (first : FirstSets) : Nat → Closure → Option Closure
  | 0, c => some c
  | n + 1, c => (c.step g first).bind (after g first n)

theorem after_succ_of_step (h : c.step g first = some d) (n : Nat) :
    c.after g first (n + 1) = d.after g first n := by
  rw [after, h, Option.bind_some]

theorem after_add {m : Nat} (h : c.after g first n = some d) :
    c.after g first (n + m) = d.after g first m := by
  induction n generalizing c with
  | zero => rw [Nat.zero_add, Option.some.inj h]
  | succ n ih =>
      obtain ⟨b, hstep, hb⟩ := Option.bind_eq_some_iff.mp h
      rw [Nat.add_right_comm, after_succ_of_step hstep]
      exact ih hb

/-- What the steps preserve holds after any number of them. -/
theorem after_induction {P : Closure → Prop} (hstep : ∀ c d, P c → c.step g first = some d → P d)
    (hc : P c) (h : c.after g first n = some d) : P d := by
  induction n generalizing c with
  | zero => exact Option.some.inj h ▸ hc
  | succ n ih =>
      obtain ⟨b, hb, hrest⟩ := Option.bind_eq_some_iff.mp h
      exact ih (hstep c b hc hb) hrest

theorem run_succ_of_step (h : c.step g first = some d) (n : Nat) :
    c.run g first (n + 1) = d.run g first n := by
  rw [run, h]

theorem run_after {m : Nat} (h : c.after g first n = some d) :
    c.run g first (n + m) = d.run g first m := by
  induction n generalizing c with
  | zero => rw [Nat.zero_add, Option.some.inj h]
  | succ n ih =>
      obtain ⟨b, hstep, hb⟩ := Option.bind_eq_some_iff.mp h
      rw [Nat.add_right_comm, run_succ_of_step hstep]
      exact ih hb

theorem run_mono {m : Nat} (h : c.run g first n = some s) (hle : n ≤ m) :
    c.run g first m = some s := by
  induction n generalizing c m with
  | zero => cases h
  | succ n ih =>
      obtain ⟨m, rfl⟩ : ∃ l, m = l + 1 := ⟨m - 1, by omega⟩
      rw [run] at h ⊢
      split at h
      · exact h
      · exact ih h (Nat.le_of_succ_le_succ hle)

/-- Nothing is gained in the first turns. -/
def Quiet (g : Grammar) (first : FirstSets) (s : ItemSet) (w : List Item) (n : Nat) : Prop :=
  ∀ j < n, ∀ i, ((Turns.turn (putsBack g s))^[j] w).head? = some i → visited g first s i = s

theorem Quiet.tail (h : Quiet g first s w (n + 1)) :
    Quiet g first s (Turns.turn (putsBack g s) w) n := by
  intro j hj i hi
  rw [← Function.iterate_succ_apply] at hi
  exact h (j + 1) (Nat.succ_lt_succ hj) i hi

/-- If nothing is gained, the closure ends when the work does. -/
theorem run_of_turns_eq_nil (hc : At s w c) (hquiet : Quiet g first s w n)
    (h : (Turns.turn (putsBack g s))^[n] w = []) : c.run g first (n + 1) = some s := by
  induction n generalizing c w with
  | zero =>
      obtain rfl : w = [] := h
      rw [run, hc.step_eq_none, hc.items]
  | succ n ih =>
      cases w with
      | nil => rw [run, hc.step_eq_none, hc.items]
      | cons i w =>
          obtain ⟨d, hstep, _, hd⟩ := hc.exists_step g first
          have hi : visited g first s i = s := hquiet 0 (Nat.succ_pos n) i rfl
          rw [run_succ_of_step hstep]
          exact ih (hd hi) hquiet.tail h

/-- If nothing is gained, the closure goes on as long as the work does. -/
theorem after_of_turns_ne_nil (hc : At s w c) (hquiet : Quiet g first s w n)
    (h : (Turns.turn (putsBack g s))^[n] w ≠ []) :
    ∃ d, c.after g first n = some d ∧ At s ((Turns.turn (putsBack g s))^[n] w) d := by
  induction n generalizing c w with
  | zero => exact ⟨c, rfl, hc⟩
  | succ n ih =>
      rw [Function.iterate_succ_apply] at h ⊢
      cases w with
      | nil => exact absurd (Turns.turns_nil n) h
      | cons i w =>
          obtain ⟨d, hstep, _, hd⟩ := hc.exists_step g first
          have hi : visited g first s i = s := hquiet 0 (Nat.succ_pos n) i rfl
          rw [after_succ_of_step hstep]
          exact ih (hd hi) hquiet.tail h

/-- A closure in which nothing is gained ends if and only if the work does, with what it has. -/
theorem exists_run_iff_of_quiet {r : ItemSet} (hc : At s w c) (hquiet : ∀ n, Quiet g first s w n) :
    (∃ n, c.run g first n = some r) ↔ r = s ∧ ∃ n, (Turns.turn (putsBack g s))^[n] w = [] := by
  constructor
  · rintro ⟨n, hn⟩
    have hnil : (Turns.turn (putsBack g s))^[n] w = [] := by
      by_contra hne
      obtain ⟨d, hd, _⟩ := after_of_turns_ne_nil hc (hquiet n) hne
      have hnone : c.run g first n = none := run_after (m := 0) hd
      rw [hnone] at hn
      cases hn
    have hend := run_of_turns_eq_nil hc (hquiet n) hnil
    rw [run_mono hn (Nat.le_succ n)] at hend
    exact ⟨Option.some.inj hend, n, hnil⟩
  · rintro ⟨rfl, n, hnil⟩
    exact ⟨n + 1, run_of_turns_eq_nil hc (hquiet n) hnil⟩

/-! What a closure can find. -/

/-- The items of a set and the starts of the productions. -/
def places (g : Grammar) (k : ItemSet) : Finset Item :=
  k.items.toFinset ∪ (Finset.range g.productions.length).image Item.start

/-- The terminals, and the lookaheads that a set gives its items. -/
def terminals (g : Grammar) (k : ItemSet) : Finset TerminalId :=
  Finset.range g.terminals.length ∪ (k.entries.flatMap fun e => e.lookaheads.members).toFinset

/-- All that the closure of a set can have. -/
def findable (g : Grammar) (k : ItemSet) : Finset (Item × Option TerminalId) :=
  places g k ×ˢ (terminals g k).insertNone

theorem mem_findable {e : Item × Option TerminalId} :
    e ∈ findable g k ↔ e.1 ∈ places g k ∧ ∀ t ∈ e.2, t ∈ terminals g k := by
  rw [findable, Finset.mem_product, Finset.mem_insertNone]

/-- What is left to be found. -/
def lacking (g : Grammar) (k s : ItemSet) : Finset (Item × Option TerminalId) :=
  (findable g k).filter fun e => ¬ s.Has e

theorem start_mem_places (hp : p ∈ predictions g i) : Item.start p ∈ places g k := by
  obtain ⟨r, _, hr⟩ := mem_predictions.mp hp
  have hlt : p < g.productions.length := (List.getElem?_eq_some_iff.mp hr).1
  exact Finset.mem_union_right _ (Finset.mem_image_of_mem _ (Finset.mem_range.mpr hlt))

theorem mem_terminals_of_lt {t : TerminalId} (h : t < g.terminals.length) : t ∈ terminals g k :=
  Finset.mem_union_left _ (Finset.mem_range.mpr h)

/-- An item passes on terminals of the grammar or its own lookaheads. -/
theorem lt_length_of_mem_passedOn {t : TerminalId} (hg : g.WellFormed)
    (h : t ∈ passedOn g (.ofGrammar g) s i) :
    t < g.terminals.length ∨ t ∈ s.lookaheads i := by
  rcases (mem_passedOn_iff hg).mp h with hbegins | ⟨_, h⟩
  · exact Or.inl (hbegins.isUserTerminal hg (i.isUserSymbol_rest hg)).2
  · exact Or.inr h

/-- What holds of a closure in the making that began with the set `k`, on what it has found. -/
structure Bounded (g : Grammar) (k : ItemSet) (c : Closure) : Prop where
  growing : c.Growing g (.ofGrammar g) k
  findable : ∀ e, c.items.Has e → e ∈ findable g k

theorem start_bounded (g : Grammar) (k : ItemSet) : (start k).Bounded g k := by
  refine ⟨start_growing g _ k, fun e he => mem_findable.mpr ?_⟩
  have hitem : ∀ i ∈ k.items, i ∈ places g k := fun i hi =>
    Finset.mem_union_left _ (List.mem_toFinset.mpr hi)
  obtain ⟨i, _ | t⟩ := e
  · exact ⟨hitem i he, fun t ht => nomatch ht⟩
  · have hi : i ∈ k.items := ItemSet.mem_items_of_mem_lookaheads he
    refine ⟨hitem i hi, fun u hu => ?_⟩
    obtain rfl : t = u := Option.some.inj hu
    obtain ⟨d, hd, rfl⟩ := List.mem_map.mp hi
    have ht : t ∈ k.lookaheads d.core := he
    rw [ItemSet.lookaheads_of_mem hd] at ht
    exact Finset.mem_union_right _ (List.mem_toFinset.mpr (List.mem_flatMap.mpr ⟨d, hd, ht⟩))

theorem step_bounded (hg : g.WellFormed) (hc : c.Bounded g k)
    (h : c.step g (.ofGrammar g) = some d) : d.Bounded g k := by
  obtain ⟨i, rest, _, hi, hgrows⟩ := visit_of_step hc.growing h
  refine ⟨step_growing hc.growing h, fun e he => ?_⟩
  obtain ⟨j, _ | t⟩ := e
  · rcases hgrows.items j he with hold | ⟨p, hp, rfl⟩
    · exact hc.findable (j, none) hold
    · exact mem_findable.mpr ⟨start_mem_places hp, fun t ht => nomatch ht⟩
  · rcases hgrows.lookaheads j t he with hold | ⟨hnew, p, hp, rfl⟩
    · exact hc.findable (j, some t) hold
    · refine mem_findable.mpr ⟨start_mem_places hp, fun u hu => ?_⟩
      obtain rfl : t = u := Option.some.inj hu
      rcases lt_length_of_mem_passedOn hg hnew with hlt | hold
      · exact mem_terminals_of_lt hlt
      · exact (mem_findable.mp (hc.findable (i, some t) hold)).2 t rfl

theorem Bounded.waits (hc : c.Bounded g k) : Turns.Waits (places g k) c.queue.waiting :=
  ⟨hc.growing.consistent.nodup, fun i hi =>
    (mem_findable.mp (hc.findable (i, none) (hc.growing.waiting i hi))).1⟩

theorem putsBack_subset : ∀ i ∈ places g k, ∀ j ∈ putsBack g s i, j ∈ places g k := by
  intro i _ j hj
  obtain ⟨p, hp, rfl⟩ := List.mem_map.mp hj
  exact start_mem_places (List.mem_of_mem_filter hp)

/-- What is gained is not lacking any more. -/
theorem card_lacking_lt {r : ItemSet} {e : Item × Option TerminalId} (hle : s.Le r)
    (hfindable : e ∈ findable g k) (he : r.Has e) (hnot : ¬ s.Has e) :
    (lacking g k r).card < (lacking g k s).card := by
  apply Finset.card_lt_card
  rw [Finset.ssubset_iff_of_subset]
  · refine ⟨e, Finset.mem_filter.mpr ⟨hfindable, hnot⟩, fun hmem => ?_⟩
    exact (Finset.mem_filter.mp hmem).2 he
  · intro e he
    rw [lacking, Finset.mem_filter] at he ⊢
    exact ⟨he.1, fun hold => he.2 (hle.has hold)⟩

/-! The bound. -/

/-- If nothing is gained for long, nothing is gained at all. -/
theorem Quiet.of_places (hw : Turns.Waits (places g k) w)
    (h : Quiet g first s w ((places g k).card * (places g k).card)) (n : Nat) :
    Quiet g first s w n := by
  intro j _ i hi
  obtain ⟨j', hj', hi'⟩ := Turns.exists_early_head putsBack_subset hw hi
  exact h j' hj' i hi'

/-- If something is gained, there is a first time. -/
theorem exists_first_gain (h : ¬ Quiet g first s w n) : ∃ j < n, ∃ i,
    ((Turns.turn (putsBack g s))^[j] w).head? = some i ∧ visited g first s i ≠ s ∧
      Quiet g first s w j := by
  classical
  have hex : ∃ j, j < n ∧ ∃ i,
      ((Turns.turn (putsBack g s))^[j] w).head? = some i ∧ visited g first s i ≠ s := by
    by_contra hnone
    refine h fun j hj i hi => ?_
    by_contra hgain
    exact hnone ⟨j, hj, i, hi, hgain⟩
  obtain ⟨hj, i, hi, hgain⟩ := Nat.find_spec hex
  refine ⟨Nat.find hex, hj, i, hi, hgain, fun l hl i hi => ?_⟩
  by_contra hgain
  exact Nat.find_min hex hl ⟨hl.trans hj, i, hi, hgain⟩

/-- The number of turns after which nothing is gained any more. -/
def round (g : Grammar) (k : ItemSet) : Nat := (places g k).card * (places g k).card

theorem Bounded.at_self (hc : c.Bounded g k) : At c.items c.queue.waiting c :=
  ⟨rfl, rfl, hc.growing.consistent⟩

/-- If something is gained at all, something is gained before long. -/
theorem exists_gain (hg : g.WellFormed) (hc : c.Bounded g k)
    (h : ¬ Quiet g (.ofGrammar g) c.items c.queue.waiting (round g k)) :
    ∃ j < round g k, ∃ d, c.after g (.ofGrammar g) (j + 1) = some d ∧
      (lacking g k d.items).card < (lacking g k c.items).card := by
  obtain ⟨j, hj, i, hi, hgain, hquiet⟩ := exists_first_gain h
  obtain ⟨w, hw⟩ := List.head?_eq_some_iff.mp hi
  have hne : (Turns.turn (putsBack g c.items))^[j] c.queue.waiting ≠ [] := by
    rw [hw]
    exact List.cons_ne_nil i w
  obtain ⟨b, hafter, hat⟩ := after_of_turns_ne_nil hc.at_self hquiet hne
  rw [hw] at hat
  obtain ⟨d, hstep, hitems, _⟩ := hat.exists_step g (.ofGrammar g)
  have hb : b.Bounded g k := after_induction (fun _ _ => step_bounded hg) hc hafter
  have hd := step_bounded hg hb hstep
  refine ⟨j, hj, d, ?_, ?_⟩
  · rw [after_add hafter, after_succ_of_step hstep, after]
  · obtain ⟨_, _, _, _, hgrows⟩ := visit_of_step hb.growing hstep
    have hle : c.items.Le d.items := hat.items ▸ hgrows.le
    have hne : c.items ≠ d.items := by
      rw [hitems]
      exact hgain.symm
    obtain ⟨e, he, hnot⟩ := hle.exists_has hne
    exact card_lacking_lt hle (hd.findable e he) he hnot

/-- After a round of turns for everything that is lacking, nothing is gained any more. -/
theorem exists_quiet (hg : g.WellFormed) (hc : c.Bounded g k) :
    ∃ n ≤ (lacking g k c.items).card * round g k, ∃ d, c.after g (.ofGrammar g) n = some d ∧
      ∀ n, Quiet g (.ofGrammar g) d.items d.queue.waiting n := by
  induction hcard : (lacking g k c.items).card using Nat.strong_induction_on generalizing c with
  | h m ih =>
      by_cases hquiet : Quiet g (.ofGrammar g) c.items c.queue.waiting (round g k)
      · exact ⟨0, Nat.zero_le _, c, rfl, hquiet.of_places hc.waits⟩
      · obtain ⟨j, hj, d, hafter, hless⟩ := exists_gain hg hc hquiet
        rw [hcard] at hless
        have hd : d.Bounded g k := after_induction (fun _ _ => step_bounded hg) hc hafter
        obtain ⟨n, hn, e, he, hquiet⟩ := ih _ hless hd rfl
        refine ⟨j + 1 + n, ?_, e, by rw [after_add hafter, he], hquiet⟩
        calc j + 1 + n ≤ round g k + (lacking g k d.items).card * round g k := by omega
          _ = ((lacking g k d.items).card + 1) * round g k := by ring
          _ ≤ m * round g k := Nat.mul_le_mul_right _ hless

/-- A closure that ends does so within a round of turns for everything that it lacks, and a last
one. -/
theorem run_of_run (hg : g.WellFormed) (hc : c.Bounded g k)
    (h : c.run g (.ofGrammar g) n = some s) :
    c.run g (.ofGrammar g) (((lacking g k c.items).card + 1) * (round g k + 1)) = some s := by
  obtain ⟨j, hj, d, hafter, hquiet⟩ := exists_quiet hg hc
  have hd : d.Bounded g k := after_induction (fun _ _ => step_bounded hg) hc hafter
  have hlater : d.run g (.ofGrammar g) n = some s := by
    rw [← run_after hafter]
    exact run_mono h (Nat.le_add_left n j)
  obtain ⟨rfl, l, hl⟩ := (exists_run_iff_of_quiet hd.at_self hquiet).mp ⟨n, hlater⟩
  have hnil := Turns.turns_eq_nil putsBack_subset hd.waits hl
  have hend := run_of_turns_eq_nil hd.at_self (hquiet (round g k)) hnil
  rw [← run_after hafter] at hend
  apply run_mono hend
  calc j + (round g k + 1) ≤ (lacking g k c.items).card * (round g k + 1) + (round g k + 1) := by
        have hmore : (lacking g k c.items).card * round g k ≤
            (lacking g k c.items).card * (round g k + 1) := Nat.mul_le_mul_left _ (Nat.le_succ _)
        omega
    _ = ((lacking g k c.items).card + 1) * (round g k + 1) := by ring

theorem card_places_le (g : Grammar) (k : ItemSet) :
    (places g k).card ≤ k.entries.length + g.productions.length := by
  have hitems := List.toFinset_card_le k.items
  have hstarts := Finset.card_image_le (s := Finset.range g.productions.length) (f := Item.start)
  rw [Finset.card_range] at hstarts
  rw [ItemSet.items, List.length_map] at hitems
  exact (Finset.card_union_le _ _).trans (Nat.add_le_add hitems hstarts)

theorem card_terminals_le (g : Grammar) (k : ItemSet) : (terminals g k).card ≤
    g.terminals.length + (k.entries.flatMap fun e => e.lookaheads.members).length := by
  have hmembers := List.toFinset_card_le (k.entries.flatMap fun e => e.lookaheads.members)
  apply (Finset.card_union_le _ _).trans
  rw [Finset.card_range]
  exact Nat.add_le_add_left hmembers _

/-- The steps that a closure is given are enough for all rounds of turns. -/
theorem rounds_le_enough (g : Grammar) (k : ItemSet) :
    ((lacking g k s).card + 1) * (round g k + 1) ≤ enough g k := by
  let places := k.entries.length + g.productions.length + 1
  let terminals :=
    g.terminals.length + (k.entries.flatMap fun e => e.lookaheads.members).length + 2
  have hplaces : (Closure.places g k).card < places := Nat.lt_succ_of_le (card_places_le g k)
  have hterminals : (Closure.terminals g k).card + 1 < terminals :=
    Nat.succ_lt_succ (Nat.lt_succ_of_le (card_terminals_le g k))
  have hlacking : (lacking g k s).card + 1 ≤ places * terminals := by
    have hcard := Finset.card_filter_le (findable g k) fun e => ¬ s.Has e
    rw [findable, Finset.card_product, Finset.card_insertNone] at hcard
    apply Nat.lt_of_le_of_lt hcard
    exact Nat.mul_lt_mul_of_lt_of_le hplaces hterminals.le (by omega)
  have hround : round g k + 1 ≤ places * places :=
    Nat.mul_lt_mul_of_lt_of_le hplaces hplaces.le (by omega)
  calc ((lacking g k s).card + 1) * (round g k + 1)
      ≤ (places * terminals) * (places * places) := Nat.mul_le_mul hlacking hround
    _ ≤ 4 * ((places * terminals) * (places * places)) := Nat.le_mul_of_pos_left _ (by omega)
    _ = 4 * places * places * places * terminals := by ring

end Closure

/-- A closure that ends at all has an answer. -/
theorem closure?_eq_some_iff (hg : g.WellFormed) :
    closure? g (.ofGrammar g) k = some s ↔
      ∃ n, (Closure.start k).run g (.ofGrammar g) n = some s := by
  constructor
  · exact fun h => ⟨_, h⟩
  · rintro ⟨n, hn⟩
    have hrun := Closure.run_of_run hg (Closure.start_bounded g k) hn
    exact Closure.run_mono hrun (Closure.rounds_le_enough g k)

end Lr1

end ParserForge

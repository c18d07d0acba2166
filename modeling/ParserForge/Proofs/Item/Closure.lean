import Mathlib
import ParserForge.Item.Lr1
import ParserForge.Proofs.Item.Canonical
import ParserForge.Proofs.Item.Set
import ParserForge.Proofs.WorkQueue

/-!
The closure of an item set.  The items that do not wait have made their predictions, so when none
waits any more, the set is closed.  What is possible after some symbols stays so under prediction.
-/

namespace ParserForge

namespace Item

theorem isUserSymbol_rest {g : Grammar} (hg : g.WellFormed) (i : Item) :
    ∀ X ∈ i.rest g, g.IsUserSymbol X := by
  intro X hX
  have hbody : X ∈ g.body i.production := List.mem_of_mem_drop hX
  rw [Grammar.body] at hbody
  cases hr : g.productions[i.production]? with
  | none => simp [hr] at hbody
  | some r =>
      rw [hr] at hbody
      exact hg.symbols r (List.mem_of_getElem? hr) X hbody

instance : Std.TransOrd Item := inferInstanceAs (Std.TransCmp (compareOn rank))

instance : Std.LawfulEqOrd Item where
  eq_of_compare h := rank_injective (Nat.compare_eq_eq.mp h)

end Item

namespace Lr1

open Grammar

variable {g : Grammar} {first : FirstSets} {s k : ItemSet} {i : Item} {γ : List Symbol}

/-- The productions that an item predicts. -/
def predictions (g : Grammar) (i : Item) : List ProductionId :=
  match i.next g with
  | some (.nonterminal n) => g.productionsOf n
  | _ => []

theorem mem_predictions {p : ProductionId} : p ∈ predictions g i ↔
    ∃ r, i.next g = some (.nonterminal r.head) ∧ g.productions[p]? = some r := by
  unfold predictions
  split
  · next n hn =>
      rw [mem_productionsOf]
      constructor
      · rintro ⟨r, hr, rfl⟩
        exact ⟨r, hn, hr⟩
      · rintro ⟨r, hr, hget⟩
        cases hn.symm.trans hr
        exact ⟨r, hget, rfl⟩
  · next hn =>
      simp only [List.not_mem_nil, false_iff]
      rintro ⟨r, hr, _⟩
      exact hn _ hr

/-- The set has the predictions of an item. -/
def Settled (g : Grammar) (first : FirstSets) (s : ItemSet) (i : Item) : Prop :=
  ∀ p ∈ predictions g i, Item.start p ∈ s.items ∧
    ∀ t ∈ Closure.passedOn g first s i, t ∈ s.lookaheads (.start p)

/-- The set lists what is possible after some symbols, though maybe not all of it. -/
structure Within (g : Grammar) (γ : List Symbol) (s : ItemSet) : Prop where
  possible : ∀ i ∈ s.items, g.Possible γ i
  possibleOn : ∀ i t, t ∈ s.lookaheads i → g.PossibleOn γ i t

namespace Closure

variable {c d : Closure} {ts : TerminalSet} {ps : List ProductionId}

/-- What predicting productions with some lookaheads does to a closure in the making.  An item that
does not wait afterwards has not been changed, and a predicted item waits if it still has no
lookaheads. -/
structure Grows (ts : TerminalSet) (ps : List ProductionId) (c d : Closure) : Prop where
  consistent : d.queue.Consistent
  le : c.items.Le d.items
  reached : ∀ p ∈ ps, Item.start p ∈ d.items.items ∧
    ∀ t ∈ ts, t ∈ d.items.lookaheads (.start p)
  items : ∀ j ∈ d.items.items, j ∈ c.items.items ∨ ∃ p ∈ ps, j = .start p
  lookaheads : ∀ j t, t ∈ d.items.lookaheads j →
    t ∈ c.items.lookaheads j ∨ t ∈ ts ∧ ∃ p ∈ ps, j = .start p
  waiting : ∀ j ∈ d.queue.waiting, j ∈ c.queue.waiting ∨ ∃ p ∈ ps, j = .start p
  unchanged : ∀ j, j ∉ d.queue.waiting → j ∉ c.queue.waiting ∧
    (j ∈ d.items.items → j ∈ c.items.items) ∧
    ∀ t, t ∈ d.items.lookaheads j → t ∈ c.items.lookaheads j
  bare : ∀ p ∈ ps, (∀ t, t ∉ d.items.lookaheads (.start p)) → Item.start p ∈ d.queue.waiting

theorem Grows.refl (h : c.queue.Consistent) : Grows ts [] c c where
  consistent := h
  le := .refl _
  reached := by simp
  items := fun _ h => Or.inl h
  lookaheads := fun _ _ h => Or.inl h
  waiting := fun _ h => Or.inl h
  unchanged := fun _ h => ⟨h, fun h => h, fun _ h => h⟩
  bare := by simp

theorem predict_grows (h : c.queue.Consistent) (p : ProductionId) :
    Grows ts [p] c (c.predict ts p) := by
  simp only [predict]
  split
  · refine ⟨WorkQueue.push_consistent h _, ItemSet.le_add _ _ _, ?_, ?_, ?_, ?_, ?_, ?_⟩
    · intro q hq
      cases List.mem_singleton.mp hq
      exact ⟨ItemSet.mem_items_add.mpr (Or.inl rfl),
        fun t ht => ItemSet.mem_lookaheads_add.mpr (Or.inl ⟨rfl, ht⟩)⟩
    · intro j hj
      rcases ItemSet.mem_items_add.mp hj with rfl | hj
      · exact Or.inr ⟨p, List.mem_singleton_self p, rfl⟩
      · exact Or.inl hj
    · intro j t ht
      rcases ItemSet.mem_lookaheads_add.mp ht with ⟨rfl, hnew⟩ | hold
      · exact Or.inr ⟨hnew, p, List.mem_singleton_self p, rfl⟩
      · exact Or.inl hold
    · intro j hj
      rcases (WorkQueue.mem_waiting_push h).mp hj with rfl | hj
      · exact Or.inr ⟨p, List.mem_singleton_self p, rfl⟩
      · exact Or.inl hj
    · intro j hj
      rw [WorkQueue.mem_waiting_push h, not_or] at hj
      refine ⟨hj.2, fun hmem => ?_, fun t ht => ?_⟩
      · exact (ItemSet.mem_items_add.mp hmem).resolve_left hj.1
      · exact (ItemSet.mem_lookaheads_add.mp ht).resolve_left fun h => hj.1 h.1
    · intro q hq _
      cases List.mem_singleton.mp hq
      exact (WorkQueue.mem_waiting_push h).mpr (Or.inl rfl)
  · next hknown =>
      simp only [Bool.or_eq_true, Bool.not_eq_true', not_or, Bool.not_eq_false] at hknown
      obtain ⟨hnonempty, hsubset⟩ := hknown
      have hsubset := TerminalSet.subset_iff.mp hsubset
      rw [TerminalSet.isEmpty_iff, not_forall] at hnonempty
      obtain ⟨u, hu⟩ := hnonempty
      have hitem := ItemSet.mem_items_of_mem_lookaheads (not_not.mp hu)
      refine ⟨h, .refl _, ?_, fun _ h => Or.inl h, fun _ _ h => Or.inl h, fun _ h => Or.inl h,
        fun _ h => ⟨h, fun h => h, fun _ h => h⟩, ?_⟩
      · intro q hq
        cases List.mem_singleton.mp hq
        exact ⟨hitem, hsubset⟩
      · intro q hq hbare
        cases List.mem_singleton.mp hq
        exact absurd (not_not.mp hu) (hbare u)

theorem exists_start_cons {j : Item} {p : ProductionId} (h : ∃ q ∈ [p], j = Item.start q) :
    ∃ q ∈ p :: ps, j = Item.start q := by
  obtain ⟨q, hq, rfl⟩ := h
  exact ⟨q, List.mem_cons.mpr (Or.inl (List.mem_singleton.mp hq)), rfl⟩

theorem Grows.cons {e : Closure} {p : ProductionId} (h : Grows ts [p] c d)
    (h' : Grows ts ps d e) : Grows ts (p :: ps) c e where
  consistent := h'.consistent
  le := h.le.trans h'.le
  reached := by
    intro q hq
    rcases List.mem_cons.mp hq with rfl | hq
    · obtain ⟨hitem, hall⟩ := h.reached q (List.mem_singleton_self q)
      exact ⟨h'.le.items _ hitem, fun t ht => h'.le.lookaheads _ t (hall t ht)⟩
    · exact h'.reached q hq
  items := by
    intro j hj
    rcases h'.items j hj with hj | ⟨q, hq, rfl⟩
    · exact (h.items j hj).imp_right exists_start_cons
    · exact Or.inr ⟨q, List.mem_cons_of_mem _ hq, rfl⟩
  lookaheads := by
    intro j t ht
    rcases h'.lookaheads j t ht with hold | ⟨hnew, q, hq, rfl⟩
    · exact (h.lookaheads j t hold).imp_right (And.imp_right exists_start_cons)
    · exact Or.inr ⟨hnew, q, List.mem_cons_of_mem _ hq, rfl⟩
  waiting := by
    intro j hj
    rcases h'.waiting j hj with hj | ⟨q, hq, rfl⟩
    · exact (h.waiting j hj).imp_right exists_start_cons
    · exact Or.inr ⟨q, List.mem_cons_of_mem _ hq, rfl⟩
  unchanged := by
    intro j hj
    obtain ⟨hwaits, hitems, hlookaheads⟩ := h'.unchanged j hj
    obtain ⟨hwaits', hitems', hlookaheads'⟩ := h.unchanged j hwaits
    exact ⟨hwaits', fun h => hitems' (hitems h), fun t h => hlookaheads' t (hlookaheads t h)⟩
  bare := by
    intro q hq hbare
    rcases List.mem_cons.mp hq with rfl | hq
    · have hbare' : ∀ t, t ∉ d.items.lookaheads (.start q) := fun t ht =>
        hbare t (h'.le.lookaheads _ t ht)
      have hwaits := h.bare q (List.mem_singleton_self q) hbare'
      by_contra hnot
      exact (h'.unchanged _ hnot).1 hwaits
    · exact h'.bare q hq hbare

theorem foldl_predict_grows (ps : List ProductionId) (h : c.queue.Consistent) :
    Grows ts ps c (ps.foldl (predict ts) c) := by
  induction ps generalizing c with
  | nil => exact .refl h
  | cons p ps ih =>
      have hfirst : Grows ts [p] c (c.predict ts p) := predict_grows h p
      exact hfirst.cons (ih hfirst.consistent)

theorem visit_eq (c : Closure) (i : Item) : c.visit g first i =
    (predictions g i).foldl (predict (passedOn g first c.items i)) c := by
  unfold visit predictions
  cases i.next g with
  | none => rfl
  | some X => cases X <;> rfl

theorem visit_grows (h : c.queue.Consistent) (i : Item) :
    Grows (passedOn g first c.items i) (predictions g i) c (c.visit g first i) := by
  rw [visit_eq]
  exact foldl_predict_grows _ h

/-- What holds of a closure in the making that began with the set `k`. -/
structure Growing (g : Grammar) (first : FirstSets) (k : ItemSet) (c : Closure) : Prop where
  consistent : c.queue.Consistent
  waiting : ∀ i ∈ c.queue.waiting, i ∈ c.items.items
  le : k.Le c.items
  settled : ∀ i ∈ c.items.items, i ∉ c.queue.waiting → Settled g first c.items i

theorem start_growing (g : Grammar) (first : FirstSets) (k : ItemSet) :
    (start k).Growing g first k := by
  obtain ⟨hconsistent, hmem⟩ := WorkQueue.ofList_consistent k.items
  exact ⟨hconsistent, fun i hi => (hmem i).mp hi, .refl k,
    fun i hi hnot => absurd ((hmem i).mpr hi) hnot⟩

theorem mem_passedOn_of_subset {r : ItemSet} {t : TerminalId}
    (h : ∀ t, t ∈ s.lookaheads i → t ∈ r.lookaheads i) (ht : t ∈ passedOn g first s i) :
    t ∈ passedOn g first r i := by
  simp only [passedOn] at ht ⊢
  split at ht
  · next hε =>
      rw [if_pos hε]
      exact TerminalSet.mem_union.mpr ((TerminalSet.mem_union.mp ht).imp_right (h t))
  · next hε =>
      rwa [if_neg hε]

/-- A step is the visit of an item of the set. -/
theorem visit_of_step (hc : c.Growing g first k) (h : c.step g first = some d) :
    ∃ i rest, c.queue.waiting = i :: rest.waiting ∧ i ∈ c.items.items ∧
      Grows (passedOn g first c.items i) (predictions g i) ⟨c.items, rest⟩ d := by
  obtain ⟨⟨i, rest⟩, hpop, rfl⟩ := Option.map_eq_some_iff.mp h
  have hwaiting := WorkQueue.waiting_of_pop? hpop
  refine ⟨i, rest, hwaiting, hc.waiting i (hwaiting ▸ List.mem_cons_self), ?_⟩
  exact visit_grows (c := ⟨c.items, rest⟩) (WorkQueue.pop?_consistent hc.consistent hpop) i

theorem step_growing (hc : c.Growing g first k) (h : c.step g first = some d) :
    d.Growing g first k := by
  obtain ⟨i, rest, hwaiting, hi, hgrows⟩ := visit_of_step hc h
  refine ⟨hgrows.consistent, fun j hj => ?_, hc.le.trans hgrows.le, fun j hj hnot => ?_⟩
  · rcases hgrows.waiting j hj with hj | ⟨p, hp, rfl⟩
    · exact hgrows.le.items j (hc.waiting j (hwaiting ▸ List.mem_cons_of_mem _ hj))
    · exact (hgrows.reached p hp).1
  · obtain ⟨hnot', hitems, hlookaheads⟩ := hgrows.unchanged j hnot
    intro p hp
    by_cases hji : j = i
    · subst hji
      obtain ⟨hitem, hall⟩ := hgrows.reached p hp
      exact ⟨hitem, fun t ht => hall t (mem_passedOn_of_subset hlookaheads ht)⟩
    · have hwaits : j ∉ c.queue.waiting := by
        rw [hwaiting, List.mem_cons, not_or]
        exact ⟨hji, hnot'⟩
      obtain ⟨hitem, hall⟩ := hc.settled j (hitems hj) hwaits p hp
      exact ⟨hgrows.le.items _ hitem, fun t ht =>
        hgrows.le.lookaheads _ t (hall t (mem_passedOn_of_subset hlookaheads ht))⟩

/-- When a run comes to its end, what its steps preserve holds of a closure without waiting
items. -/
theorem run_induction {P : Closure → Prop} (hstep : ∀ c d, P c → c.step g first = some d → P d)
    {n : Nat} (hc : P c) (h : c.run g first n = some s) :
    ∃ d, P d ∧ d.queue.waiting = [] ∧ d.items = s := by
  induction n generalizing c with
  | zero => cases h
  | succ n ih =>
      rw [run] at h
      split at h
      · next hnone =>
          refine ⟨c, hc, ?_, Option.some.inj h⟩
          rw [step, Option.map_eq_none_iff] at hnone
          exact WorkQueue.pop?_eq_none_iff.mp hnone
      · next d hd => exact ih (hstep c d hc hd) h

/-- What an item predicts is possible where the item is. -/
theorem possible_start {p : ProductionId} (hg : g.WellFormed) (hi : g.Possible γ i)
    (hp : p ∈ predictions g i) : g.Possible γ (.start p) := by
  obtain ⟨r, hnext, hr⟩ := mem_predictions.mp hp
  exact hi.predict hg hnext hr

/-- What an item passes on can stand behind what it predicts. -/
theorem mem_passedOn_iff (hg : g.WellFormed) {t : TerminalId} :
    t ∈ passedOn g (.ofGrammar g) s i ↔
      g.Begins (i.rest g) t ∨ g.Nullable (i.rest g) ∧ t ∈ s.lookaheads i :=
  FirstSets.mem_begins_or_own_iff hg (i.isUserSymbol_rest hg)

theorem possibleOn_start {p : ProductionId} {t : TerminalId} (hg : g.WellFormed)
    (hs : Within g γ s) (hi : i ∈ s.items) (hp : p ∈ predictions g i)
    (ht : t ∈ passedOn g (.ofGrammar g) s i) : g.PossibleOn γ (.start p) t := by
  obtain ⟨r, hnext, hr⟩ := mem_predictions.mp hp
  obtain ⟨α, β, hviable, hdot⟩ := (hs.possible i hi).exists_viable hg hnext
  rw [mem_passedOn_iff hg, hviable.rest_item hg hdot] at ht
  rcases ht with hbegins | ⟨hnull, ht⟩
  · exact ⟨[], r.body, .begins hviable hr hbegins, rfl⟩
  · have hon := (hs.possibleOn i t ht).viableOn hg hviable hdot
    exact ⟨[], r.body, .inherits hon hr hnull, rfl⟩

theorem step_within (hg : g.WellFormed) (hc : c.Growing g (.ofGrammar g) k)
    (hs : Within g γ c.items) (h : c.step g (.ofGrammar g) = some d) : Within g γ d.items := by
  obtain ⟨i, rest, _, hi, hgrows⟩ := visit_of_step hc h
  refine ⟨fun j hj => ?_, fun j t ht => ?_⟩
  · rcases hgrows.items j hj with hj | ⟨p, hp, rfl⟩
    · exact hs.possible j hj
    · exact possible_start hg (hs.possible i hi) hp
  · rcases hgrows.lookaheads j t ht with hold | ⟨hnew, p, hp, rfl⟩
    · exact hs.possibleOn j t hold
    · exact possibleOn_start hg hs hi hp hnew

end Closure

/-- The closure of a set has the set and all predictions, and lists nothing impossible unless the
set does. -/
theorem closure?_eq_some (hg : g.WellFormed) (h : closure? g (.ofGrammar g) k = some s) :
    k.Le s ∧ (∀ i ∈ s.items, Settled g (.ofGrammar g) s i) ∧
      ∀ γ, Within g γ k → Within g γ s := by
  obtain ⟨d, ⟨hgrowing, hwithin⟩, hwaiting, rfl⟩ := Closure.run_induction
    (P := fun c => c.Growing g (.ofGrammar g) k ∧ ∀ γ, Within g γ k → Within g γ c.items)
    (fun c d hc hd => ⟨Closure.step_growing hc.1 hd,
      fun γ hk => Closure.step_within hg hc.1 (hc.2 γ hk) hd⟩)
    ⟨Closure.start_growing g _ k, fun γ hk => hk⟩ h
  refine ⟨hgrowing.le, fun i hi => hgrowing.settled i hi ?_, hwithin⟩
  rw [hwaiting]
  exact List.not_mem_nil

/-- The set lists what is possible after some symbols. -/
structure Represents (g : Grammar) (γ : List Symbol) (s : ItemSet) : Prop where
  mem_iff : ∀ i, i ∈ s.items ↔ g.Possible γ i
  lookaheads_iff : ∀ i t, t ∈ s.lookaheads i ↔ g.PossibleOn γ i t

/-- The set lists what is possible after some symbols and was not predicted. -/
structure Kernel (g : Grammar) (γ : List Symbol) (k : ItemSet) : Prop where
  within : Within g γ k
  start : γ = [] → TerminalId.eoi ∈ k.lookaheads (.start .accept)
  items : ∀ δ X i, γ = δ ++ [X] → g.Possible δ i → i.next g = some X → i.advance ∈ k.items
  lookaheads : ∀ δ X i t, γ = δ ++ [X] → g.PossibleOn δ i t → i.next g = some X →
    t ∈ k.lookaheads i.advance

section Complete

variable {i : Item} {p : ProductionId} {α β : List Symbol} {t : TerminalId}

theorem mem_items_of_viable (hg : g.WellFormed) (hk : Kernel g γ k) (hle : k.Le s)
    (hs : ∀ i ∈ s.items, Settled g first s i) (h : g.Viable γ p α β) :
    ∀ i : Item, i.production = p → α.length = i.dot.toNat → i ∈ s.items := by
  induction h with
  | start =>
      intro i hp hdot
      have hi : i = .start .accept := Item.ext_of_toNat hp hdot.symm
      exact hi ▸ hle.items _ (ItemSet.mem_items_of_mem_lookaheads (hk.start rfl))
  | advance h _ =>
      rintro i rfl hdot
      obtain ⟨j, hproduction, hj, hnext, rfl⟩ := h.exists_before hg hdot
      exact hle.items _ (hk.items _ _ j rfl ⟨_, _, hproduction ▸ h, hj⟩ hnext)
  | @predict γ α β p q r h hr ih =>
      rintro i rfl hdot
      obtain ⟨hj, hpossible⟩ := h.possible hg
      let j : Item := ⟨p, UInt16.ofNat α.length⟩
      have hmem : j ∈ s.items := ih hk j rfl hj.symm
      have hnext : j.next g = some (.nonterminal r.head) :=
        Viable.next_item (i := j) hg h hj.symm
      have hi : i = .start i.production := Item.ext_of_toNat rfl hdot.symm
      rw [hi]
      exact (hs j hmem _ (mem_predictions.mpr ⟨r, hnext, hr⟩)).1

theorem mem_lookaheads_of_viableOn (hg : g.WellFormed) (hk : Kernel g γ k) (hle : k.Le s)
    (hs : ∀ i ∈ s.items, Settled g (.ofGrammar g) s i) (h : g.ViableOn γ p α β t) :
    ∀ i : Item, i.production = p → α.length = i.dot.toNat → t ∈ s.lookaheads i := by
  have hpredict : ∀ {γ α β p q r t}, Kernel g γ k → g.Viable γ p α (.nonterminal r.head :: β) →
      g.productions[q]? = some r →
      (∀ j : Item, j.production = p → α.length = j.dot.toNat →
        g.Begins β t ∨ g.Nullable β ∧ t ∈ s.lookaheads j) → t ∈ s.lookaheads (.start q) := by
    intro γ α β p q r t hk h hr hpassed
    obtain ⟨hj, _⟩ := h.possible hg
    let j : Item := ⟨p, UInt16.ofNat α.length⟩
    have hmem : j ∈ s.items := mem_items_of_viable hg hk hle hs h j rfl hj.symm
    have hnext : j.next g = some (.nonterminal r.head) := Viable.next_item (i := j) hg h hj.symm
    refine (hs j hmem _ (mem_predictions.mpr ⟨r, hnext, hr⟩)).2 t ?_
    rw [Closure.mem_passedOn_iff hg, Viable.rest_item (i := j) hg h hj.symm]
    exact hpassed j rfl hj.symm
  induction h with
  | start =>
      intro i hp hdot
      have hi : i = .start .accept := Item.ext_of_toNat hp hdot.symm
      exact hi ▸ hle.lookaheads _ _ (hk.start rfl)
  | advance h _ =>
      rintro i rfl hdot
      obtain ⟨j, hproduction, hj, hnext, rfl⟩ := h.viable.exists_before hg hdot
      exact hle.lookaheads _ _ (hk.lookaheads _ _ j _ rfl ⟨_, _, hproduction ▸ h, hj⟩ hnext)
  | begins h hr hbegins =>
      rintro i rfl hdot
      have hi : i = .start i.production := Item.ext_of_toNat rfl hdot.symm
      rw [hi]
      exact hpredict hk h hr fun _ _ _ => Or.inl hbegins
  | inherits h hr hnull ih =>
      rintro i rfl hdot
      have hi : i = .start i.production := Item.ext_of_toNat rfl hdot.symm
      rw [hi]
      exact hpredict hk h.viable hr fun j hp hj => Or.inr ⟨hnull, ih hk j hp hj⟩

end Complete

/-- The closure of a kernel lists all that is possible. -/
theorem represents_closure? (hg : g.WellFormed) (hk : Kernel g γ k)
    (h : closure? g (.ofGrammar g) k = some s) : Represents g γ s := by
  obtain ⟨hle, hsettled, hwithin⟩ := closure?_eq_some hg h
  have hs := hwithin γ hk.within
  refine ⟨fun i => ⟨hs.possible i, ?_⟩, fun i t => ⟨hs.possibleOn i t, ?_⟩⟩
  · rintro ⟨α, β, hviable, hdot⟩
    exact mem_items_of_viable hg hk hle hsettled hviable i rfl hdot
  · rintro ⟨α, β, hviable, hdot⟩
    exact mem_lookaheads_of_viableOn hg hk hle hsettled hviable i rfl hdot

theorem kernel_initial (g : Grammar) : Kernel g [] initial := by
  have hitems : ∀ i, i ∈ initial.items ↔ i = .start .accept := by
    intro i
    simp [initial, ItemSet.mem_items_ofList, eq_comm]
  have hlookaheads : ∀ i t, t ∈ initial.lookaheads i ↔ i = .start .accept ∧ t = .eoi := by
    intro i t
    simp [initial, ItemSet.mem_lookaheads_ofList, eq_comm]
  refine ⟨⟨fun i hi => ?_, fun i t ht => ?_⟩, fun _ => ?_, ?_, ?_⟩
  · cases (hitems i).mp hi
    exact ⟨[], _, .start, rfl⟩
  · obtain ⟨rfl, rfl⟩ := (hlookaheads i t).mp ht
    exact ⟨[], _, .start, rfl⟩
  · exact (hlookaheads _ _).mpr ⟨rfl, rfl⟩
  · exact fun δ X i h =>
      absurd h.symm (List.append_ne_nil_of_right_ne_nil δ (List.cons_ne_nil X []))
  · exact fun δ X i t h =>
      absurd h.symm (List.append_ne_nil_of_right_ne_nil δ (List.cons_ne_nil X []))

/-- What is possible after one more symbol is found by moving the dots over it. -/
theorem Represents.kernel (hg : g.WellFormed) (h : Represents g γ s) (X : Symbol) :
    Kernel g (γ ++ [X]) (s.kernel g X) := by
  refine ⟨⟨fun j hj => ?_, fun j t ht => ?_⟩, fun hnil => ?_, ?_, ?_⟩
  · obtain ⟨i, hi, hnext, rfl⟩ := ItemSet.mem_items_kernel.mp hj
    exact ((h.mem_iff i).mp hi).advance hg hnext
  · obtain ⟨i, hon, hnext, rfl⟩ := ItemSet.mem_lookaheads_kernel.mp ht
    exact ((h.lookaheads_iff i t).mp hon).advance hg hnext
  · exact absurd hnil (List.append_ne_nil_of_right_ne_nil γ (List.cons_ne_nil X []))
  · intro δ Y i heq hi hnext
    obtain ⟨rfl, rfl⟩ := List.append_singleton_inj.mp heq
    exact ItemSet.mem_items_kernel.mpr ⟨i, (h.mem_iff i).mpr hi, hnext, rfl⟩
  · intro δ Y i t heq ht hnext
    obtain ⟨rfl, rfl⟩ := List.append_singleton_inj.mp heq
    exact ItemSet.mem_lookaheads_kernel.mpr ⟨i, (h.lookaheads_iff i t).mpr ht, hnext, rfl⟩

end Lr1

end ParserForge

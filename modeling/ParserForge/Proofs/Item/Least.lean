import Mathlib
import ParserForge.Proofs.Grammar.Beginning
import ParserForge.Proofs.Item.Ending

/-!
The closure as a least solution.  What items predict, and the lookaheads that they pass on, are
constraints on item sets, and there is a least set that has the given items and satisfies them.
After some steps a closure has that set, whether it ends or not, since then nothing is gained any
more.  From then on, only items without lookaheads are put back into the queue, so the closure ends
unless these predict each other in a circle.
-/

namespace ParserForge

namespace Lr1

open Grammar

variable {g : Grammar} {k s r : ItemSet} {i j : Item} {γ : List Symbol} {n : Nat}

/-- An item predicts the starts of the productions of the nonterminal behind its dot. -/
def Predicts (g : Grammar) (i j : Item) : Prop :=
  ∃ p r, i.next g = some (.nonterminal r.head) ∧ g.productions[p]? = some r ∧ j = .start p

/-- The set has the items of the set `k` and what its items predict.  A predicted item has the
terminals that can begin the rest of the body behind the nonterminal and, if that rest derives the
empty word, the lookaheads of the item that predicts it. -/
structure Solves (g : Grammar) (k s : ItemSet) : Prop where
  le : k.Le s
  items : ∀ i ∈ s.items, ∀ j, Predicts g i j → j ∈ s.items
  begins : ∀ i ∈ s.items, ∀ j, Predicts g i j →
    ∀ t δ, g.Derives (i.rest g) (.terminal t :: δ) → t ∈ s.lookaheads j
  inherits : ∀ i ∈ s.items, ∀ j, Predicts g i j →
    g.Derives (i.rest g) [] → ∀ t ∈ s.lookaheads i, t ∈ s.lookaheads j

/-- The set has no more than it needs. -/
structure Least (g : Grammar) (k s : ItemSet) : Prop where
  solves : Solves g k s
  le : ∀ r, Solves g k r → s.Le r

/-- The item of the set has no lookaheads. -/
def Bare (s : ItemSet) (i : Item) : Prop := i ∈ s.items ∧ ∀ t, t ∉ s.lookaheads i

/-- Items of the set without lookaheads predict each other in a circle. -/
def Circular (g : Grammar) (s : ItemSet) : Prop :=
  ∃ i, Relation.TransGen (fun i j => Predicts g i j ∧ Bare s j) i i

/-- Every item of the set has a lookahead. -/
def Filled (s : ItemSet) : Prop := ∀ i ∈ s.items, ∃ t, t ∈ s.lookaheads i

theorem Least.unique (hs : Least g k s) (hr : Least g k r) : s = r :=
  (hs.le r hr.solves).antisymm (hr.le s hs.solves)

theorem predicts_iff : Predicts g i j ↔ ∃ p ∈ predictions g i, j = .start p := by
  simp only [Predicts, mem_predictions]
  tauto

/-- The constraints are met by the sets whose items have their predictions. -/
theorem solves_iff (hg : g.WellFormed) :
    Solves g k s ↔ k.Le s ∧ ∀ i ∈ s.items, Settled g (.ofGrammar g) s i := by
  constructor
  · intro h
    refine ⟨h.le, fun i hi p hp => ?_⟩
    have hpredicts : Predicts g i (.start p) := predicts_iff.mpr ⟨p, hp, rfl⟩
    refine ⟨h.items i hi _ hpredicts, fun t ht => ?_⟩
    rcases (Closure.mem_passedOn_iff hg).mp ht with hbegins | ⟨hnull, ht⟩
    · obtain ⟨δ, hδ⟩ := hbegins.derives
      exact h.begins i hi _ hpredicts t δ hδ
    · exact h.inherits i hi _ hpredicts (nullable_iff.mp hnull) t ht
  · rintro ⟨hle, hsettled⟩
    have hstart : ∀ i ∈ s.items, ∀ j, Predicts g i j → j ∈ s.items ∧
        ∀ t, g.Begins (i.rest g) t ∨ g.Nullable (i.rest g) ∧ t ∈ s.lookaheads i →
          t ∈ s.lookaheads j := by
      intro i hi j hj
      obtain ⟨p, hp, rfl⟩ := predicts_iff.mp hj
      obtain ⟨hitem, hall⟩ := hsettled i hi p hp
      exact ⟨hitem, fun t ht => hall t ((Closure.mem_passedOn_iff hg).mpr ht)⟩
    refine ⟨hle, fun i hi j hj => (hstart i hi j hj).1, fun i hi j hj t δ hδ => ?_,
      fun i hi j hj hnull t ht => ?_⟩
    · exact (hstart i hi j hj).2 t (Or.inl hδ.begins)
    · exact (hstart i hi j hj).2 t (Or.inr ⟨nullable_iff.mpr hnull, ht⟩)

namespace Closure

variable {c d : Closure}

/-- A step finds nothing that is not in every solution. -/
theorem step_le (hg : g.WellFormed) (hc : c.Growing g (.ofGrammar g) k) (hr : Solves g k r)
    (hle : c.items.Le r) (h : c.step g (.ofGrammar g) = some d) : d.items.Le r := by
  obtain ⟨i, _, _, hi, hgrows⟩ := visit_of_step hc h
  have hsettled := ((solves_iff hg).mp hr).2 i (hle.items i hi)
  refine ⟨fun j hj => ?_, fun j t ht => ?_⟩
  · rcases hgrows.items j hj with hold | ⟨p, hp, rfl⟩
    · exact hle.items j hold
    · exact (hsettled p hp).1
  · rcases hgrows.lookaheads j t ht with hold | ⟨hnew, p, hp, rfl⟩
    · exact hle.lookaheads j t hold
    · exact (hsettled p hp).2 t (mem_passedOn_of_subset (hle.lookaheads i) hnew)

/-- A closure that gains nothing any more is settled: the items that still wait are visited, too. -/
theorem settled_of_quiet (hc : c.Bounded g k)
    (hquiet : ∀ n, Quiet g (.ofGrammar g) c.items c.queue.waiting n) :
    ∀ i ∈ c.items.items, Settled g (.ofGrammar g) c.items i := by
  intro i hi
  by_cases hwaits : i ∈ c.queue.waiting
  · -- it will be visited, and even then nothing is gained
    obtain ⟨m, _, hhead⟩ := Turns.exists_head_turns (n := 0)
      (putsBack_subset (s := c.items)) hc.waits hwaits
    have hsame : visited g (.ofGrammar g) c.items i = c.items :=
      hquiet (m + 1) m (Nat.lt_succ_self m) i hhead
    let idle : Closure := ⟨c.items, .empty⟩
    have hgrows : Grows (passedOn g (.ofGrammar g) idle.items i) (predictions g i) idle
        (idle.visit g (.ofGrammar g) i) := visit_grows WorkQueue.empty_consistent i
    have hvisit : (idle.visit g (.ofGrammar g) i).items = c.items :=
      (items_visit idle i).trans hsame
    intro p hp
    have hreached := hgrows.reached p hp
    rw [hvisit] at hreached
    exact hreached
  · exact hc.growing.settled i hi hwaits

/-- After some steps, a closure has the least solution and gains nothing any more. -/
theorem exists_least (hg : g.WellFormed) (k : ItemSet) :
    ∃ n c, (start k).after g (.ofGrammar g) n = some c ∧ c.Bounded g k ∧
      (∀ n, Quiet g (.ofGrammar g) c.items c.queue.waiting n) ∧ Least g k c.items := by
  obtain ⟨n, _, c, hafter, hquiet⟩ := exists_quiet hg (start_bounded g k)
  obtain ⟨hc, hbelow⟩ := after_induction
    (P := fun c => c.Bounded g k ∧ ∀ r, Solves g k r → c.items.Le r)
    (fun c d hc hd => ⟨step_bounded hg hc.1 hd,
      fun r hr => step_le hg hc.1.growing hr (hc.2 r hr) hd⟩)
    ⟨start_bounded g k, fun r hr => hr.le⟩ hafter
  have hsolves := (solves_iff hg).mpr ⟨hc.growing.le, settled_of_quiet hc hquiet⟩
  exact ⟨n, c, hafter, hc, hquiet, hsolves, hbelow⟩

/-- From then on, it ends if and only if the work of its queue does. -/
theorem closes_iff_of_after {c : Closure} (hafter : (start k).after g (.ofGrammar g) n = some c)
    (hc : c.Bounded g k) (hquiet : ∀ n, Quiet g (.ofGrammar g) c.items c.queue.waiting n) :
    Closes g k r ↔
      r = c.items ∧ ∃ n, (Turns.turn (putsBack g c.items))^[n] c.queue.waiting = [] := by
  rw [← exists_run_iff_of_quiet hc.at_self hquiet]
  constructor
  · rintro ⟨m, hm⟩
    refine ⟨m, ?_⟩
    rw [← run_after hafter]
    exact run_mono hm (Nat.le_add_left m n)
  · rintro ⟨m, hm⟩
    exact ⟨n + m, by rw [run_after hafter, hm]⟩

theorem mem_putsBack : j ∈ putsBack g s i ↔ Predicts g i j ∧ ∀ t, t ∉ s.lookaheads j := by
  simp only [putsBack, List.mem_map, List.mem_filter, TerminalSet.isEmpty_iff, predicts_iff]
  constructor
  · rintro ⟨p, ⟨hp, hbare⟩, rfl⟩
    exact ⟨⟨p, hp, rfl⟩, hbare⟩
  · rintro ⟨⟨p, hp, rfl⟩, hbare⟩
    exact ⟨p, ⟨hp, hbare⟩, rfl⟩

/-- Without a circle of items without lookaheads, the work comes to its end. -/
theorem exists_turns_eq_nil_of_least (hc : c.Growing g (.ofGrammar g) k)
    (hleast : Least g k c.items) (h : ¬ Circular g c.items) :
    ∃ n, (Turns.turn (putsBack g c.items))^[n] c.queue.waiting = [] := by
  have hout : ∀ i ∈ c.items.items.toFinset, ∀ j ∈ putsBack g c.items i,
      j ∈ c.items.items.toFinset := by
    intro i hi j hj
    rw [List.mem_toFinset] at hi ⊢
    exact hleast.solves.items i hi j (mem_putsBack.mp hj).1
  have hwaits : Turns.Waits c.items.items.toFinset c.queue.waiting :=
    ⟨hc.consistent.nodup, fun i hi => List.mem_toFinset.mpr (hc.waiting i hi)⟩
  refine Turns.exists_turns_eq_nil hout hwaits fun i hcycle => h ⟨i, ?_⟩
  refine Relation.TransGen.mono ?_ i i hcycle
  rintro i j ⟨hi, hj⟩
  exact ⟨(mem_putsBack.mp hj).1, List.mem_toFinset.mp (hout i hi j hj), (mem_putsBack.mp hj).2⟩

/-- Where each item of a circle predicts another one without lookaheads, one of them always waits
once the set has one. -/
theorem step_circling {C : Item → Prop} (hC : ∀ i, C i → ∃ j, C j ∧ Predicts g i j ∧ Bare s j)
    (hc : c.Growing g (.ofGrammar g) k) (h : c.step g (.ofGrammar g) = some d)
    (hle : d.items.Le s) (hwaits : (∃ j ∈ c.items.items, C j) → ∃ j ∈ c.queue.waiting, C j) :
    (∃ j ∈ d.items.items, C j) → ∃ j ∈ d.queue.waiting, C j := by
  obtain ⟨i, rest, hwaiting, _, hgrows⟩ := visit_of_step hc h
  rintro ⟨j, hj, hCj⟩
  by_cases hCi : C i
  · obtain ⟨l, hCl, hpredicts, _, hbare⟩ := hC i hCi
    obtain ⟨p, hp, rfl⟩ := predicts_iff.mp hpredicts
    exact ⟨_, hgrows.bare p hp fun t ht => hbare t (hle.lookaheads _ t ht), hCl⟩
  · by_contra hnone
    push Not at hnone
    have hnot : j ∉ d.queue.waiting := fun hmem => hnone j hmem hCj
    obtain ⟨l, hl, hCl⟩ := hwaits ⟨j, (hgrows.unchanged j hnot).2.1 hj, hCj⟩
    rw [hwaiting, List.mem_cons] at hl
    rcases hl with rfl | hl
    · exact hCi hCl
    · exact (hgrows.unchanged l fun hmem => hnone l hmem hCl).1 hl

/-- A closure that ends has no circle of items without lookaheads. -/
theorem not_circular_of_closes (hg : g.WellFormed) (hs : Least g k s) (h : Closes g k s) :
    ¬ Circular g s := by
  rintro ⟨i, hcycle⟩
  -- the items without lookaheads from which the circle is reached, those of the circle among them
  let C : Item → Prop := fun j => Relation.ReflTransGen (fun i j => Predicts g i j ∧ Bare s j) j i
  have hC : ∀ j, C j → ∃ l, C l ∧ Predicts g j l ∧ Bare s l := by
    intro j hj
    obtain ⟨l, hl, hrest⟩ := Relation.TransGen.head'_iff.mp (.trans_right hj hcycle)
    exact ⟨l, hrest, hl⟩
  obtain ⟨n, hn⟩ := h
  obtain ⟨d, ⟨_, _, hwaits⟩, hnil, rfl⟩ := run_induction
    (P := fun c => c.Growing g (.ofGrammar g) k ∧ c.items.Le s ∧
      ((∃ j ∈ c.items.items, C j) → ∃ j ∈ c.queue.waiting, C j))
    (fun c d hc hd =>
      have hle := step_le hg hc.1 hs.solves hc.2.1 hd
      ⟨step_growing hc.1 hd, hle, step_circling hC hc.1 hd hle hc.2.2⟩)
    ⟨start_growing g _ k, hs.solves.le, fun ⟨j, hj, hCj⟩ =>
      ⟨j, ((WorkQueue.ofList_consistent k.items).2 j).mpr hj, hCj⟩⟩ hn
  obtain ⟨_, _, _, hbare⟩ := Relation.TransGen.tail'_iff.mp hcycle
  obtain ⟨j, hj, _⟩ := hwaits ⟨i, hbare.1, .refl⟩
  rw [hnil] at hj
  cases hj

end Closure

/-- The closure ends if and only if the least solution has no circle of items without lookaheads,
and then it is the least solution. -/
theorem Least.closes_iff (hg : g.WellFormed) (hs : Least g k s) :
    Closes g k r ↔ r = s ∧ ¬ Circular g s := by
  obtain ⟨n, c, hafter, hc, hquiet, hleast⟩ := Closure.exists_least hg k
  obtain rfl : s = c.items := hs.unique hleast
  have hends := Closure.closes_iff_of_after (r := r) hafter hc hquiet
  constructor
  · intro h
    obtain rfl := (hends.mp h).1
    exact ⟨rfl, Closure.not_circular_of_closes hg hs h⟩
  · rintro ⟨rfl, h⟩
    exact hends.mpr ⟨rfl, Closure.exists_turns_eq_nil_of_least hc.growing hs h⟩

/-- What the set has and the steps of its closure preserve, the least solution has. -/
theorem Least.induction (hg : g.WellFormed) (hs : Least g k s) {P : ItemSet → Prop} (hk : P k)
    (hstep : ∀ c d : Closure, c.Growing g (.ofGrammar g) k → c.items.Le s →
      c.step g (.ofGrammar g) = some d → P c.items → P d.items) : P s := by
  obtain ⟨n, c, hafter, _, _, hleast⟩ := Closure.exists_least hg k
  obtain rfl : s = c.items := hs.unique hleast
  obtain ⟨_, _, hP⟩ := Closure.after_induction
    (P := fun b => b.Growing g (.ofGrammar g) k ∧ b.items.Le c.items ∧ P b.items)
    (fun b d hb hd => ⟨Closure.step_growing hb.1 hd,
      Closure.step_le hg hb.1 hs.solves hb.2.1 hd, hstep b d hb.1 hb.2.1 hd hb.2.2⟩)
    ⟨Closure.start_growing g _ k, hs.solves.le, hk⟩ hafter
  exact hP

theorem Least.within (hg : g.WellFormed) (hs : Least g k s) (hk : Within g γ k) :
    Within g γ s :=
  hs.induction hg hk fun _ _ hc _ hd hwithin => Closure.step_within hg hc hwithin hd

/-- If something can begin what stands behind each predicted nonterminal, or nothing need stand
there, the predicted items have lookaheads where the given ones do. -/
theorem Least.filled (hg : g.WellFormed) (hs : Least g k s) (hk : Filled k)
    (hrest : ∀ i ∈ s.items, ∀ j, Predicts g i j →
      (∃ t, g.Begins (i.rest g) t) ∨ g.Nullable (i.rest g)) : Filled s := by
  refine hs.induction hg hk fun c d hc hle hd hfilled j hj => ?_
  obtain ⟨i, _, _, hi, hgrows⟩ := Closure.visit_of_step hc hd
  rcases hgrows.items j hj with hold | ⟨p, hp, rfl⟩
  · obtain ⟨t, ht⟩ := hfilled j hold
    exact ⟨t, hgrows.le.lookaheads j t ht⟩
  · obtain ⟨t, ht⟩ : ∃ t, t ∈ Closure.passedOn g (.ofGrammar g) c.items i := by
      simp only [Closure.mem_passedOn_iff hg]
      rcases hrest i (hle.items i hi) _ (predicts_iff.mpr ⟨p, hp, rfl⟩) with ⟨t, ht⟩ | hnull
      · exact ⟨t, Or.inl ht⟩
      · obtain ⟨t, ht⟩ := hfilled i hi
        exact ⟨t, Or.inr ⟨hnull, ht⟩⟩
    exact ⟨t, (hgrows.reached p hp).2 t ht⟩

/-- If nothing can begin what stands behind a predicted nonterminal, only lookaheads of the given
items are passed on. -/
theorem Least.lookaheads_empty (hg : g.WellFormed) (hs : Least g k s)
    (hk : ∀ i t, t ∉ k.lookaheads i)
    (hrest : ∀ i j, Predicts g i j → ∀ t, ¬ g.Begins (i.rest g) t) : ∀ i t, t ∉ s.lookaheads i := by
  refine hs.induction hg (P := fun s => ∀ i t, t ∉ s.lookaheads i) hk
    fun c d hc _ hd hempty j t ht => ?_
  obtain ⟨i, _, _, _, hgrows⟩ := Closure.visit_of_step hc hd
  rcases hgrows.lookaheads j t ht with hold | ⟨hnew, p, hp, rfl⟩
  · exact hempty j t hold
  · rcases (Closure.mem_passedOn_iff hg).mp hnew with hbegins | ⟨_, hown⟩
    · exact hrest i _ (predicts_iff.mpr ⟨p, hp, rfl⟩) t hbegins
    · exact hempty i t hown

/-- Where every item has a lookahead, there is no circle of items without. -/
theorem Filled.not_circular (hs : Filled s) : ¬ Circular g s := by
  rintro ⟨i, hcycle⟩
  obtain ⟨_, _, _, hi, hbare⟩ := Relation.TransGen.tail'_iff.mp hcycle
  obtain ⟨t, ht⟩ := hs i hi
  exact hbare t ht

end Lr1

end ParserForge

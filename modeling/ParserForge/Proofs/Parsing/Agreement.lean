import Mathlib
import ParserForge.Proofs.Item.Ending
import ParserForge.Proofs.Item.Filled
import ParserForge.Proofs.Parsing.Expected
import ParserForge.Proofs.Table.Conflicts

/-!
Parses with different tables agree.  What a precise table does, a faithful one does as well, with the
same symbols on the stack.  Where the precise table refuses a symbol, it cannot come next, so the
other one can only reduce for a while before it refuses the symbol, too.
-/

namespace ParserForge

namespace ParseTable

open Grammar

variable {g : Grammar} {c c' : Collection} {t t' : ParseTable} {γ δ : List Symbol}
  {k k' d d' : Configuration StateId TerminalId ProductionId}
  {out : Except (ParseError StateId) (Derivation ProductionId)}

/-- Two parses have done the same so far, and their stacks spell the same symbols. -/
structure Alike (c c' : Collection) (γ : List Symbol)
    (k k' : Configuration StateId TerminalId ProductionId) : Prop where
  spells : c.Spells k.stack γ
  spells' : c'.Spells k'.stack γ
  rest : k.rest = k'.rest
  index : k.index = k'.index
  steps : k.steps = k'.steps
  reductions : k.reductions = k'.reductions

theorem alike_start (c c' : Collection) (t t' : ParseTable) (w : List TerminalId) :
    Alike c c' [] (t.machine.start w) (t'.machine.start w) :=
  ⟨.bottom, .bottom, rfl, rfl, rfl, rfl⟩

/-- The last symbol on the stack was expected by an item. -/
theorem exists_expected {s : List StateId} {X : Symbol} (hc : c.Canonical g)
    (hs : c.Spells s (γ ++ [X])) : ∃ p α β, g.Viable γ p α (X :: β) := by
  obtain ⟨q, r, stack, rfl, hbelow, hnext⟩ := hs.pop
  obtain ⟨q', stack', heq, hwalk⟩ := hbelow.exists_top
  cases heq
  exact hc.expected γ q hwalk X r hnext

section Simulation

variable (hg : g.WellFormed) (hc : c.Canonical g) (ht : t.Faithful g c)

include hg hc ht

/-- A parse does not take a symbol that cannot come next, and is refused before it unless it goes on
forever. -/
theorem error_of_not_next (hs : c.Spells k.stack γ)
    (hno : ¬ g.Next γ (k.rest.head?.getD .eoi)) (hgoes : t.machine.Goes k d)
    (hd : t.machine.step d = .ended out) : ∃ q, out = .error (.unexpected k.index q) := by
  induction hgoes using Relation.ReflTransGen.head_induction_on generalizing γ with
  | refl =>
      cases out with
      | error e =>
          obtain ⟨q, _, _, _, rfl⟩ := step_refused hg ht hc hs hd
          exact ⟨q, rfl⟩
      | ok e =>
          obtain ⟨heoi, rfl, _⟩ := step_accepted hg ht hs hd
          rw [heoi] at hno
          exact absurd next_eoi hno
  | @head k e hstep _ ih =>
      rcases step_running hg ht hs hstep with
        ⟨a, rest, s, hrest, hnew, rfl⟩ | ⟨p, r, δ, s, top, hr, rfl, _, _, hnew, rfl⟩
      · obtain ⟨p, α, β, hviable⟩ := exists_expected hc hnew
        rw [hrest] at hno
        exact absurd hviable.next hno
      · exact ih hnew fun hnext => hno (hnext.viableOn hr).complete.next

variable (hc' : c'.Canonical g) (ht' : t'.Faithful g c') (hprecise : t'.Precise g c')

include ht'

omit hc in
/-- What is accepted with one faithful table is accepted with the other. -/
theorem Alike.accepted {e : Derivation ProductionId} (h : Alike c c' γ k k')
    (hstep : t'.machine.step k' = .accepted e) : t.machine.step k = .accepted e := by
  obtain ⟨stack, input, index, steps, reductions⟩ := k
  obtain ⟨hs, hs', rfl, rfl, rfl, rfl⟩ := h
  obtain ⟨heoi, rfl, rfl⟩ := step_accepted hg ht' hs' hstep
  obtain ⟨top, below, rfl, hwalk⟩ := hs.exists_top
  have haction := (ht.accept_iff _ top hwalk .eoi).mpr ⟨rfl, _, Viable.start.advance⟩
  rw [← heoi] at haction
  simp [Machine.step, machine, move, haction]

include hc' hprecise

/-- A step with a precise table is one with a faithful table. -/
theorem Alike.step (h : Alike c c' γ k k') (hstep : t'.machine.step k' = .running d') :
    ∃ δ d, Alike c c' δ d d' ∧ t.machine.step k = .running d := by
  obtain ⟨stack, input, index, steps, reductions⟩ := k
  obtain ⟨hs, hs', rfl, rfl, rfl, rfl⟩ := h
  rcases step_running hg ht' hs' hstep with
    ⟨a, rest, s', hrest, hnew', rfl⟩ | ⟨p, r, ε, s', top, hr, rfl, hwalk, haction, hnew', rfl⟩
  · obtain ⟨p, α, β, hviable⟩ := exists_expected hc' hnew'
    obtain ⟨s, hnew, hstep⟩ := step_shift hc ht k'.index k'.steps k'.reductions hs hviable
    refine ⟨_, ⟨s, rest, k'.index + 1, .shift :: k'.steps, k'.reductions⟩,
      ⟨hnew, hnew', rfl, rfl, rfl, rfl⟩, ?_⟩
    rw [hrest]
    exact hstep
  · obtain ⟨α, hcomplete⟩ := hprecise _ top hwalk p _ haction
    obtain ⟨ε', hε, hon⟩ := hcomplete.before
    have hbody := hcomplete.viable.body_eq hg hr
    rw [List.append_nil] at hbody hon
    rw [← hbody] at hε hon
    obtain rfl := List.append_cancel_right hε
    obtain ⟨q, α', β, hexpected⟩ := exists_expected hc' hnew'
    obtain ⟨hp, _⟩ := ht'.viable _ top hwalk p _ haction
    obtain ⟨s, hnew, hstep⟩ :=
      step_reduce hc ht k'.index k'.steps k'.reductions hs hr hon hp hexpected
    exact ⟨_, ⟨s, k'.rest, k'.index, .reduce r.body.length :: k'.steps, p :: k'.reductions⟩,
      ⟨hnew, hnew', rfl, rfl, rfl, rfl⟩, hstep⟩

theorem Alike.goes (h : Alike c c' γ k k') (hgoes : t'.machine.Goes k' d') :
    ∃ δ d, Alike c c' δ d d' ∧ t.machine.Goes k d := by
  induction hgoes with
  | refl => exact ⟨γ, k, h, .refl⟩
  | tail _ hstep ih =>
      obtain ⟨δ, d, hd, hgoes⟩ := ih
      obtain ⟨ε, e, he, hstep⟩ := hd.step hg hc ht hc' ht' hprecise hstep
      exact ⟨ε, e, he, hgoes.tail hstep⟩

/-- What is accepted with a precise table is accepted with a faithful one. -/
theorem parse?_of_accepted {w : List TerminalId} {d : Derivation ProductionId}
    (h : t'.parse? w = some (.ok d)) : t.parse? w = some (.ok d) := by
  obtain ⟨k', hgoes', haccepted⟩ := (parse?_eq_some_iff_goes t' w _).mp h
  obtain ⟨δ, k, hk, hgoes⟩ := (alike_start c c' t t' w).goes hg hc ht hc' ht' hprecise hgoes'
  exact (parse?_eq_some_iff_goes t w _).mpr ⟨k, hgoes, hk.accepted hg ht ht' haccepted⟩

/-- What is refused with a precise table is not accepted with a faithful one, and if it is refused
there, then before the same symbol. -/
theorem error_of_refused {w : List TerminalId} {e : ParseError StateId}
    (h : t'.parse? w = some (.error e)) (hout : t.parse? w = some out) :
    ∃ i q q', out = .error (.unexpected i q) ∧ e = .unexpected i q' := by
  obtain ⟨k', hgoes', hrefused⟩ := (parse?_eq_some_iff_goes t' w _).mp h
  obtain ⟨δ, k, hk, hgoes⟩ := (alike_start c c' t t' w).goes hg hc ht hc' ht' hprecise hgoes'
  obtain ⟨q', _, htop, hnone, rfl⟩ := step_refused hg ht' hc' hk.spells' hrefused
  have hno : ¬ g.Next δ (k.rest.head?.getD .eoi) := by
    rw [hk.rest]
    intro hnext
    exact not_takes_of_action htop hnone (takes_of_next hg hc' ht' hnext hk.spells')
  obtain ⟨d, hgoes_d, hd⟩ := (parse?_eq_some_iff_goes t w out).mp hout
  have hlater : t.machine.Goes k d := Machine.goes_of_ended hgoes_d hd hgoes
  obtain ⟨q, rfl⟩ := error_of_not_next hg hc ht hk.spells hno hlater hd
  exact ⟨k.index, q, q', rfl, by rw [hk.index]⟩

end Simulation

/-- With a precise table, every parse has an outcome. -/
theorem exists_parse? (hg : g.WellFormed) (hc : c.Canonical g) (ht : t.Faithful g c)
    (hprecise : t.Precise g c) (w : List TerminalId) : ∃ out, t.parse? w = some out := by
  obtain ⟨n, out, hn⟩ := exists_run hg ht (settles_of_precise hg hc ht hprecise)
    (k := t.machine.start w) (γ := []) .bottom
  exact ⟨out, (parse?_eq_some_iff t w out).mpr ⟨n, hn⟩⟩

/-- If the LR(1) construction comes to its end and there is an SLR(1) table, there is an LR(1) table.
Whenever a parse with the first has an outcome, the one with the second has the same, apart from the
state in which it refuses; and what is accepted with the second is accepted with the first. -/
theorem parse?_agree {ds : List Declaration} (hg : Grammar.define ds = .ok g)
    (hends : Lr1.Terminates g) (ht : generate g .slr1 = .ok t) :
    ∃ t', generate g .lr1 = .ok t' ∧ ∀ w,
      (∀ out, t.parse? w = some out →
        (∃ d, out = .ok d ∧ t'.parse? w = some (.ok d)) ∨
        ∃ i q q', out = .error (.unexpected i q) ∧
          t'.parse? w = some (.error (.unexpected i q'))) ∧
      ∀ d, t'.parse? w = some (.ok d) → t.parse? w = some (.ok d) := by
  have hwf := wellFormed_of_define hg
  obtain ⟨c, hc, ht, _⟩ := faithful_generate hwf ht
  obtain ⟨_, hcollection⟩ := (Lr1.terminates_iff hwf).mp hends
  obtain ⟨t', hgenerate⟩ := exists_generate_lr1 hwf hc ht hcollection
  obtain ⟨c', hc', ht', hprecise⟩ := faithful_generate hwf hgenerate
  have hprecise := hprecise rfl
  refine ⟨t', hgenerate, fun w => ?_⟩
  have hok : ∀ d, t'.parse? w = some (.ok d) → t.parse? w = some (.ok d) :=
    fun d hd => parse?_of_accepted hwf hc ht hc' ht' hprecise hd
  refine ⟨fun out hout => ?_, hok⟩
  obtain ⟨out', hout'⟩ := exists_parse? hwf hc' ht' hprecise w
  cases out' with
  | ok d =>
      rw [hok d hout'] at hout
      cases hout
      exact Or.inl ⟨d, rfl, hout'⟩
  | error e =>
      obtain ⟨i, q, q', rfl, rfl⟩ := error_of_refused hwf hc ht hc' ht' hprecise hout' hout
      exact Or.inr ⟨i, q, q', rfl, hout'⟩

end ParseTable

theorem ParseTable.parse?_agree_nested : Lr1.Terminates Nested.grammar ∧
    ∃ t', ParseTable.generate Nested.grammar .lr1 = .ok t' ∧ ∀ w,
      (∀ out, Nested.slrTable.parse? w = some out →
        (∃ d, out = .ok d ∧ t'.parse? w = some (.ok d)) ∨
        ∃ i q q', out = .error (.unexpected i q) ∧
          t'.parse? w = some (.error (.unexpected i q'))) ∧
      ∀ d, t'.parse? w = some (.ok d) → Nested.slrTable.parse? w = some (.ok d) :=
  ⟨Nested.terminates,
    parse?_agree Nested.define_declarations Nested.terminates Nested.generate_slr1⟩

end ParserForge

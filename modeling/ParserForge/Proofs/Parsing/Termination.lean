import Mathlib
import ParserForge.Proofs.Item.Next
import ParserForge.Proofs.Parsing.Completeness

/-!
Parses come to their end.  Where a terminal can come next, the reductions before it are those of
trees without leaves, and of the productions that these complete; then it is taken.  A precise
table reduces only before such terminals.  The other tables may reduce before a terminal that cannot
come next, but then they do the same before one that can, if there always is one.
-/

namespace ParserForge

namespace ParseTable

open Grammar

variable {g : Grammar} {c : Collection} {t : ParseTable} {s s' : List StateId}
  {γ α β δ : List Symbol} {p : ProductionId} {r : Production} {a : TerminalId} {n : Nat}

/-- At the end of the input, the table reduces as before the end as a terminal. -/
theorem reduceSteps_getD (t : ParseTable) (l : Option TerminalId) (n : Nat) (s : List StateId) :
    t.machine.reduceSteps l n s = t.machine.reduceSteps (some (l.getD .eoi)) n s := by
  have hstep : ∀ s, t.machine.reduceStep l s = t.machine.reduceStep (some (l.getD .eoi)) s :=
    fun _ => rfl
  induction n generalizing s with
  | zero => rfl
  | succ n ih =>
      rw [Machine.reduceSteps, Machine.reduceSteps, hstep]
      simp only [ih]

section Rows

variable (hg : g.WellFormed) (hc : c.Canonical g) (ht : t.Faithful g c)

include hg ht in
/-- A reduction replaces the body of a production by its head. -/
theorem spells_reduceStep (hs : c.Spells s γ) (h : t.machine.reduceStep (some a) s = some s') :
    ∃ p r δ top, g.productions[p]? = some r ∧ γ = δ ++ r.body ∧ c.walk γ = some top ∧
      t.action top a = some (.reduce p) ∧ c.Spells s' (δ ++ [.nonterminal r.head]) := by
  let k : Configuration StateId TerminalId ProductionId := ⟨s, [a], 0, [], []⟩
  obtain ⟨k', hstep, rfl, hrest⟩ := Machine.step_of_reduceStep (c := k) h
  rcases step_running hg ht (k := k) hs hstep with
    ⟨b, rest, s₁, heq, _, rfl⟩ | ⟨p, r, δ, s₁, top, hr, hγ, hwalk, haction, hs₁, rfl⟩
  · cases heq
    cases hrest
  · exact ⟨p, r, δ, top, hr, hγ, hwalk, haction, hs₁⟩

include hg ht in
theorem spells_reduceSteps (hs : c.Spells s γ)
    (h : t.machine.reduceSteps (some a) n s = some s') : ∃ γ', c.Spells s' γ' := by
  induction n generalizing s γ with
  | zero =>
      cases h
      exact ⟨γ, hs⟩
  | succ n ih =>
      obtain ⟨s₁, hfirst, hrest⟩ := Option.bind_eq_some_iff.mp h
      obtain ⟨_, _, _, _, _, _, _, _, hs₁⟩ := spells_reduceStep hg ht hs hfirst
      exact ih hs₁ hrest

include hg hc ht

/-- A production whose body stands on the stack is reduced before what can stand behind it. -/
theorem reduceStep_of_viableOn (hs : c.Spells s (γ ++ r.body)) (hr : g.productions[p]? = some r)
    (h : g.ViableOn γ p [] r.body a) {q : ProductionId}
    (hq : g.Viable γ q α (.nonterminal r.head :: β)) :
    ∃ s', c.Spells s' (γ ++ [.nonterminal r.head]) ∧
      t.machine.reduceStep (some a) s = some s' := by
  obtain ⟨s', hs', hstep⟩ :=
    step_reduce (v := [a]) hc ht 0 [] [] hs hr h (hq.ne_accept hg hr) hq
  rcases Machine.step_cases hstep with ⟨hreduce, _⟩ | hrest
  · exact ⟨s', hs', hreduce⟩
  · simp at hrest

/-- Where an item expects nullable symbols, reductions put them on the stack. -/
theorem reduceSteps_of_nullable (hδ : g.Nullable δ) (hs : c.Spells s γ)
    (h : g.ViableOn γ p α δ a) :
    ∃ n s', c.Spells s' (γ ++ δ) ∧ t.machine.reduceSteps (some a) n s = some s' := by
  obtain ⟨ps, hps⟩ := hδ
  obtain ⟨s', steps, hs', hgoes⟩ := goes_of_yields hg hc ht hps (v := [a]) 0 [] [] hs h
  obtain ⟨n, hn⟩ := Machine.reduceSteps_of_goes hgoes rfl
  exact ⟨n, s', hs', hn⟩

/-- A terminal that an item expects is taken, after reductions. -/
theorem takes_of_begins (hβ : g.Begins β a) :
    ∀ {γ α p s}, g.Viable γ p α β → c.Spells s γ → t.machine.Takes (some a) s := by
  induction hβ with
  | leaf a δ =>
      intro γ α p s h hs
      obtain ⟨top, stack, rfl, hwalk⟩ := hs.exists_top
      obtain ⟨next, hnext⟩ := hc.next γ top hwalk p α _ _ h
      have haction := (ht.shift_iff top a next).mpr hnext
      apply Machine.Takes.of_action rfl
      exact Or.inl ⟨next, by simp [machine, move, haction]⟩
  | node δ hr _ ih => exact fun h hs => ih (.predict h hr) hs
  | @skip m δ a hnull hrest ih =>
      intro γ α p s h hs
      obtain ⟨ps, hps⟩ := hnull
      generalize hw : ([] : List TerminalId) = w at hps
      cases hps with
      | @node _ u v _ qs q r hr hbody hnil =>
          obtain ⟨rfl, rfl⟩ := List.append_eq_nil_iff.mp hw.symm
          have hon : g.ViableOn γ q [] r.body a := .begins h hr hrest
          obtain ⟨k, s₁, hs₁, hsteps⟩ := reduceSteps_of_nullable hg hc ht ⟨qs, hbody⟩ hs hon
          obtain ⟨s₂, hs₂, hstep⟩ := reduceStep_of_viableOn hg hc ht hs₁ hr hon h
          refine Machine.Takes.reduceSteps (n := k + 1) (ih h.advance hs₂) ?_
          rw [Machine.reduceSteps_succ, hsteps, Option.bind_some, hstep]

/-- What can stand behind an item is taken, after reductions, when the item is complete. -/
theorem takes_of_viableOn (h : g.ViableOn γ p α β a) :
    ∀ {s}, c.Spells s (γ ++ β) → t.machine.Takes (some a) s := by
  have hstep : ∀ {γ p α β q r a s}, g.Viable γ p α (.nonterminal r.head :: β) →
      g.productions[q]? = some r → g.ViableOn γ q [] r.body a → c.Spells s (γ ++ r.body) →
      (∀ {s'}, c.Spells s' (γ ++ [.nonterminal r.head]) → t.machine.Takes (some a) s') →
        t.machine.Takes (some a) s := by
    intro γ p α β q r a s h hr hon hs hrest
    obtain ⟨s', hs', hstep⟩ := reduceStep_of_viableOn hg hc ht hs hr hon h
    refine Machine.Takes.reduceSteps (n := 1) (hrest hs') ?_
    rw [Machine.reduceSteps, hstep, Option.bind_some, Machine.reduceSteps]
  induction h with
  | start =>
      intro s hs
      obtain ⟨top, stack, rfl, hwalk⟩ := hs.exists_top
      have haction := (ht.accept_iff _ top hwalk .eoi).mpr ⟨rfl, _, Viable.start.advance⟩
      apply Machine.Takes.of_action rfl
      exact Or.inr (by simp [machine, move, haction])
  | advance _ ih => exact fun hs => ih (by simpa using hs)
  | begins h hr hbegins =>
      intro s hs
      exact hstep h hr (.begins h hr hbegins) hs fun hs' =>
        takes_of_begins hg hc ht hbegins h.advance hs'
  | inherits h hr hnull ih =>
      intro s hs
      refine hstep h.viable hr (.inherits h hr hnull) hs fun hs' => ?_
      obtain ⟨k, s₂, hs₂, hsteps⟩ := reduceSteps_of_nullable hg hc ht hnull hs' h.advance
      exact Machine.Takes.reduceSteps (ih (by simpa using hs₂)) hsteps

/-- A terminal that can come next is taken, after reductions. -/
theorem takes_of_next (h : g.Next γ a) (hs : c.Spells s γ) : t.machine.Takes (some a) s := by
  obtain ⟨p, α, β, ⟨h, hbegins⟩ | ⟨h, hnull⟩⟩ := h
  · exact takes_of_begins hg hc ht hbegins h hs
  · obtain ⟨k, s', hs', hsteps⟩ := reduceSteps_of_nullable hg hc ht hnull hs h
    exact Machine.Takes.reduceSteps (takes_of_viableOn hg hc ht h hs') hsteps

omit hc in
/-- What a reduction makes has an item that is possible after it. -/
theorem viable_reduceStep (hs : c.Spells s γ) (h : t.machine.reduceStep (some a) s = some s') :
    ∃ (p : ProductionId) (r : Production) (δ : List Symbol), g.productions[p]? = some r ∧
      γ = δ ++ r.body ∧ c.Spells s' (δ ++ [.nonterminal r.head]) ∧
      ∃ q α β, g.Viable δ q α (.nonterminal r.head :: β) := by
  obtain ⟨p, r, δ, top, hr, rfl, hwalk, haction, hs'⟩ := spells_reduceStep hg ht hs h
  obtain ⟨hp, α, hviable⟩ := ht.viable _ top hwalk p a haction
  obtain ⟨δ', hδ, hbefore⟩ := hviable.before
  have hbody := hviable.body_eq hg hr
  rw [List.append_nil] at hbody
  rw [← hbody] at hδ
  obtain rfl := (List.append_inj' hδ rfl).1
  rw [List.append_nil] at hbefore
  obtain ⟨q, α', β', hq⟩ := hbefore.predicted hp hr
  exact ⟨p, r, δ, hr, rfl, hs', q, α', β', hq⟩

/-- A table that reduces before some terminal does the same before the terminals that can come
after the reductions. -/
theorem reduceSteps_of_next (hs : c.Spells s γ)
    (h : t.machine.reduceSteps (some a) n s = some s') :
    ∃ γ', c.Spells s' γ' ∧ (0 < n → ∃ q α β, g.Viable γ' q α β) ∧
      ∀ b, g.Next γ' b → g.Next γ b ∧ t.machine.reduceSteps (some b) n s = some s' := by
  induction n generalizing s' with
  | zero =>
      cases h
      exact ⟨γ, hs, fun h => absurd h (Nat.lt_irrefl 0), fun b hb => ⟨hb, rfl⟩⟩
  | succ n ih =>
      rw [Machine.reduceSteps_succ] at h
      obtain ⟨s₁, hsteps, hstep⟩ := Option.bind_eq_some_iff.mp h
      obtain ⟨γ₁, hs₁, _, hnext₁⟩ := ih hsteps
      obtain ⟨p, r, δ, hr, rfl, hs', q, α, β, hq⟩ := viable_reduceStep hg ht hs₁ hstep
      refine ⟨_, hs', fun _ => ⟨q, _, _, hq.advance⟩, fun b hb => ?_⟩
      have hon := hb.viableOn hr
      obtain ⟨hfirst, hsteps'⟩ := hnext₁ b hon.complete.next
      obtain ⟨s₂, hs₂, hstep'⟩ := reduceStep_of_viableOn hg hc ht hs₁ hr hon hq
      cases hs₂.unique hs'
      refine ⟨hfirst, ?_⟩
      rw [Machine.reduceSteps_succ, hsteps', Option.bind_some, hstep']

/-- A precise table reduces only before terminals that can come next. -/
theorem settles_of_precise (hprecise : t.Precise g c) (hs : c.Spells s γ) (a : TerminalId) :
    t.machine.Settles (some a) s := by
  cases hstep : t.machine.reduceStep (some a) s with
  | none => exact ⟨1, by rw [Machine.reduceSteps, hstep, Option.bind_none]⟩
  | some s' =>
      obtain ⟨p, r, δ, top, _, _, hwalk, haction, _⟩ := spells_reduceStep hg ht hs hstep
      obtain ⟨α, hviable⟩ := hprecise γ top hwalk p a haction
      exact (takes_of_next hg hc ht hviable.next hs).settles

/-- One number of reductions is too many before each of the terminals that can come next. -/
theorem exists_bound (hs : c.Spells s γ) (m : Nat) :
    ∃ n, ∀ b < m, g.Next γ b → t.machine.reduceSteps (some b) n s = none := by
  induction m with
  | zero => exact ⟨0, fun b hb => absurd hb (Nat.not_lt_zero b)⟩
  | succ m ih =>
      obtain ⟨n, hn⟩ := ih
      by_cases hm : g.Next γ m
      · obtain ⟨k, hk⟩ := (takes_of_next hg hc ht hm hs).settles
        refine ⟨max n k, fun b hb hnext => ?_⟩
        rcases Nat.lt_succ_iff_lt_or_eq.mp hb with hb | rfl
        · exact Machine.reduceSteps_eq_none (hn b hb hnext) (Nat.le_max_left n k)
        · exact Machine.reduceSteps_eq_none hk (Nat.le_max_right n k)
      · refine ⟨n, fun b hb hnext => ?_⟩
        rcases Nat.lt_succ_iff_lt_or_eq.mp hb with hb | rfl
        · exact hn b hb hnext
        · exact absurd hnext hm

/-- If all that is reachable can start somehow, no row of reductions is endless. -/
theorem settles_of_starts (hstarts : ∀ n, g.Reachable n → g.Starts n) (hs : c.Spells s γ)
    (a : TerminalId) : t.machine.Settles (some a) s := by
  obtain ⟨n, hn⟩ := exists_bound hg hc ht hs g.terminals.length
  refine ⟨n + 1, ?_⟩
  cases hsteps : t.machine.reduceSteps (some a) (n + 1) s with
  | none => rfl
  | some s' =>
      obtain ⟨γ', _, hviable, hsame⟩ := reduceSteps_of_next hg hc ht hs hsteps
      obtain ⟨q, α, β, hq⟩ := hviable (Nat.succ_pos n)
      obtain ⟨b, hb⟩ := hq.exists_next hstarts
      obtain ⟨hnext, hsteps'⟩ := hsame b hb
      have hnone := hn b (hnext.lt_length hg) hnext
      rw [Machine.reduceSteps_eq_none hnone (Nat.le_succ n)] at hsteps'
      cases hsteps'

omit hc in
/-- If no row of reductions is endless, every parse ends. -/
theorem exists_run (hsettles : ∀ {γ s}, c.Spells s γ → ∀ a, t.machine.Settles (some a) s)
    {k : Configuration StateId TerminalId ProductionId} (hs : c.Spells k.stack γ) :
    ∃ n out, t.machine.run n k = some out := by
  induction hlength : k.rest.length using Nat.strong_induction_on generalizing k γ with
  | _ length ih =>
      have hrow : t.machine.Settles k.rest.head? k.stack := by
        obtain ⟨n, hn⟩ := hsettles hs (k.rest.head?.getD .eoi)
        exact ⟨n, by rw [reduceSteps_getD, hn]⟩
      obtain ⟨n, s', hsteps, hlast⟩ := hrow.last
      obtain ⟨d, rfl, hrest, hrun⟩ := Machine.run_reduceSteps hsteps
      rw [reduceSteps_getD] at hsteps
      obtain ⟨δ, hδ⟩ := spells_reduceSteps hg ht hs hsteps
      have hone : ∃ n out, t.machine.run n d = some out := by
        cases hstep : t.machine.step d with
        | accepted e => exact ⟨1, .ok e, by rw [Machine.run, hstep]⟩
        | refused e => exact ⟨1, .error e, by rw [Machine.run, hstep]⟩
        | running e =>
            have hshorter := (Machine.shift_of_step (hrest ▸ hlast) hstep).1
            have hspells : ∃ γ', c.Spells e.stack γ' := by
              rcases step_running hg ht hδ hstep with
                ⟨_, _, _, _, h, rfl⟩ | ⟨_, _, _, _, _, _, _, _, _, h, rfl⟩
              · exact ⟨_, h⟩
              · exact ⟨_, h⟩
            obtain ⟨γ', hγ'⟩ := hspells
            obtain ⟨k, out, hk⟩ := ih e.rest.length (by rw [← hlength, ← hrest]; omega) hγ' rfl
            exact ⟨k + 1, out, by rw [Machine.run_succ_of_step hstep, hk]⟩
      obtain ⟨k, out, hk⟩ := hone
      exact ⟨n + k, out, by rw [hrun, hk]⟩

end Rows

/-- Every parse with an LR(1) table has an answer.  So does every parse with an SLR(1) table, if all
reachable nonterminals derive the empty word or something that begins with a terminal. -/
theorem parse?_returns {ds : List Declaration} {method : Method} (hg : Grammar.define ds = .ok g)
    (ht : generate g method = .ok t)
    (hmethod : method = .lr1 ∨ ∀ n, g.Reachable n → g.Starts n) (w : List TerminalId) :
    ∃ out, t.parse? w = some out := by
  have hwf := wellFormed_of_define hg
  obtain ⟨c, hc, hfaithful, hprecise⟩ := faithful_generate hwf ht
  have hsettles : ∀ {γ s}, c.Spells s γ → ∀ a, t.machine.Settles (some a) s := by
    intro γ s hs a
    rcases hmethod with hmethod | hstarts
    · exact settles_of_precise hwf hc hfaithful (hprecise hmethod) hs a
    · exact settles_of_starts hwf hc hfaithful hstarts hs a
  obtain ⟨n, out, hn⟩ :=
    exists_run hwf hfaithful hsettles (k := t.machine.start w) (γ := []) .bottom
  exact ⟨out, (parse?_eq_some_iff t w out).mpr ⟨n, hn⟩⟩

theorem parse?_returns_letters :
    (∀ n, Letters.grammar.Reachable n → Letters.grammar.Starts n) ∧
      ∃ out, Letters.table.parse? [2, 2] = some out := by
  have hstarts : ∀ n, Letters.grammar.Reachable n → Letters.grammar.Starts n := by
    intro n hn
    have huser := hn.isUserNonterminal (wellFormed_of_define Letters.define_declarations)
    obtain rfl : n = 1 :=
      Nat.le_antisymm (Nat.le_of_lt_succ huser.2) (Nat.pos_of_ne_zero huser.1)
    exact Or.inl (.single ⟨⟨1, []⟩, by simp [Letters.grammar], [], [], rfl, rfl⟩)
  exact ⟨hstarts, parse?_returns Letters.define_declarations Letters.generate_slr1
    (Or.inr hstarts) [2, 2]⟩

end ParseTable

/-! An endless parse: `S -> A S b` and `A -> ε`, with `X -> A d` beside them.  The start symbol
derives no word, and `d` follows `A` in a production that is not reachable. -/

namespace Endless

def declarations : List Declaration :=
  [.terminal "b", .terminal "d", .nonterminal "S", .nonterminal "A", .nonterminal "X",
    .production 1 [.nonterminal 2, .nonterminal 1, .terminal 2], .production 2 [],
    .production 3 [.nonterminal 2, .terminal 3]]

def grammar : Grammar :=
  ⟨["$eoi", "$epsilon", "b", "d"], ["$start", "S", "A", "X"],
    [⟨0, [.nonterminal 1]⟩, ⟨1, [.nonterminal 2, .nonterminal 1, .terminal 2]⟩, ⟨2, []⟩,
      ⟨3, [.nonterminal 2, .terminal 3]⟩], 1⟩

def table : ParseTable :=
  ⟨[⟨[(3, .reduce 2)], [(1, 1), (2, 2)]⟩, ⟨[(0, .accept)], []⟩,
      ⟨[(3, .reduce 2)], [(2, 2), (1, 3)]⟩, ⟨[(2, .shift 4)], []⟩,
      ⟨[(0, .reduce 1), (2, .reduce 1)], []⟩],
    [(0, 1), (1, 3), (2, 0), (3, 2)]⟩

theorem define_declarations : Grammar.define declarations = .ok grammar := by decide +kernel

theorem generate_slr1 : ParseTable.generate grammar .slr1 = .ok table := by
  rw [ParseTable.generate_slr1]
  decide +kernel

/-- Before `d`, the empty production is reduced again and again. -/
theorem run_eq_none (n top : Nat) (htop : top = 0 ∨ top = 2) (stack : List StateId)
    (i : Nat) (steps : List Step) (reductions : List ProductionId) :
    table.machine.run n ⟨top :: stack, [3], i, steps, reductions⟩ = none := by
  induction n generalizing top stack steps reductions with
  | zero => rfl
  | succ n ih =>
      rcases htop with rfl | rfl
      · exact ih 2 (Or.inr rfl) _ _ _
      · exact ih 2 (Or.inr rfl) _ _ _

/-- A parse with an SLR(1) table need not end, though the table has no conflicts. -/
theorem parse_never_ends : Grammar.define declarations = .ok grammar ∧
    ParseTable.generate grammar .slr1 = .ok table ∧ (∀ a ∈ [3], grammar.IsUserTerminal a) ∧
      (∀ n, table.machine.run n (table.machine.start [3]) = none) ∧ table.parse? [3] = none := by
  refine ⟨define_declarations, generate_slr1, ?_, fun n => ?_, ?_⟩
  · simp [Grammar.IsUserTerminal, grammar]
  · exact run_eq_none n 0 (Or.inl rfl) [] 0 [] []
  · exact run_eq_none _ 0 (Or.inl rfl) [] 0 [] []

end Endless

end ParserForge

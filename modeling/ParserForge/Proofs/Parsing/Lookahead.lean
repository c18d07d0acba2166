import Mathlib
import ParserForge.Proofs.Parsing.Stack

/-!
What a parse sees of its input.  A step looks at the next symbol and at nothing behind it, so two
inputs are parsed alike up to the point where they differ.
-/

namespace ParserForge

/-- The step after which a parse has the outcome. -/
def Progress.ended {σ α ρ : Type} : Except (ParseError σ) (Derivation ρ) → Progress σ α ρ
  | .ok d => .accepted d
  | .error e => .refused e

namespace Machine

variable {σ α ν ρ : Type} {m : Machine σ α ν ρ} {c d e : Configuration σ α ρ}
  {out out' : Except (ParseError σ) (Derivation ρ)} {w : List α}

/-- What a step can come to, and when. -/
inductive Steps (m : Machine σ α ν ρ) (c : Configuration σ α ρ) : Progress σ α ρ → Prop where
  | bottom : c.stack = [] → Steps m c (.refused (.stackUnderflow c.index))
  | shift {top next : σ} {below : List σ} {a : α} {rest : List α} :
      c.stack = top :: below → m.action top c.rest.head? = .shift next → c.rest = a :: rest →
        Steps m c
          (.running ⟨next :: c.stack, rest, c.index + 1, .shift :: c.steps, c.reductions⟩)
  | shiftEnd {top next : σ} {below : List σ} :
      c.stack = top :: below → m.action top c.rest.head? = .shift next → c.rest = [] →
        Steps m c (.refused (.unexpected c.index top))
  | underflow {top : σ} {below : List σ} {p : ρ} {head : ν} {arity : Nat} :
      c.stack = top :: below → m.action top c.rest.head? = .reduce p head arity →
        c.stack.drop arity = [] → Steps m c (.refused (.stackUnderflow c.index))
  | missingGoto {top q : σ} {below stack : List σ} {p : ρ} {head : ν} {arity : Nat} :
      c.stack = top :: below → m.action top c.rest.head? = .reduce p head arity →
        c.stack.drop arity = q :: stack → m.goto q head = none →
          Steps m c (.refused (.missingGoto c.index q))
  | reduce {top q next : σ} {below stack : List σ} {p : ρ} {head : ν} {arity : Nat} :
      c.stack = top :: below → m.action top c.rest.head? = .reduce p head arity →
        c.stack.drop arity = q :: stack → m.goto q head = some next →
          Steps m c (.running ⟨next :: q :: stack, c.rest, c.index, .reduce arity :: c.steps,
            p :: c.reductions⟩)
  | accept {top : σ} {below : List σ} :
      c.stack = top :: below → m.action top c.rest.head? = .accept →
        Steps m c (.accepted ⟨c.reductions.reverse, (.accept :: c.steps).reverse⟩)
  | error {top : σ} {below : List σ} :
      c.stack = top :: below → m.action top c.rest.head? = .error →
        Steps m c (.refused (.unexpected c.index top))

/-- Every step is one of these. -/
theorem steps_of_step {result : Progress σ α ρ} (h : m.step c = result) : m.Steps c result := by
  subst h
  unfold step
  split
  · next hstack => exact .bottom hstack
  · next top below hstack =>
      split
      · next next haction =>
          split
          · next hrest => exact .shiftEnd hstack haction hrest
          · next a rest hrest => exact .shift hstack haction hrest
      · next p head arity haction =>
          split
          · next hdrop => exact .underflow hstack haction hdrop
          · next q stack hdrop =>
              split
              · next hgoto => exact .missingGoto hstack haction hdrop hgoto
              · next next hgoto => exact .reduce hstack haction hdrop hgoto
      · next haction => exact .accept hstack haction
      · next haction => exact .error hstack haction

theorem Steps.step_eq {result : Progress σ α ρ} (h : m.Steps c result) : m.step c = result := by
  cases h with
  | bottom hstack => simp only [step, hstack]
  | shift hstack haction hrest =>
      rw [hrest] at haction
      simp only [step, hstack, haction, hrest]
  | shiftEnd hstack haction hrest =>
      rw [hrest] at haction
      simp only [step, hstack, haction, hrest]
  | underflow hstack haction hdrop =>
      rw [hstack] at hdrop
      simp only [step, hstack, haction, hdrop]
  | missingGoto hstack haction hdrop hgoto =>
      rw [hstack] at hdrop
      simp only [step, hstack, haction, hdrop, hgoto]
  | reduce hstack haction hdrop hgoto =>
      rw [hstack] at hdrop
      simp only [step, hstack, haction, hdrop, hgoto]
  | accept hstack haction => simp only [step, hstack, haction]
  | error hstack haction => simp only [step, hstack, haction]

theorem ended_ne_running : Progress.ended out ≠ .running d := by
  intro h
  cases out <;> cases h

/-- A step takes a symbol, whatever is behind it, or reduces, whatever is behind the next symbol. -/
theorem running_cases (h : m.step c = .running d) :
    (∃ a, c.rest = a :: d.rest ∧ d.index = c.index + 1 ∧ d.steps = .shift :: c.steps ∧
      ∀ z, m.step { c with rest := a :: z } = .running { d with rest := z }) ∨
    (d.rest = c.rest ∧ d.index = c.index ∧ (∃ arity, d.steps = .reduce arity :: c.steps) ∧
      ∀ z, z.head? = c.rest.head? →
        m.step { c with rest := z } = .running { d with rest := z }) := by
  cases steps_of_step h with
  | @shift _ _ _ a _ hstack haction hrest =>
      refine Or.inl ⟨a, hrest, rfl, rfl, fun z => Steps.step_eq (.shift hstack ?_ rfl)⟩
      rw [← haction, hrest, List.head?_cons, List.head?_cons]
  | @reduce _ _ _ _ _ _ _ arity hstack haction hdrop hgoto =>
      refine Or.inr ⟨rfl, rfl, ⟨arity, rfl⟩, fun z hz =>
        Steps.step_eq (.reduce hstack ?_ hdrop hgoto)⟩
      rw [← haction, hz]

/-- A step that ends the parse does so whatever is behind the next symbol. -/
theorem ended_replace {z : List α} (h : m.step c = .ended out) (hz : z.head? = c.rest.head?) :
    m.step { c with rest := z } = .ended out := by
  have hsteps := steps_of_step h
  generalize hresult : Progress.ended out = result at hsteps ⊢
  apply Steps.step_eq
  cases hsteps with
  | bottom hstack => exact .bottom hstack
  | shift => exact absurd hresult ended_ne_running
  | shiftEnd hstack haction hrest =>
      rw [hrest, List.head?_nil, List.head?_eq_none_iff] at hz
      exact .shiftEnd hstack (by rw [← haction, hz, hrest]) hz
  | underflow hstack haction hdrop => exact .underflow hstack (by rw [← haction, hz]) hdrop
  | missingGoto hstack haction hdrop hgoto =>
      exact .missingGoto hstack (by rw [← haction, hz]) hdrop hgoto
  | reduce => exact absurd hresult ended_ne_running
  | accept hstack haction => exact .accept hstack (by rw [← haction, hz])
  | error hstack haction => exact .error hstack (by rw [← haction, hz])

/-- As many symbols are counted as have been taken. -/
theorem index_add_length (h : m.Goes c d) :
    d.index + d.rest.length = c.index + c.rest.length := by
  induction h with
  | refl => rfl
  | tail _ hstep ih =>
      rcases running_cases hstep with ⟨a, hrest, hindex, _⟩ | ⟨hrest, hindex, _⟩
      · rw [hrest, List.length_cons] at ih
        omega
      · rw [hrest, hindex, ih]

theorem index_add_length_start (h : m.Goes (m.start w) d) : d.index + d.rest.length = w.length :=
  (index_add_length h).trans (Nat.zero_add w.length)

/-- What is behind the next symbol can be replaced. -/
theorem goes_replace (h : m.Goes c d) : ∃ u, c.rest = u ++ d.rest ∧
    ∀ z, z.head? = d.rest.head? → m.Goes { c with rest := u ++ z } { d with rest := z } := by
  induction h with
  | refl => exact ⟨[], rfl, fun z _ => .refl⟩
  | tail _ hstep ih =>
      obtain ⟨u, hu, hgoes⟩ := ih
      rcases running_cases hstep with ⟨a, hrest, _, _, hreplace⟩ | ⟨hrest, _, _, hreplace⟩
      · refine ⟨u ++ [a], by rw [hu, hrest, List.append_assoc, List.singleton_append], ?_⟩
        intro z _
        rw [List.append_assoc, List.singleton_append]
        exact (hgoes (a :: z) (by rw [hrest]; rfl)).tail (hreplace z)
      · refine ⟨u, by rw [hu, hrest], fun z hz => ?_⟩
        rw [hrest] at hz
        exact (hgoes z hz).tail (hreplace z hz)

/-- Before the next symbol has been looked at, it can be replaced as well. -/
theorem goes_replace_all (h : m.Goes (m.start w) d) (hlast : ∀ s ∈ d.steps.head?, s = .shift) :
    ∃ u, w = u ++ d.rest ∧ ∀ z, m.Goes (m.start (u ++ z)) { d with rest := z } := by
  cases h with
  | refl => exact ⟨[], rfl, fun z => .refl⟩
  | tail hgoes hstep =>
      obtain ⟨u, hu, hreplaced⟩ := goes_replace hgoes
      rcases running_cases hstep with ⟨a, hrest, _, _, hreplace⟩ | ⟨_, _, ⟨arity, hsteps⟩, _⟩
      · refine ⟨u ++ [a], ?_, fun z => ?_⟩
        · rw [List.append_assoc, List.singleton_append, ← hrest]
          exact hu
        · rw [List.append_assoc, List.singleton_append]
          exact (hreplaced (a :: z) (by rw [hrest]; rfl)).tail (hreplace z)
      · have hreduce := hlast (.reduce arity) (by rw [hsteps]; rfl)
        cases hreduce

/-- So the symbols that have been taken can be followed by anything else. -/
theorem goes_take (h : m.Goes (m.start w) d) (hlast : ∀ s ∈ d.steps.head?, s = .shift)
    (z : List α) : m.Goes (m.start (w.take d.index ++ z)) { d with rest := z } := by
  obtain ⟨u, hu, hreplace⟩ := goes_replace_all h hlast
  have hcount := index_add_length_start h
  rw [hu, List.length_append] at hcount
  have hindex : d.index = u.length := by omega
  have htake : w.take d.index = u := by rw [hu, hindex, List.take_left]
  rw [htake]
  exact hreplace z

/-- A parse has one way to go only. -/
theorem goes_or_goes (hd : m.Goes c d) (he : m.Goes c e) : m.Goes d e ∨ m.Goes e d := by
  refine Relation.ReflTransGen.total_of_right_unique ?_ hd he
  intro k x y hx hy
  cases hx.symm.trans hy
  rfl

/-- The outcome of a parse is that of the last step. -/
theorem exists_run_iff :
    (∃ n, m.run n c = some out) ↔ ∃ d, m.Goes c d ∧ m.step d = .ended out := by
  constructor
  · rintro ⟨n, hn⟩
    induction n generalizing c with
    | zero => cases hn
    | succ n ih =>
        rw [run] at hn
        cases hstep : m.step c with
        | running e =>
            rw [hstep] at hn
            obtain ⟨d, hgoes, hd⟩ := ih hn
            exact ⟨d, hgoes.head hstep, hd⟩
        | accepted e =>
            rw [hstep] at hn
            cases hn
            exact ⟨c, .refl, hstep⟩
        | refused e =>
            rw [hstep] at hn
            cases hn
            exact ⟨c, .refl, hstep⟩
  · rintro ⟨d, hgoes, hd⟩
    refine run_of_goes hgoes (n := 1) ?_
    cases out with
    | ok e => rw [run, hd, Progress.ended]
    | error e => rw [run, hd, Progress.ended]

/-- A step that ends the parse is not followed by another one. -/
theorem goes_of_ended (hc : m.Goes c d) (hd : m.step d = .ended out) (he : m.Goes c e) :
    m.Goes e d := by
  rcases goes_or_goes hc he with h | h
  · cases h using Relation.ReflTransGen.head_induction_on with
    | refl => exact .refl
    | head hstep _ =>
        rw [hd] at hstep
        cases out <;> cases hstep
  · exact h

end Machine

/-- A parse has the outcome that its last step has. -/
theorem ParseTable.parse?_eq_some_iff_goes (t : ParseTable) (w : List TerminalId)
    (out : Except (ParseError StateId) (Derivation ProductionId)) : t.parse? w = some out ↔
      ∃ k, t.machine.Goes (t.machine.start w) k ∧ t.machine.step k = .ended out :=
  (parse?_eq_some_iff t w out).trans Machine.exists_run_iff

end ParserForge

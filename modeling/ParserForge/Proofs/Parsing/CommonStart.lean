import Mathlib
import ParserForge.Proofs.Parsing.Lookahead

/-!
Inputs with a common start, over any table.  Two parses cannot be told apart before one of them
looks at a symbol that the other input does not have there.  So what a parse reports of a symbol
does not depend on anything behind that symbol.
-/

namespace ParserForge

/-- What a parse has come to, apart from the symbols that it has not taken. -/
def Progress.visible {σ α ρ : Type} : Progress σ α ρ → Progress σ α ρ
  | .running c => .running { c with rest := [] }
  | ended => ended

namespace Machine

variable {σ α ν ρ : Type} {m : Machine σ α ν ρ} {c d : Configuration σ α ρ} {n k : Nat}
  {out : Except (ParseError σ) (Derivation ρ)} {e : ParseError σ} {u v w z : List α}

/-- A parse so many steps later.  Once it has ended, it stays as it is. -/
def after (m : Machine σ α ν ρ) : Nat → Configuration σ α ρ → Progress σ α ρ
  | 0, c => .running c
  | n + 1, c =>
      match m.step c with
      | .running c => after m n c
      | ended => ended

theorem running_or_ended (m : Machine σ α ν ρ) (c : Configuration σ α ρ) :
    (∃ d, m.step c = .running d) ∨ ∃ out, m.step c = .ended out := by
  cases m.step c with
  | running d => exact Or.inl ⟨d, rfl⟩
  | accepted a => exact Or.inr ⟨.ok a, rfl⟩
  | refused e => exact Or.inr ⟨.error e, rfl⟩

theorem after_succ_of_running (h : m.step c = .running d) (n : Nat) :
    m.after (n + 1) c = m.after n d := by
  rw [after, h]

theorem after_succ_of_ended (h : m.step c = .ended out) (n : Nat) :
    m.after (n + 1) c = .ended out := by
  rw [after, h]
  cases out <;> rfl

theorem goes_of_after (h : m.after n c = .running d) : m.Goes c d := by
  induction n generalizing c with
  | zero =>
      cases h
      exact .refl
  | succ n ih =>
      rcases m.running_or_ended c with ⟨b, hstep⟩ | ⟨out, hstep⟩
      · rw [after_succ_of_running hstep] at h
        exact (ih h).head hstep
      · rw [after_succ_of_ended hstep] at h
        exact absurd h ended_ne_running

/-- The outcome of a run is what the parse has come to after its steps. -/
theorem run_eq_some_iff_after : m.run n c = some out ↔ m.after n c = .ended out := by
  induction n generalizing c with
  | zero => cases out <;> simp [run, after, Progress.ended]
  | succ n ih =>
      rw [run, after]
      cases hstep : m.step c with
      | running d => exact ih
      | accepted a => cases out <;> simp [Progress.ended]
      | refused a => cases out <;> simp [Progress.ended]

/-- As long as fewer than `k` symbols have been taken, only the first `k` of them are looked at. -/
theorem visible_after_replace (hz : z.take (k - c.index) = c.rest.take (k - c.index))
    (hbefore : ∀ j < n, ∀ b, m.after j c = .running b → b.index < k) :
    (m.after n { c with rest := z }).visible = (m.after n c).visible := by
  induction n generalizing c z with
  | zero => rfl
  | succ n ih =>
      have hindex : c.index < k := hbefore 0 (Nat.succ_pos n) c rfl
      have hhead : z.head? = c.rest.head? := by
        have := congrArg List.head? hz
        rwa [List.head?_take, List.head?_take, if_neg (by omega), if_neg (by omega)] at this
      rcases m.running_or_ended c with ⟨d, hstep⟩ | ⟨out, hstep⟩
      · have hlater : ∀ j < n, ∀ b, m.after j d = .running b → b.index < k := by
          intro j hj b hb
          apply hbefore (j + 1) (Nat.succ_lt_succ hj) b
          rw [after_succ_of_running hstep, hb]
        rw [after_succ_of_running hstep]
        rcases running_cases hstep with
          ⟨a, hrest, hnext, _, hreplace⟩ | ⟨hrest, hsame, _, hreplace⟩
        · rw [hrest, List.head?_cons] at hhead
          obtain ⟨z, rfl⟩ := List.head?_eq_some_iff.mp hhead
          rw [after_succ_of_running (hreplace z)]
          refine ih ?_ hlater
          have hsucc : k - c.index = k - d.index + 1 := by omega
          rw [hrest, hsucc, List.take_succ_cons, List.take_succ_cons] at hz
          exact (List.cons.inj hz).2
        · rw [after_succ_of_running (hreplace z hhead)]
          refine ih ?_ hlater
          rw [hrest, hsame]
          exact hz
      · rw [after_succ_of_ended hstep, after_succ_of_ended (ended_replace hstep hhead)]

theorem visible_after_start (huv : u.take k = v.take k)
    (hbefore : ∀ j < n, ∀ c, m.after j (m.start u) = .running c → c.index < k) :
    (m.after n (m.start v)).visible = (m.after n (m.start u)).visible :=
  visible_after_replace (c := m.start u) (z := v) huv.symm hbefore

/-- A parse counts the symbols that it has taken, each with a shift. -/
theorem count_shift_steps (h : m.Goes (m.start w) c) : c.steps.count .shift = c.index := by
  induction h with
  | refl => rfl
  | tail _ hstep ih =>
      rcases running_cases hstep with ⟨_, _, hindex, hsteps, _⟩ | ⟨_, hindex, ⟨_, hsteps⟩, _⟩
      · rw [hindex, hsteps, List.count_cons_self, ih]
      · rw [hindex, hsteps, List.count_cons_of_ne (by simp), ih]

/-- Every way to refuse an input reports the number of symbols that have been taken. -/
theorem index_of_refused (h : m.step c = .refused e) : e.index = c.index := by
  cases steps_of_step h with
  | bottom => rfl
  | shiftEnd => rfl
  | underflow => rfl
  | missingGoto => rfl
  | error => rfl

theorem index_le_of_goes (h : m.Goes c d) : c.index ≤ d.index := by
  have hcount := index_add_length h
  have hlength := length_rest_le h
  omega

/-- Until a parse is refused, no more symbols have been taken than the refusal reports. -/
theorem index_le_of_after (hrun : m.run n (m.start w) = some (.error e)) {j : Nat}
    (h : m.after j (m.start w) = .running c) : c.index ≤ e.index := by
  obtain ⟨d, hgoes, hrefused⟩ := exists_run_iff.mp ⟨n, hrun⟩
  have hback := goes_of_ended hgoes hrefused (goes_of_after h)
  rw [index_of_refused hrefused]
  exact index_le_of_goes hback

/-- The symbols up to the one that a refusal reports are all that it depends on. -/
theorem run_of_take_eq (hrun : m.run n (m.start u) = some (.error e))
    (huv : v.take (e.index + 1) = u.take (e.index + 1)) :
    m.run n (m.start v) = some (.error e) := by
  have hvisible := visible_after_start (m := m) (n := n) huv.symm fun j _ c hc =>
    Nat.lt_succ_of_le (index_le_of_after hrun hc)
  rw [run_eq_some_iff_after] at hrun ⊢
  rw [hrun] at hvisible
  cases hafter : m.after n (m.start v) with
  | running c =>
      rw [hafter] at hvisible
      cases hvisible
  | accepted a =>
      rw [hafter] at hvisible
      cases hvisible
  | refused a =>
      rw [hafter] at hvisible
      exact hvisible

/-- One symbol of lookahead, whatever the table.  If two inputs have the first `k` symbols in
common, their parses go through the same configurations until one of them, with `k` symbols taken,
looks at the next one.  A refusal reports how many symbols have been taken, which is at most all of
them, and every input with the same symbols up to the one that is reported is refused alike. -/
theorem one_symbol_ahead (m : Machine σ α ν ρ) (u : List α) :
    (∀ v k, u.take k = v.take k → ∀ n,
      (∀ j < n, ∀ c, m.after j (m.start u) = .running c → c.index < k) →
        (m.after n (m.start v)).visible = (m.after n (m.start u)).visible) ∧
    ∀ n e, m.run n (m.start u) = some (.error e) →
      e.index ≤ u.length ∧
      (∃ c, m.Goes (m.start u) c ∧ m.step c = .refused e ∧ c.steps.count .shift = e.index) ∧
      ∀ v, v.take (e.index + 1) = u.take (e.index + 1) → m.run n (m.start v) = some (.error e) := by
  refine ⟨fun v k huv n hbefore => visible_after_start huv hbefore, fun n e hrun => ?_⟩
  obtain ⟨c, hgoes, hrefused⟩ := exists_run_iff.mp ⟨n, hrun⟩
  have hindex := index_of_refused hrefused
  have hcount := index_add_length_start hgoes
  refine ⟨by omega, ⟨c, hgoes, hrefused, ?_⟩, fun v huv => run_of_take_eq hrun huv⟩
  rw [count_shift_steps hgoes, hindex]

/-- A letter too many is refused, whatever comes behind it. -/
theorem one_symbol_ahead_nested :
    Nested.slrTable.machine.run 6 (Nested.slrTable.machine.start [2, 3, 3]) =
        some (.error (.unexpected 2 1)) ∧
      ∀ w, Nested.slrTable.machine.run 6 (Nested.slrTable.machine.start (2 :: 3 :: 3 :: w)) =
        some (.error (.unexpected 2 1)) := by
  have hrun : Nested.slrTable.machine.run 6 (Nested.slrTable.machine.start [2, 3, 3]) =
      some (.error (.unexpected 2 1)) := by rfl
  refine ⟨hrun, fun w => ?_⟩
  exact ((one_symbol_ahead Nested.slrTable.machine [2, 3, 3]).2 6 _ hrun).2.2 _ rfl

end Machine

end ParserForge

import Mathlib
import ParserForge.Proofs.Parsing.Lookahead

/-!
A parse tells the truth.  At any time, the reductions made so far, read backwards, rewrite what the
stack spells to the symbols that have been taken.  When the parse is accepted, the stack spells the
start symbol, and everything has been taken.
-/

namespace ParserForge

/-- The number of values that a move takes from the stack to reduce them. -/
def Step.arity? : Step → Option Nat
  | .reduce arity => some arity
  | _ => none

namespace ParseTable

open Grammar

variable {g : Grammar} {c : Collection} {t : ParseTable} {w : List TerminalId}
  {k k' : Configuration StateId TerminalId ProductionId}

/-- What a parse of an input has done so far. -/
structure Tracks (g : Grammar) (c : Collection) (w : List TerminalId)
    (k : Configuration StateId TerminalId ProductionId) (γ : List Symbol)
    (taken : List TerminalId) : Prop where
  spells : c.Spells k.stack γ
  input : w = taken ++ k.rest
  rightmost : g.Rightmost k.reductions γ (word taken)
  going : Step.accept ∉ k.steps
  shifts : k.steps.count .shift = taken.length
  arities : k.steps.filterMap Step.arity? = k.reductions.map fun p => (g.body p).length

theorem tracks_start (g : Grammar) (c : Collection) (t : ParseTable) (w : List TerminalId) :
    Tracks g c w (t.machine.start w) [] [] where
  spells := .bottom
  input := rfl
  rightmost := rfl
  going := List.not_mem_nil
  shifts := rfl
  arities := rfl

theorem Tracks.step {γ : List Symbol} {taken : List TerminalId} (hg : g.WellFormed)
    (ht : t.Faithful g c) (h : Tracks g c w k γ taken) (hstep : t.machine.step k = .running k') :
    ∃ γ' taken', Tracks g c w k' γ' taken' := by
  rcases step_running hg ht h.spells hstep with
    ⟨a, rest, s, hrest, hs, rfl⟩ | ⟨p, r, δ, s, top, hr, rfl, _, _, hs, rfl⟩
  · refine ⟨γ ++ [.terminal a], taken ++ [a], hs, ?_, ?_, ?_, ?_, ?_⟩
    · rw [h.input, hrest, List.append_assoc, List.singleton_append]
    · have := h.rightmost.in_context [] [a]
      simpa using this
    · simpa using h.going
    · simp [h.shifts]
    · rw [List.filterMap_cons_none rfl]
      exact h.arities
  · refine ⟨δ ++ [.nonterminal r.head], taken, hs, h.input, ?_, ?_, ?_, ?_⟩
    · exact ⟨δ ++ r.body, ⟨r, hr, δ, [], by simp, by simp⟩, h.rightmost⟩
    · simpa using h.going
    · simpa using h.shifts
    · simpa [Step.arity?, body_eq hr] using h.arities

theorem Tracks.goes {γ : List Symbol} {taken : List TerminalId} (hg : g.WellFormed)
    (ht : t.Faithful g c) (h : Tracks g c w k γ taken) (hgoes : t.machine.Goes k k') :
    ∃ γ' taken', Tracks g c w k' γ' taken' := by
  induction hgoes with
  | refl => exact ⟨γ, taken, h⟩
  | tail _ hstep ih =>
      obtain ⟨γ', taken', hk⟩ := ih
      exact hk.step hg ht hstep

theorem tracks_of_goes (hg : g.WellFormed) (ht : t.Faithful g c)
    (h : t.machine.Goes (t.machine.start w) k) : ∃ γ taken, Tracks g c w k γ taken :=
  (tracks_start g c t w).goes hg ht h

theorem exists_tracks {n : Nat} {d : Derivation ProductionId} (hg : g.WellFormed)
    (ht : t.Faithful g c) (h : t.machine.run n k = some (.ok d))
    (hk : ∃ γ taken, Tracks g c w k γ taken) :
    ∃ k' γ taken, Tracks g c w k' γ taken ∧ t.machine.step k' = .accepted d := by
  obtain ⟨γ, taken, hk⟩ := hk
  obtain ⟨k', hgoes, haccepted⟩ := Machine.exists_run_iff.mp ⟨n, h⟩
  obtain ⟨γ', taken', hk'⟩ := hk.goes hg ht hgoes
  exact ⟨k', γ', taken', hk', haccepted⟩

/-- If an input is parsed, the reductions read backwards are a rightmost derivation of it, and the
moves are a shift for each of its symbols, the reductions by the lengths of their bodies, and one
acceptance at the end. -/
theorem parse?_sound {ds : List Declaration} {method : Method} {d : Derivation ProductionId}
    (hg : Grammar.define ds = .ok g) (ht : generate g method = .ok t)
    (hw : ∀ a ∈ w, g.IsUserTerminal a) (h : t.parse? w = some (.ok d)) :
    g.Rightmost d.reductions.reverse [.nonterminal g.start] (word w) ∧
      d.steps.count .shift = w.length ∧
      d.steps.filterMap Step.arity? = d.reductions.map (fun p => (g.body p).length) ∧
      ∃ moves, d.steps = moves ++ [.accept] ∧ Step.accept ∉ moves := by
  have hwf := wellFormed_of_define hg
  obtain ⟨c, _, hfaithful, _⟩ := faithful_generate hwf ht
  obtain ⟨n, hn⟩ := (parse?_eq_some_iff t w _).mp h
  obtain ⟨k, γ, taken, hk, hstep⟩ :=
    exists_tracks hwf hfaithful hn ⟨[], [], tracks_start g c t w⟩
  obtain ⟨heoi, rfl, rfl⟩ := step_accepted hwf hfaithful hk.spells hstep
  have hrest : k.rest = [] := by
    cases hrest : k.rest with
    | nil => rfl
    | cons a rest =>
        rw [hrest] at heoi
        have ha : g.IsUserTerminal a := hw a (by rw [hk.input, hrest]; simp)
        exact absurd heoi ha.ne_eoi
  have htaken : w = taken := by rw [hk.input, hrest, List.append_nil]
  refine ⟨?_, ?_, ?_, k.steps.reverse, by simp, by simpa using hk.going⟩
  · rw [List.reverse_reverse, htaken]
    exact hk.rightmost
  · simp [hk.shifts, htaken]
  · simp [Step.arity?, List.filterMap_reverse, hk.arities]

theorem parse?_sound_letters :
    Letters.table.parse? [2] = some (.ok ⟨[2, 1], [.shift, .reduce 0, .reduce 2, .accept]⟩) ∧
      Letters.grammar.Rightmost [1, 2] [.nonterminal 1] (word [2]) := by
  have hw : ∀ a ∈ [2], Letters.grammar.IsUserTerminal a := by
    simp [IsUserTerminal, Letters.grammar]
  have h : Letters.table.parse? [2] =
      some (.ok ⟨[2, 1], [.shift, .reduce 0, .reduce 2, .accept]⟩) := by decide +kernel
  exact ⟨h, (parse?_sound Letters.define_declarations Letters.generate_lr1 hw h).1⟩

end ParseTable

end ParserForge

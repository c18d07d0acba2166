import Mathlib
import ParserForge.Proofs.Parsing.Soundness

/-!
How much of its input a parse takes.  The end of the input has a number among the terminals, and a
parse that meets that number in its input takes it for the end, whatever stands behind it.  All that
stands before it has been taken when the parse is accepted.
-/

namespace ParserForge

namespace ParseTable

open Grammar

variable {g : Grammar} {c : Collection} {t : ParseTable} {w taken : List TerminalId}
  {k : Configuration StateId TerminalId ProductionId}

/-- What has been taken when only the start symbol is left was declared by name. -/
theorem Tracks.isUserTerminal_of_start (hg : g.WellFormed)
    (h : Tracks g c w k [.nonterminal g.start] taken) : ∀ a ∈ taken, g.IsUserTerminal a := by
  have hstart : ∀ X ∈ [Symbol.nonterminal g.start], g.IsUserSymbol X := by
    intro X hX
    rw [List.mem_singleton.mp hX]
    exact hg.start
  intro a ha
  exact h.rightmost.derives.isUserSymbol hg hstart (.terminal a) (List.mem_map_of_mem ha)

/-- A parse is accepted where the next symbol is the end of the input, and the end of the input is
none of the symbols that it has taken. -/
theorem takeWhile_of_accepted {d : Derivation ProductionId} {γ : List Symbol} (hg : g.WellFormed)
    (ht : t.Faithful g c) (h : Tracks g c w k γ taken) (hstep : t.machine.step k = .accepted d) :
    w.takeWhile (· ≠ .eoi) = taken := by
  obtain ⟨heoi, rfl, _⟩ := step_accepted hg ht h.spells hstep
  have htaken : ∀ a ∈ taken, decide (a ≠ .eoi) = true := fun a ha =>
    decide_eq_true (h.isUserTerminal_of_start hg a ha).ne_eoi
  have hrest : k.rest.takeWhile (· ≠ .eoi) = [] := by
    cases hrest : k.rest with
    | nil => rfl
    | cons a rest =>
        rw [hrest] at heoi
        obtain rfl : a = .eoi := heoi
        rfl
  rw [h.input, List.takeWhile_append_of_pos htaken, hrest, List.append_nil]

/-- An accepted parse, of whatever numbers, has shifted as many symbols as stand before the first
end of the input among them.  If the end of the input is not among them, it has shifted them all. -/
theorem parse?_shifts {ds : List Declaration} {method : Method} {d : Derivation ProductionId}
    (hg : Grammar.define ds = .ok g) (ht : generate g method = .ok t)
    (h : t.parse? w = some (.ok d)) :
    d.steps.count .shift = (w.takeWhile (· ≠ .eoi)).length ∧
      (.eoi ∉ w → d.steps.count .shift = w.length) := by
  have hwf := wellFormed_of_define hg
  obtain ⟨c, _, hfaithful, _⟩ := faithful_generate hwf ht
  obtain ⟨n, hn⟩ := (parse?_eq_some_iff t w _).mp h
  obtain ⟨k, γ, taken, hk, hstep⟩ :=
    exists_tracks hwf hfaithful hn ⟨[], [], tracks_start g c t w⟩
  obtain ⟨_, _, rfl⟩ := step_accepted hwf hfaithful hk.spells hstep
  have hshifts : (Step.accept :: k.steps).reverse.count .shift =
      (w.takeWhile (· ≠ .eoi)).length := by
    rw [takeWhile_of_accepted hwf hfaithful hk hstep, ← hk.shifts]
    simp
  refine ⟨hshifts, fun heoi => ?_⟩
  rw [hshifts, List.takeWhile_eq_self_iff.mpr]
  exact fun a ha => decide_eq_true fun hae => heoi (hae ▸ ha)

/-- A letter, the end of the input and two more letters, of which nothing is seen. -/
theorem parse?_shifts_letters :
    Letters.table.parse? [2, 0, 2, 2] =
        some (.ok ⟨[2, 1], [.shift, .reduce 0, .reduce 2, .accept]⟩) ∧
      [Step.shift, .reduce 0, .reduce 2, .accept].count .shift =
        ([2, 0, 2, 2].takeWhile (· ≠ TerminalId.eoi)).length := by
  have h : Letters.table.parse? [2, 0, 2, 2] =
      some (.ok ⟨[2, 1], [.shift, .reduce 0, .reduce 2, .accept]⟩) := by decide +kernel
  exact ⟨h, (parse?_shifts Letters.define_declarations Letters.generate_lr1 h).1⟩

/-- So a parse that succeeds need not have taken its whole input. -/
theorem parse?_stops_at_eoi : Grammar.define Letters.declarations = .ok Letters.grammar ∧
    generate Letters.grammar .lr1 = .ok Letters.table ∧
    ∃ d, Letters.table.parse? [2, 0, 2] = some (.ok d) ∧
      d.steps.count .shift ≠ [2, 0, 2].length :=
  ⟨Letters.define_declarations, Letters.generate_lr1,
    ⟨[2, 1], [.shift, .reduce 0, .reduce 2, .accept]⟩, by decide +kernel, by decide⟩

end ParseTable

end ParserForge

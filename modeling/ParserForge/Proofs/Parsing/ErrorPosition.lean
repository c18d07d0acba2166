import Mathlib
import ParserForge.Proofs.Parsing.Lookahead
import ParserForge.Proofs.Parsing.Soundness
import ParserForge.Proofs.Parsing.Termination

/-!
Where a parse of a wrong input stops.  If every nonterminal derives a word, what has been taken
always begins a sentence, because the stack derives it and can be continued.  A symbol that is
refused cannot be the next one of any sentence, because that sentence would be refused as well.
-/

namespace ParserForge

namespace ParseTable

open Grammar

variable {g : Grammar} {c : Collection} {t : ParseTable} {w taken rest : List TerminalId}
  {a : TerminalId} {γ : List Symbol} {k : Configuration StateId TerminalId ProductionId}
  {e : ParseError StateId}

/-- A parse counts the symbols that it has taken. -/
theorem Tracks.take_index (hgoes : t.machine.Goes (t.machine.start w) k)
    (hk : Tracks g c w k γ taken) : w.take k.index = taken := by
  have hcount := Machine.index_add_length_start hgoes
  rw [hk.input, List.length_append] at hcount
  have hindex : k.index = taken.length := by omega
  rw [hk.input, hindex, List.take_left]

/-- Unless everything has been taken, there is a next symbol. -/
theorem Tracks.exists_take_succ_index (hgoes : t.machine.Goes (t.machine.start w) k)
    (hk : Tracks g c w k γ taken) (hlt : k.index < w.length) :
    ∃ a rest, k.rest = a :: rest ∧ w.take (k.index + 1) = taken ++ [a] := by
  have hcount := Machine.index_add_length_start hgoes
  cases hrest : k.rest with
  | nil =>
      rw [hrest, List.length_nil] at hcount
      omega
  | cons a rest =>
      rw [hk.input, List.length_append] at hcount
      have hindex : k.index = taken.length := by omega
      refine ⟨a, rest, rfl, ?_⟩
      rw [hk.input, hindex, hrest, List.take_length_add_append, List.take_succ_cons, List.take_zero]

/-- An input that is accepted is a sentence. -/
theorem Tracks.sentence {d : Derivation ProductionId} (hg : g.WellFormed) (ht : t.Faithful g c)
    (hw : ∀ a ∈ w, g.IsUserTerminal a) (hk : Tracks g c w k γ taken)
    (h : t.machine.step k = .accepted d) : g.Sentence w := by
  obtain ⟨heoi, rfl, _⟩ := step_accepted hg ht hk.spells h
  have hrest : k.rest = [] := eq_nil_of_head_eoi heoi fun a ha =>
    hw a (by rw [hk.input]; exact List.mem_append_right _ ha)
  rw [Sentence, hk.input, hrest, List.append_nil]
  exact hk.rightmost.derives

section Productive

variable (hg : g.WellFormed) (hc : c.Canonical g) (ht : t.Faithful g c)

include hg hc

/-- What a parse has taken begins a sentence. -/
theorem Tracks.beginsSentence (hprod : g.Productive) (hk : Tracks g c w k γ taken) :
    g.BeginsSentence taken := by
  obtain ⟨top, stack, _, hwalk⟩ := hk.spells.exists_top
  obtain ⟨p, α, β, hviable⟩ := hc.exists_viable hwalk
  obtain ⟨δ, hδ⟩ := hviable.derives
  rw [List.append_assoc] at hδ
  exact hprod.beginsSentence hg hδ hk.rightmost.derives

include ht

/-- What a parse has taken does not go on with a symbol that is refused. -/
theorem Tracks.not_beginsSentence (hgoes : t.machine.Goes (t.machine.start w) k)
    (hk : Tracks g c w k γ taken) (hrest : k.rest = a :: rest)
    (h : t.machine.step k = .refused e) : ¬ g.BeginsSentence (taken ++ [a]) := by
  rintro ⟨v, hv⟩
  rw [List.append_assoc, List.singleton_append] at hv
  -- the sentence is parsed like the input up to the symbol, so it is refused there
  obtain ⟨u, hu, hreplace⟩ := Machine.goes_replace hgoes
  obtain rfl : u = taken := List.append_cancel_right (hu.symm.trans hk.input)
  have hhead : (a :: v).head? = k.rest.head? := by rw [hrest]; rfl
  have hended : t.machine.step k = .ended (.error e) := h
  have hrefused : t.parse? (u ++ a :: v) = some (.error e) :=
    (parse?_eq_some_iff_goes t _ _).mpr
      ⟨_, hreplace (a :: v) hhead, Machine.ended_replace hended hhead⟩
  obtain ⟨ps, hps⟩ := hv.yields
  obtain ⟨d, hd, _⟩ := parse?_of_yields hg hc ht hps
  rw [hrefused] at hd
  cases hd

/-- If everything reachable can start somehow, an input that is not a sentence is refused. -/
theorem exists_refused (hstarts : ∀ n, g.Reachable n → g.Starts n)
    (hw : ∀ a ∈ w, g.IsUserTerminal a) (hno : ¬ g.Sentence w) :
    ∃ k e, t.machine.Goes (t.machine.start w) k ∧ t.machine.step k = .refused e := by
  have hsettles : ∀ {γ s}, c.Spells s γ → ∀ a, t.machine.Settles (some a) s :=
    fun hs a => settles_of_starts hg hc ht hstarts hs a
  obtain ⟨n, out, hn⟩ := exists_run hg ht hsettles (k := t.machine.start w) (γ := []) .bottom
  obtain ⟨k, hgoes, hk⟩ := Machine.exists_run_iff.mp ⟨n, hn⟩
  cases out with
  | ok d =>
      obtain ⟨γ, taken, htracks⟩ := tracks_of_goes hg ht hgoes
      exact absurd (htracks.sentence hg ht hw hk) hno
  | error e => exact ⟨k, e, hgoes, hk⟩

/-- If every nonterminal derives a word, an input that is not a sentence is refused where it can no
longer be continued to one. -/
theorem exists_unexpected (hprod : g.Productive) (hw : ∀ a ∈ w, g.IsUserTerminal a)
    (hno : ¬ g.Sentence w) :
    ∃ i q, t.parse? w = some (.error (.unexpected i q)) ∧ i ≤ w.length ∧
      g.BeginsSentence (w.take i) ∧
      (i < w.length → ¬ g.BeginsSentence (w.take (i + 1))) := by
  have hstarts : ∀ n, g.Reachable n → g.Starts n := fun n hn => hprod.starts hg hn
  obtain ⟨k, e, hgoes, hk⟩ := exists_refused hg hc ht hstarts hw hno
  obtain ⟨γ, taken, htracks⟩ := tracks_of_goes hg ht hgoes
  obtain ⟨top, _, _, _, rfl⟩ := step_refused hg ht hc htracks.spells hk
  have hcount := Machine.index_add_length_start hgoes
  have hbegins := htracks.beginsSentence hg hc hprod
  rw [← htracks.take_index hgoes] at hbegins
  refine ⟨k.index, top, (parse?_eq_some_iff_goes t w _).mpr ⟨k, hgoes, hk⟩, by omega, hbegins,
    fun hlt => ?_⟩
  obtain ⟨a, rest, hrest, htake⟩ := htracks.exists_take_succ_index hgoes hlt
  rw [htake]
  exact htracks.not_beginsSentence hg hc ht hgoes hrest hk

end Productive

/-- If every nonterminal derives a word, an input that is not a sentence is refused at the first
symbol that no sentence has there, or at its end if it is the beginning of a sentence. -/
theorem parse?_error_position {ds : List Declaration} {method : Method}
    (hg : Grammar.define ds = .ok g) (hprod : g.Productive) (ht : generate g method = .ok t)
    (hw : ∀ a ∈ w, g.IsUserTerminal a) (hno : ¬ g.Sentence w) :
    ∃ i q, t.parse? w = some (.error (.unexpected i q)) ∧ i ≤ w.length ∧
      g.BeginsSentence (w.take i) ∧
      (i < w.length → ¬ g.BeginsSentence (w.take (i + 1))) ∧
      (i = w.length → ∃ v, v ≠ [] ∧ g.Sentence (w ++ v)) := by
  have hwf := wellFormed_of_define hg
  obtain ⟨c, hc, hfaithful, _⟩ := faithful_generate hwf ht
  obtain ⟨i, q, hparse, hle, hbegins, hno'⟩ := exists_unexpected hwf hc hfaithful hprod hw hno
  refine ⟨i, q, hparse, hle, hbegins, hno', fun heq => ?_⟩
  rw [heq, List.take_length] at hbegins
  obtain ⟨v, hv⟩ := hbegins
  refine ⟨v, ?_, hv⟩
  rintro rfl
  rw [List.append_nil] at hv
  exact hno hv

end ParseTable

/-- A pair of letters that is closed twice is no sentence. -/
theorem Nested.not_sentence : ¬ Nested.grammar.Sentence [2, 3, 3] := by
  intro h
  have hwf := Grammar.wellFormed_of_define Nested.define_declarations
  obtain ⟨c, hc, ht, _⟩ := ParseTable.faithful_generate hwf Nested.generate_slr1
  obtain ⟨ps, hps⟩ := h.yields
  obtain ⟨d, hd, _⟩ := ParseTable.parse?_of_yields hwf hc ht hps
  have hrefused : Nested.slrTable.parse? [2, 3, 3] = some (.error (.unexpected 2 1)) :=
    (ParseTable.parse?_eq_some_iff _ _ _).mpr ⟨6, by rfl⟩
  rw [hrefused] at hd
  cases hd

theorem ParseTable.parse?_error_position_nested : Nested.grammar.Productive ∧
    (∀ a ∈ [2, 3, 3], Nested.grammar.IsUserTerminal a) ∧ ¬ Nested.grammar.Sentence [2, 3, 3] ∧
      ∃ i q, Nested.slrTable.parse? [2, 3, 3] = some (.error (.unexpected i q)) ∧ i ≤ 3 ∧
        Nested.grammar.BeginsSentence ([2, 3, 3].take i) ∧
        (i < 3 → ¬ Nested.grammar.BeginsSentence ([2, 3, 3].take (i + 1))) ∧
        (i = 3 → ∃ v, v ≠ [] ∧ Nested.grammar.Sentence ([2, 3, 3] ++ v)) :=
  ⟨Nested.productive, Nested.isUserTerminal, Nested.not_sentence,
    parse?_error_position Nested.define_declarations Nested.productive Nested.generate_slr1
      Nested.isUserTerminal Nested.not_sentence⟩

end ParserForge

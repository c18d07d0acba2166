import Mathlib
import ParserForge.Proofs.Parsing.Stack

/-!
Every sentence is parsed.  A parse reads the leaves of the trees that an item expects, and reduces
by the productions of their inner nodes in the order in which the trees list them.  As a parse has
one outcome only, a sentence has one tree only.
-/

namespace ParserForge

namespace ParseTable

open Grammar

variable {g : Grammar} {c : Collection} {t : ParseTable}

/-- Where an item expects the roots of trees, the parse takes their leaves and reduces by their
productions. -/
theorem goes_of_yields (hg : g.WellFormed) (hc : c.Canonical g) (ht : t.Faithful g c)
    {δ : List Symbol} {w : List TerminalId} {ps : List ProductionId} (h : g.Yields δ w ps) :
    ∀ {γ α : List Symbol} {p : ProductionId} {v : List TerminalId} {s : List StateId} (i : Nat)
      (steps : List Step) (reductions : List ProductionId),
      c.Spells s γ → g.ViableOn γ p α δ (v.head?.getD .eoi) →
        ∃ s' steps', c.Spells s' (γ ++ δ) ∧
          t.machine.Goes ⟨s, w ++ v, i, steps, reductions⟩
            ⟨s', v, i + w.length, steps', ps.reverse ++ reductions⟩ := by
  induction h with
  | nil =>
      intro γ α p v s i steps reductions hs _
      exact ⟨s, steps, by simpa using hs, .refl⟩
  | @leaf δ w ps a _ ih =>
      intro γ α p v s i steps reductions hs h
      obtain ⟨s₁, hs₁, hstep⟩ := step_shift (v := w ++ v) hc ht i steps reductions hs h.viable
      obtain ⟨s', steps', hs', hgoes⟩ := ih _ _ _ hs₁ h.advance
      refine ⟨s', steps', by simpa using hs', .head hstep ?_⟩
      rwa [List.length_cons, Nat.add_comm w.length 1, ← Nat.add_assoc]
  | @node δ w₁ w₂ ps₂ ps₁ q r hr _ hδ ihbody ihrest =>
      intro γ α p v s i steps reductions hs h
      have hpredicted := h.predict hr hδ
      have hq := h.viable.ne_accept hg hr
      obtain ⟨s₁, steps₁, hs₁, hgoes₁⟩ := ihbody (v := w₂ ++ v) i steps reductions hs hpredicted
      obtain ⟨s₂, hs₂, hreduce⟩ := step_reduce hc ht _ _ _ hs₁ hr hpredicted hq h.viable
      obtain ⟨s', steps', hs', hgoes₂⟩ := ihrest (i + w₁.length)
        (.reduce r.body.length :: steps₁) (q :: (ps₁.reverse ++ reductions)) hs₂ h.advance
      refine ⟨s', steps', by simpa using hs', ?_⟩
      rw [List.append_assoc]
      refine hgoes₁.trans (.head hreduce ?_)
      simpa [Machine.Goes, Nat.add_assoc] using hgoes₂

/-- The trees over the start symbol are parsed. -/
theorem parse?_of_yields (hg : g.WellFormed) (hc : c.Canonical g) (ht : t.Faithful g c)
    {w : List TerminalId} {ps : List ProductionId} (h : g.Yields [.nonterminal g.start] w ps) :
    ∃ d, t.parse? w = some (.ok d) ∧ d.reductions = ps := by
  obtain ⟨s, steps, hs, hgoes⟩ := goes_of_yields hg hc ht h (v := []) 0 [] [] .bottom .start
  obtain ⟨top, stack, rfl, hwalk⟩ := hs.exists_top
  have haction := (ht.accept_iff _ top hwalk .eoi).mpr ⟨rfl, _, Viable.start.advance⟩
  have hlast : t.machine.run 1 ⟨top :: stack, [], 0 + w.length, steps, ps.reverse ++ []⟩ =
      some (.ok ⟨ps, (Step.accept :: steps).reverse⟩) := by
    simp [Machine.run, Machine.step, machine, move, haction]
  obtain ⟨n, hn⟩ := Machine.run_of_goes hgoes hlast
  rw [List.append_nil] at hn
  exact ⟨_, (parse?_eq_some_iff t w _).mpr ⟨n, hn⟩, rfl⟩

/-- Every sentence is parsed, and has one rightmost derivation only, which the reductions are when
they are read backwards. -/
theorem parse?_complete {ds : List Declaration} {method : Method} {w : List TerminalId}
    (hg : Grammar.define ds = .ok g) (ht : generate g method = .ok t)
    (hw : g.Derives [.nonterminal g.start] (word w)) :
    ∃ d, t.parse? w = some (.ok d) ∧
      ∀ ps, g.Rightmost ps [.nonterminal g.start] (word w) ↔ ps = d.reductions.reverse := by
  have hwf := wellFormed_of_define hg
  obtain ⟨c, hc, hfaithful, _⟩ := faithful_generate hwf ht
  obtain ⟨qs, hqs⟩ := hw.yields
  obtain ⟨d, hd, rfl⟩ := parse?_of_yields hwf hc hfaithful hqs
  refine ⟨d, hd, fun ps => rightmost_iff_yields.trans ⟨fun hps => ?_, fun hps => ?_⟩⟩
  · obtain ⟨e, he, hreductions⟩ := parse?_of_yields hwf hc hfaithful hps
    cases hd.symm.trans he
    rw [hreductions, List.reverse_reverse]
  · rwa [hps, List.reverse_reverse]

end ParseTable

/-- A letter is a word, and a sentence. -/
theorem Letters.derives : Letters.grammar.Derives [.nonterminal 1] (Grammar.word [2]) := by
  have hempty : Letters.grammar.Yields [.nonterminal 1] [] [2] :=
    Grammar.Yields.single (p := 2) (r := ⟨1, []⟩) rfl .nil
  have hletter : Letters.grammar.Yields [.nonterminal 1] [2] [2, 1] :=
    Grammar.Yields.single (p := 1) (r := ⟨1, [.terminal 2, .nonterminal 1]⟩) rfl (.leaf 2 hempty)
  exact hletter.derives

theorem ParseTable.parse?_complete_letters :
    Letters.grammar.Derives [.nonterminal 1] (Grammar.word [2]) ∧
      ∃ d, Letters.table.parse? [2] = some (.ok d) ∧ ∀ ps,
        Letters.grammar.Rightmost ps [.nonterminal 1] (Grammar.word [2]) ↔
          ps = d.reductions.reverse :=
  ⟨Letters.derives,
    ParseTable.parse?_complete Letters.define_declarations Letters.generate_slr1 Letters.derives⟩

end ParserForge

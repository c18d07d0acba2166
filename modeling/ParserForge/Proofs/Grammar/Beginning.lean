import Mathlib
import ParserForge.Proofs.Grammar.Productive

/-!
FIRST sets against derivations.  A sequence can begin with a terminal just if it derives something
that does, whether or not what follows the terminal derives a word.  So the FIRST set of a sequence
holds the first terminals of all that it derives, and the mark for the empty word if it derives the
empty word.
-/

namespace ParserForge

namespace Grammar

/-- The symbol belongs to the grammar.  The mark for the empty word does not: it stands in sets of
terminals only. -/
def HasSymbol (g : Grammar) : Symbol → Prop
  | .terminal t => t < g.terminals.length ∧ t ≠ .epsilon
  | .nonterminal n => n < g.nonterminals.length

variable {g : Grammar} {γ : List Symbol} {n : NonterminalId} {t : TerminalId}

theorem epsilon_notMem_of_hasSymbol (h : ∀ X ∈ γ, g.HasSymbol X) : Symbol.terminal .epsilon ∉ γ :=
  fun hmem => (h _ hmem).2 rfl

/-- What can begin with a terminal derives something that does. -/
theorem Begins.derives (h : g.Begins γ t) : ∃ δ, g.Derives γ (.terminal t :: δ) := by
  induction h with
  | leaf t γ => exact ⟨γ, .refl⟩
  | @node p r t γ hr _ ih =>
      obtain ⟨δ, hδ⟩ := ih
      have hstep : g.Rewrites (.nonterminal r.head :: γ) (r.body ++ γ) :=
        ⟨r, List.mem_of_getElem? hr, [], γ, rfl, rfl⟩
      have hbody := hδ.append (Relation.ReflTransGen.refl (a := γ))
      exact ⟨δ ++ γ, .head hstep hbody⟩
  | @skip n γ t hnull _ ih =>
      obtain ⟨δ, hδ⟩ := ih
      exact ⟨δ, (nullable_iff.mp hnull).append hδ⟩

theorem begins_iff_derives : g.Begins γ t ↔ ∃ δ, g.Derives γ (.terminal t :: δ) :=
  ⟨Begins.derives, fun ⟨_, h⟩ => h.begins⟩

/-- What begins a nonterminal begins the body of one of its productions. -/
theorem begins_nonterminal_iff : g.Begins [.nonterminal n] t ↔
    ∃ r ∈ g.productions, r.head = n ∧ g.Begins r.body t := by
  constructor
  · intro h
    cases h with
    | node _ hr hbody => exact ⟨_, List.mem_of_getElem? hr, rfl, hbody⟩
    | skip _ hnil => cases hnil
  · rintro ⟨r, hr, rfl, hbody⟩
    obtain ⟨p, hp⟩ := List.mem_iff_getElem?.mp hr
    exact .node [] hp hbody

/-- A nonterminal is nullable if the body of one of its productions is. -/
theorem nullable_nonterminal_iff : g.Nullable [.nonterminal n] ↔
    ∃ r ∈ g.productions, r.head = n ∧ g.Nullable r.body := by
  constructor
  · rintro ⟨ps, h⟩
    generalize hw : ([] : List TerminalId) = w at h
    cases h with
    | node hr hbody _ =>
        obtain ⟨rfl, -⟩ := List.append_eq_nil_iff.mp hw.symm
        exact ⟨_, List.mem_of_getElem? hr, rfl, _, hbody⟩
  · rintro ⟨r, hr, rfl, hbody⟩
    obtain ⟨p, hp⟩ := List.mem_iff_getElem?.mp hr
    exact .of_body hp hbody

end Grammar

namespace FirstSets

open Grammar

variable {g : Grammar} {γ : List Symbol} {n : NonterminalId} {t : TerminalId}

theorem ofSequence_nonterminal (s : FirstSets) (n : NonterminalId) :
    s.ofSequence [.nonterminal n] = s.get n := by
  ext t
  rw [ofSequence, SetTable.firstOf, SetTable.firstOf, get]
  by_cases hε : TerminalId.epsilon ∈ s.table.get n
  · by_cases ht : t = .epsilon
    · simp [hε, ht]
    · simp [hε, ht]
  · simp [hε]

theorem isNullable_iff_mem (s : FirstSets) (n : NonterminalId) :
    s.isNullable n = true ↔ TerminalId.epsilon ∈ s.get n := by
  simp [isNullable, TerminalSet.contains]

/-- The sets decide about every sequence of symbols of the grammar. -/
theorem ofSequence?_eq_some (hg : g.WellFormed) (hγ : ∀ X ∈ γ, g.HasSymbol X) :
    (ofGrammar g).ofSequence? γ = some ((ofGrammar g).ofSequence γ) := by
  have hdecides : (ofGrammar g).decides γ = true := by
    induction γ with
    | nil => rfl
    | cons X γ ih =>
        cases X with
        | terminal t => rfl
        | nonterminal n =>
            have hn : n < (ofGrammar g).table.sets.length := by
              rw [(sound_ofGrammar hg).length_eq]
              exact hγ _ List.mem_cons_self
            have hrest := ih fun X hX => hγ X (List.mem_cons_of_mem _ hX)
            simp [decides, hn, hrest]
  rw [ofSequence?, if_pos hdecides]

/-- The set of a nonterminal unites the sets of the bodies of its productions. -/
theorem mem_get_iff (hg : g.WellFormed) : t ∈ (ofGrammar g).get n ↔
    ∃ r ∈ g.productions, r.head = n ∧ t ∈ (ofGrammar g).ofSequence r.body := by
  rw [← ofSequence_nonterminal]
  by_cases ht : t = .epsilon
  · subst ht
    rw [epsilon_mem_ofSequence_iff hg (by simp), nullable_nonterminal_iff]
    have hbody : ∀ r ∈ g.productions,
        (TerminalId.epsilon ∈ (ofGrammar g).ofSequence r.body ↔ g.Nullable r.body) :=
      fun r hr => epsilon_mem_ofSequence_iff hg (epsilon_notMem (hg.symbols r hr))
    exact exists_congr fun r => and_congr_right fun hr => and_congr_right fun _ => (hbody r hr).symm
  · simp only [mem_ofSequence_iff hg ht, begins_nonterminal_iff]

/-- The FIRST sets come to rest.  The set of a sequence of symbols holds a terminal if and only if
the sequence derives something that begins with it, and the mark for the empty word if and only if
it derives the empty word.  The set of a nonterminal unites those of its bodies, and it is nullable
if and only if it derives the empty word. -/
theorem first_exact {ds : List Declaration} (hg : Grammar.define ds = .ok g) :
    RestsAt (round g) (.empty g.nonterminals.length) (ofGrammar g).table ∧
    (∀ γ, (∀ X ∈ γ, g.HasSymbol X) → ∃ s, (ofGrammar g).ofSequence? γ = some s ∧
      (∀ t, t ≠ .epsilon → (t ∈ s ↔ ∃ δ, g.Derives γ (.terminal t :: δ))) ∧
      (TerminalId.epsilon ∈ s ↔ g.Derives γ [])) ∧
    ∀ n < g.nonterminals.length,
      (∀ t, t ∈ (ofGrammar g).get n ↔
        ∃ r ∈ g.productions, r.head = n ∧ t ∈ (ofGrammar g).ofSequence r.body) ∧
      ((ofGrammar g).isNullable n = true ↔ g.Derives [.nonterminal n] []) := by
  have hwf := wellFormed_of_define hg
  refine ⟨restsAt_stabilize (round_ofGrammar hwf), fun γ hγ => ?_, fun n _ => ⟨?_, ?_⟩⟩
  · refine ⟨_, ofSequence?_eq_some hwf hγ, fun t ht => ?_, ?_⟩
    · rw [mem_ofSequence_iff hwf ht, begins_iff_derives]
    · rw [epsilon_mem_ofSequence_iff hwf (epsilon_notMem_of_hasSymbol hγ), nullable_iff]
  · exact fun t => mem_get_iff hwf
  · rw [isNullable_iff_mem, ← ofSequence_nonterminal, epsilon_mem_ofSequence_iff hwf (by simp),
      nullable_iff]

theorem first_exact_nested : Grammar.define Nested.declarations = .ok Nested.grammar ∧
    (∀ X ∈ [Symbol.nonterminal 1, .terminal 3], Nested.grammar.HasSymbol X) ∧
    ∃ s, (ofGrammar Nested.grammar).ofSequence? [.nonterminal 1, .terminal 3] = some s ∧
      (∀ t, t ≠ .epsilon →
        (t ∈ s ↔ ∃ δ, Nested.grammar.Derives [.nonterminal 1, .terminal 3] (.terminal t :: δ))) ∧
      (TerminalId.epsilon ∈ s ↔ Nested.grammar.Derives [.nonterminal 1, .terminal 3] []) := by
  have hsymbols : ∀ X ∈ [Symbol.nonterminal 1, .terminal 3], Nested.grammar.HasSymbol X := by
    simp [Grammar.HasSymbol, Nested.grammar, TerminalId.epsilon]
  exact ⟨Nested.define_declarations, hsymbols,
    (first_exact Nested.define_declarations).2.1 _ hsymbols⟩

end FirstSets

end ParserForge

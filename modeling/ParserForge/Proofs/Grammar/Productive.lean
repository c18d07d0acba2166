import Mathlib
import ParserForge.Proofs.Grammar.Reachable

/-!
Grammars in which every nonterminal derives a word.  There, whatever is derived from the start
symbol can be derived further to a word, so each of its beginnings begins a sentence.
-/

namespace ParserForge

namespace Grammar

/-- Every nonterminal derives a word. -/
def Productive (g : Grammar) : Prop :=
  ∀ n < g.nonterminals.length, ∃ w, g.Derives [.nonterminal n] (word w)

/-- The start symbol derives the word. -/
def Sentence (g : Grammar) (w : List TerminalId) : Prop :=
  g.Derives [.nonterminal g.start] (word w)

/-- The word is the beginning of a sentence. -/
def BeginsSentence (g : Grammar) (u : List TerminalId) : Prop := ∃ v, g.Sentence (u ++ v)

variable {g : Grammar} {γ γ' δ δ' : List Symbol} {t : TerminalId} {u : List TerminalId}

theorem Derives.append (hγ : g.Derives γ γ') (hδ : g.Derives δ δ') :
    g.Derives (γ ++ δ) (γ' ++ δ') := by
  have hfirst : g.Derives (γ ++ δ) (γ' ++ δ) := by simpa using hγ.in_context [] δ
  have hsecond : g.Derives (γ' ++ δ) (γ' ++ δ') := by simpa using hδ.in_context γ' []
  exact hfirst.trans hsecond

namespace Productive

variable (hprod : g.Productive)

include hprod

/-- There are trees over all sequences of declared symbols. -/
theorem exists_yields (hγ : ∀ X ∈ γ, g.IsUserSymbol X) : ∃ w ps, g.Yields γ w ps := by
  induction γ with
  | nil => exact ⟨[], [], .nil⟩
  | cons X γ ih =>
      have hX : g.IsUserSymbol X := hγ X List.mem_cons_self
      obtain ⟨w, ps, hrest⟩ := ih fun Y hY => hγ Y (List.mem_cons_of_mem X hY)
      cases X with
      | terminal t => exact ⟨t :: w, ps, .leaf t hrest⟩
      | nonterminal n =>
          obtain ⟨v, hv⟩ := hprod n hX.2
          obtain ⟨qs, hqs⟩ := hv.yields
          exact ⟨v ++ w, qs ++ ps, hqs.append hrest⟩

/-- A sequence of declared symbols can begin with a terminal or vanish. -/
theorem begins_or_nullable (hγ : ∀ X ∈ γ, g.IsUserSymbol X) :
    (∃ t, g.Begins γ t) ∨ g.Nullable γ := by
  obtain ⟨w, ps, h⟩ := hprod.exists_yields hγ
  cases w with
  | nil => exact Or.inr ⟨ps, h⟩
  | cons t w => exact Or.inl ⟨t, h.begins⟩

/-- What can begin with a terminal derives a word that begins with it. -/
theorem exists_yields_of_begins (hg : g.WellFormed) (h : g.Begins γ t)
    (hγ : ∀ X ∈ γ, g.IsUserSymbol X) : ∃ w ps, g.Yields γ (t :: w) ps := by
  induction h with
  | leaf t γ =>
      obtain ⟨w, ps, hrest⟩ := hprod.exists_yields fun X hX => hγ X (List.mem_cons_of_mem _ hX)
      exact ⟨w, ps, .leaf t hrest⟩
  | node γ hr _ ih =>
      obtain ⟨v, qs, hbody⟩ := ih (hg.symbols _ (List.mem_of_getElem? hr))
      obtain ⟨w, ps, hrest⟩ := hprod.exists_yields fun X hX => hγ X (List.mem_cons_of_mem _ hX)
      exact ⟨v ++ w, _, .node hr hbody hrest⟩
  | skip hnull _ ih =>
      obtain ⟨qs, hempty⟩ := hnull
      obtain ⟨w, ps, hrest⟩ := ih fun X hX => hγ X (List.mem_cons_of_mem _ hX)
      exact ⟨w, qs ++ ps, hempty.append hrest⟩

/-- What is reachable can start somehow. -/
theorem starts (hg : g.WellFormed) {n : NonterminalId} (hn : g.Reachable n) : g.Starts n := by
  obtain ⟨w, hw⟩ := hprod n (hn.isUserNonterminal hg).2
  cases w with
  | nil => exact Or.inl hw
  | cons t w => exact Or.inr ⟨t, word w, hw⟩

/-- What begins something that the start symbol derives can be continued to a sentence. -/
theorem beginsSentence (hg : g.WellFormed)
    (h : g.Derives [.nonterminal g.start] (γ ++ δ)) (hu : g.Derives γ (word u)) :
    g.BeginsSentence u := by
  have hδ : ∀ X ∈ δ, g.IsUserSymbol X := fun X hX => by
    refine h.isUserSymbol hg (fun Y hY => ?_) X (List.mem_append_right γ hX)
    rw [List.mem_singleton.mp hY]
    exact hg.start
  obtain ⟨v, ps, hv⟩ := hprod.exists_yields hδ
  refine ⟨v, h.trans ?_⟩
  rw [word_append]
  exact hu.append hv.derives

end Productive

end Grammar

/-! Nested pairs of letters: `S -> a S b` and `S -> ε`. -/

namespace Nested

def declarations : List Declaration :=
  [.terminal "a", .terminal "b", .nonterminal "S",
    .production 1 [.terminal 2, .nonterminal 1, .terminal 3], .production 1 []]

def grammar : Grammar :=
  ⟨["$eoi", "$epsilon", "a", "b"], ["$start", "S"],
    [⟨0, [.nonterminal 1]⟩, ⟨1, [.terminal 2, .nonterminal 1, .terminal 3]⟩, ⟨1, []⟩], 1⟩

theorem define_declarations : Grammar.define declarations = .ok grammar := by decide +kernel

theorem productive : grammar.Productive := by
  have hempty : grammar.Derives [.nonterminal 1] [] :=
    .single ⟨⟨1, []⟩, by simp [grammar], [], [], rfl, rfl⟩
  have hroot : grammar.Derives [.nonterminal 0] [.nonterminal 1] :=
    .single ⟨⟨0, [.nonterminal 1]⟩, by simp [grammar], [], [], rfl, rfl⟩
  intro n hn
  rcases Nat.le_one_iff_eq_zero_or_eq_one.mp (Nat.le_of_lt_succ hn) with rfl | rfl
  · exact ⟨[], hroot.trans hempty⟩
  · exact ⟨[], hempty⟩

theorem isUserTerminal : ∀ a ∈ [2, 3, 3], grammar.IsUserTerminal a := by
  intro a ha
  have hcases : a = 2 ∨ a = 3 := by simpa using ha
  rcases hcases with rfl | rfl
  · exact ⟨by decide, by decide⟩
  · exact ⟨by decide, by decide⟩

end Nested

end ParserForge

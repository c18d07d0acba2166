import Mathlib
import ParserForge.Proofs.Grammar.Productive

/-!
The languages of a grammar.  The words that symbols derive are products of the languages of the
single symbols, and those of the nonterminals are the least languages that are closed under the
productions.
-/

namespace ParserForge

namespace Grammar

variable {g : Grammar} {γ δ : List Symbol} {w : List TerminalId} {t : TerminalId} {r : Production}

/-- The words that the symbols derive. -/
def words (g : Grammar) (γ : List Symbol) : Language TerminalId := {w | ∃ ps, g.Yields γ w ps}

theorem mem_words : w ∈ g.words γ ↔ ∃ ps, g.Yields γ w ps := Iff.rfl

/-- The sentences are the words of the start symbol. -/
theorem sentence_iff : g.Sentence w ↔ w ∈ g.words [.nonterminal g.start] := by
  constructor
  · exact Derives.yields
  · rintro ⟨ps, h⟩
    exact h.derives

@[simp] theorem words_nil : g.words [] = 1 := by
  ext w
  rw [mem_words, Language.mem_one]
  constructor
  · rintro ⟨ps, h⟩
    cases h
    rfl
  · rintro rfl
    exact ⟨[], .nil⟩

@[simp] theorem words_terminal : g.words [.terminal t] = {[t]} := by
  ext w
  constructor
  · rintro ⟨ps, h⟩
    exact (h.eq_of_word (w := [t])).1
  · intro h
    obtain rfl : w = [t] := h
    exact ⟨[], .of_word [t]⟩

theorem words_append : g.words (γ ++ δ) = g.words γ * g.words δ := by
  ext w
  rw [Language.mem_mul]
  constructor
  · rintro ⟨ps, h⟩
    obtain ⟨u, v, qs, rs, rfl, rfl, hγ, hδ⟩ := h.split
    exact ⟨u, ⟨qs, hγ⟩, v, ⟨rs, hδ⟩, rfl⟩
  · rintro ⟨u, ⟨qs, hγ⟩, v, ⟨rs, hδ⟩, rfl⟩
    exact ⟨qs ++ rs, hγ.append hδ⟩

/-- A nonterminal derives what the bodies of its productions derive. -/
theorem words_body_le (hr : r ∈ g.productions) :
    g.words r.body ≤ g.words [.nonterminal r.head] := by
  obtain ⟨p, hp⟩ := List.mem_iff_getElem?.mp hr
  rintro w ⟨ps, h⟩
  exact ⟨ps ++ [p], h.single hp⟩

/-- The words of symbols are made of words of each of them. -/
theorem words_eq_prod (γ : List Symbol) :
    g.words γ = (γ.map fun X => g.words [X]).prod := by
  induction γ with
  | nil => simp
  | cons X γ ih =>
      rw [List.map_cons, List.prod_cons, ← ih, ← words_append, List.singleton_append]

/-- Languages that are closed under the productions contain what the symbols derive. -/
theorem words_le {L : Symbol → Language TerminalId} (hleaf : ∀ t, {[t]} ≤ L (.terminal t))
    (hnode : ∀ r ∈ g.productions, (r.body.map L).prod ≤ L (.nonterminal r.head))
    (γ : List Symbol) : g.words γ ≤ (γ.map L).prod := by
  rintro w ⟨ps, h⟩
  induction h with
  | nil => exact Language.nil_mem_one
  | leaf t _ ih => exact Language.append_mem_mul (hleaf t rfl) ih
  | node hr _ _ ihbody ihrest =>
      exact Language.append_mem_mul (hnode _ (List.mem_of_getElem? hr) ihbody) ihrest

end Grammar

end ParserForge

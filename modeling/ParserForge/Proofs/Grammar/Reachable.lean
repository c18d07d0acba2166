import Mathlib
import ParserForge.Proofs.Grammar.First

/-!
Nonterminals that matter to a parse from the start symbol, and what sequences of symbols can begin
with.
-/

namespace ParserForge

namespace Grammar

/-- The nonterminal occurs in something that the start symbol derives. -/
def Reachable (g : Grammar) (n : NonterminalId) : Prop :=
  ∃ α β, g.Derives [.nonterminal g.start] (α ++ .nonterminal n :: β)

/-- The nonterminal derives the empty word, or something that begins with a terminal. -/
def Starts (g : Grammar) (n : NonterminalId) : Prop :=
  g.Derives [.nonterminal n] [] ∨ ∃ t δ, g.Derives [.nonterminal n] (.terminal t :: δ)

variable {g : Grammar} {γ δ : List Symbol} {t : TerminalId}

theorem Nullable.split (h : g.Nullable (γ ++ δ)) : g.Nullable γ ∧ g.Nullable δ := by
  obtain ⟨ps, h⟩ := h
  obtain ⟨u, v, qs, rs, huv, rfl, hγ, hδ⟩ := h.split
  obtain ⟨rfl, rfl⟩ := List.append_eq_nil_iff.mp huv.symm
  exact ⟨⟨qs, hγ⟩, ⟨rs, hδ⟩⟩

namespace Begins

theorem split (h : g.Begins (γ ++ δ) t) : g.Begins γ t ∨ g.Nullable γ ∧ g.Begins δ t := by
  induction γ with
  | nil => exact Or.inr ⟨nullable_nil, h⟩
  | cons X γ ih =>
      cases h with
      | leaf => exact Or.inl (.leaf t γ)
      | node _ hr hbody => exact Or.inl (.node γ hr hbody)
      | skip hnull hrest =>
          rcases ih hrest with hγ | ⟨hγ, hδ⟩
          · exact Or.inl (.skip hnull hγ)
          · exact Or.inr ⟨hnull.append hγ, hδ⟩

theorem of_nullable (h : g.Nullable γ) (hδ : g.Begins δ t) : g.Begins (γ ++ δ) t := by
  induction γ with
  | nil => exact hδ
  | cons X γ ih =>
      obtain ⟨hX, hγ⟩ := Nullable.split (γ := [X]) h
      cases X with
      | terminal u =>
          obtain ⟨ps, hps⟩ := hX
          cases hps
      | nonterminal n => exact .skip hX (ih hγ)

end Begins

/-- If what a sequence is rewritten to can begin with a terminal, so can the sequence. -/
theorem Rewrites.begins (h : g.Rewrites γ δ) (hδ : g.Begins δ t) : g.Begins γ t := by
  obtain ⟨r, hr, α, β, rfl, rfl⟩ := h
  obtain ⟨p, hp⟩ := List.mem_iff_getElem?.mp hr
  rcases hδ.split with hfirst | ⟨hnull, hβ⟩
  · rcases hfirst.split with hα | ⟨hα, hbody⟩
    · exact hα.append _
    · exact .of_nullable hα (.node β hp hbody)
  · obtain ⟨hα, hbody⟩ := hnull.split
    exact .of_nullable hα (.skip (.of_body hp hbody) hβ)

theorem Derives.begins (h : g.Derives γ (.terminal t :: δ)) : g.Begins γ t := by
  induction h using Relation.ReflTransGen.head_induction_on with
  | refl => exact .leaf t δ
  | head hstep _ ih => exact hstep.begins ih

/-- Symbols that can all begin with something, or with nothing, can so one after the other. -/
theorem begins_or_nullable (h : ∀ n, Symbol.nonterminal n ∈ γ → g.Starts n) :
    (∃ t, g.Begins γ t) ∨ g.Nullable γ := by
  induction γ with
  | nil => exact Or.inr nullable_nil
  | cons X γ ih =>
      cases X with
      | terminal t => exact Or.inl ⟨t, .leaf t γ⟩
      | nonterminal n =>
          rcases h n List.mem_cons_self with hnull | ⟨t, δ, hδ⟩
          · have hn : g.Nullable [.nonterminal n] := nullable_iff.mpr hnull
            rcases ih fun m hm => h m (List.mem_cons_of_mem _ hm) with ⟨t, ht⟩ | hγ
            · exact Or.inl ⟨t, .skip hn ht⟩
            · exact Or.inr (hn.append hγ)
          · exact Or.inl ⟨t, hδ.begins.append γ⟩

/-- What is derived from declared symbols consists of declared symbols. -/
theorem Derives.isUserSymbol (hg : g.WellFormed) (h : g.Derives γ δ)
    (hγ : ∀ X ∈ γ, g.IsUserSymbol X) : ∀ X ∈ δ, g.IsUserSymbol X := by
  induction h with
  | refl => exact hγ
  | tail _ hstep ih =>
      obtain ⟨r, hr, α, β, rfl, rfl⟩ := hstep
      intro X hX
      rcases List.mem_append.mp hX with hX | hX
      · rcases List.mem_append.mp hX with hX | hX
        · exact ih X (List.mem_append_left _ hX)
        · exact hg.symbols r hr X hX
      · exact ih X (List.mem_append_right _ (List.mem_cons_of_mem _ hX))

theorem Reachable.isUserNonterminal {n : NonterminalId} (hg : g.WellFormed)
    (h : g.Reachable n) : g.IsUserNonterminal n := by
  obtain ⟨α, β, h⟩ := h
  refine h.isUserSymbol hg (fun X hX => ?_) (.nonterminal n) (by simp)
  rw [List.mem_singleton.mp hX]
  exact hg.start

end Grammar

end ParserForge

import Mathlib
import ParserForge.Proofs.Parsing.Evaluation

/-!
Trees over tokens of which the grammar knows the kind only.  A parse of the kinds is that of a tree
over the tokens themselves, so what its replay makes of the tokens can be shown production by
production.
-/

namespace ParserForge

namespace ParseTree

variable {α β ρ V : Type} (f : α → β)

/-- The tree with the kinds of the tokens at its leaves. -/
def relabel : ParseTree α ρ → ParseTree β ρ := fold (fun a => leaf (f a)) node

@[simp] theorem relabel_leaf (a : α) : (leaf a : ParseTree α ρ).relabel f = leaf (f a) := rfl

@[simp] theorem relabel_node (p : ρ) (ts : List (ParseTree α ρ)) :
    (node p ts).relabel f = node p (ts.map (relabel f)) :=
  fold_node _ _ p ts

theorem handles_relabel (T : ParseTree α ρ) : (T.relabel f).handles = T.handles := by
  induction T with
  | leaf a => rfl
  | node p ts ih => simp [List.flatMap_map, List.flatMap_congr ih]

theorem trace_relabel (T : ParseTree α ρ) : (T.relabel f).trace = T.trace := by
  induction T with
  | leaf a => rfl
  | node p ts ih => simp [List.flatMap_map, List.flatMap_congr ih]

/-- The kinds do not show in the derivation. -/
theorem derivation_relabel (T : ParseTree α ρ) : (T.relabel f).derivation = T.derivation := by
  rw [derivation, derivation, handles_relabel, trace_relabel]

/-- A tree over the kinds of tokens is a tree over the tokens. -/
theorem exists_relabel_eq (T : ParseTree β ρ) {tokens : List α} (h : T.leaves = tokens.map f) :
    ∃ T' : ParseTree α ρ, T'.relabel f = T ∧ T'.leaves = tokens := by
  induction T generalizing tokens with
  | leaf b =>
      obtain ⟨a, rfl, rfl⟩ := List.map_eq_singleton_iff.mp h.symm
      exact ⟨leaf a, rfl, rfl⟩
  | node p ts ih =>
      rw [leaves_node] at h
      have hchildren : ∃ ts' : List (ParseTree α ρ),
          ts'.map (relabel f) = ts ∧ ts'.flatMap leaves = tokens := by
        induction ts generalizing tokens with
        | nil =>
            obtain rfl := List.map_eq_nil_iff.mp h.symm
            exact ⟨[], rfl, rfl⟩
        | cons t ts ihts =>
            rw [List.flatMap_cons] at h
            obtain ⟨first, rest, rfl, hfirst, hrest⟩ := List.map_eq_append_iff.mp h.symm
            obtain ⟨t', rfl, rfl⟩ := ih _ List.mem_cons_self hfirst.symm
            obtain ⟨ts', rfl, rfl⟩ :=
              ihts (fun s hs => ih s (List.mem_cons_of_mem _ hs)) hrest.symm
            exact ⟨t' :: ts', rfl, rfl⟩
      obtain ⟨ts', rfl, rfl⟩ := hchildren
      exact ⟨node p ts', relabel_node f p ts', leaves_node p ts'⟩

/-- What holds of the leaves of a tree over tokens and of their values, and of a production if it
holds of the parts of its body, holds of the whole tree and of its value. -/
theorem fold_induction {g : Grammar} {kind : α → TerminalId} {shift : α → V}
    {reduce : ProductionId → List V → V} {P : Symbol → List α → V → Prop}
    (hnode : ∀ (p : ProductionId) (r : Production), g.productions[p]? = some r →
      ∀ parts : List (List α × V), List.Forall₂ (fun X part => P X part.1 part.2) r.body parts →
        P (.nonterminal r.head) (parts.flatMap Prod.fst) (reduce p (parts.map Prod.snd)))
    (T : ParseTree α ProductionId) (h : (T.relabel kind).Matches g)
    (hleaf : ∀ a ∈ T.leaves, P (.terminal (kind a)) [a] (shift a)) :
    P ((T.relabel kind).root g) T.leaves (T.fold shift reduce) := by
  induction T with
  | leaf a => exact hleaf a (List.mem_singleton_self a)
  | node p ts ih =>
      rw [relabel_node] at h
      rw [leaves_node] at hleaf
      cases h with
      | @node _ r _ hr hroots hmatches =>
          have hparts := hnode p r hr (ts.map fun t => (t.leaves, t.fold shift reduce)) (by
            rw [← hroots, List.map_map, List.forall₂_map_left_iff, List.forall₂_map_right_iff,
              List.forall₂_same]
            intro t ht
            apply ih t ht (hmatches _ (List.mem_map_of_mem ht))
            intro a ha
            exact hleaf a (List.mem_flatMap_of_mem ht ha))
          rw [relabel_node, root, Grammar.head_eq hr, leaves_node, fold_node]
          simpa [List.flatMap_map, Function.comp_def] using hparts

end ParseTree

namespace ParseTable

open Grammar

variable {g : Grammar} {c : Collection} {t : ParseTable}

/-- An accepted parse of the kinds of tokens has built a tree over the tokens. -/
theorem exists_relabelled_tree {α : Type} {kind : α → TerminalId} {tokens : List α}
    {d : Derivation ProductionId} (hg : g.WellFormed) (ht : t.Faithful g c)
    (hw : ∀ a ∈ tokens, g.IsUserTerminal (kind a))
    (h : t.parse? (tokens.map kind) = some (.ok d)) :
    ∃ T : ParseTree α ProductionId, (T.relabel kind).Matches g ∧
      (T.relabel kind).root g = .nonterminal g.start ∧ T.leaves = tokens ∧ d = T.derivation := by
  obtain ⟨T, hmatches, hroot, hleaves, rfl⟩ := exists_tree hg ht (by simpa using hw) h
  obtain ⟨T', rfl, htokens⟩ := T.exists_relabel_eq kind hleaves
  exact ⟨T', hmatches, hroot, htokens, T'.derivation_relabel kind⟩

end ParseTable

end ParserForge

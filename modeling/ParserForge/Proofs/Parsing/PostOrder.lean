import Mathlib
import ParserForge.Proofs.Parsing.Soundness
import ParserForge.Proofs.Parsing.Tree

/-!
A derivation that lists a tree, and the replay that builds trees, are inverse to each other.  A
replay moves trees from what is still to be read to its stack, and what the trees on the stack list,
followed by what is still to be read, is the same all the time.
-/

namespace ParserForge

namespace ParseTree

variable {α ρ : Type}

/-- A tree is the value that the actions that build trees make of it. -/
theorem fold_leaf_node (t : ParseTree α ρ) : t.fold .leaf .node = t := by
  induction t with
  | leaf a => rfl
  | node p ts ih => rw [fold_node, List.map_congr_left ih, List.map_id']

/-- A tree is not accepted before it is complete. -/
theorem accept_notMem_trace (t : ParseTree α ρ) : Step.accept ∉ t.trace := by
  induction t with
  | leaf a => simp
  | node p ts ih => simpa using ih

/-- A shift for each leaf. -/
theorem count_shift_trace (t : ParseTree α ρ) : t.trace.count .shift = t.leaves.length := by
  induction t with
  | leaf a => rfl
  | node p ts ih =>
      have hsum := congrArg List.sum (List.map_congr_left ih)
      rw [trace_node, leaves_node, List.count_append, List.count_flatMap, List.length_flatMap]
      simpa [Function.comp_def] using hsum

/-- A reduction for each inner node. -/
theorem length_arities_trace (t : ParseTree α ρ) :
    (t.trace.filterMap Step.arity?).length = t.handles.length := by
  induction t with
  | leaf a => rfl
  | node p ts ih =>
      have hsum := congrArg List.sum (List.map_congr_left ih)
      rw [trace_node, handles_node, List.filterMap_append, List.filterMap_flatMap,
        List.length_append, List.length_append, List.length_flatMap, List.length_flatMap]
      simpa [Step.arity?] using hsum

/-- The moves, handles and tokens, put behind those that the trees on the stack list, begin with
those that the tree lists.  The latest tree comes first on the stack. -/
structure Continues (t : ParseTree α ρ) (steps : List Step) (ps : List ρ) (tokens : List α)
    (stack : List (ParseTree α ρ)) : Prop where
  steps : t.trace ++ [.accept] <+: stack.reverse.flatMap trace ++ steps
  handles : t.handles <+: stack.reverse.flatMap handles ++ ps
  leaves : t.leaves <+: stack.reverse.flatMap leaves ++ tokens

section Continues

variable {t : ParseTree α ρ} {steps : List Step} {ps : List ρ} {tokens : List α}
  {stack : List (ParseTree α ρ)}

theorem Continues.of_leaf {a : α} (h : t.Continues steps ps tokens (.leaf a :: stack)) :
    t.Continues (.shift :: steps) ps (a :: tokens) stack where
  steps := by simpa using h.steps
  handles := by simpa using h.handles
  leaves := by simpa using h.leaves

theorem Continues.of_node {p : ρ} {children : List (ParseTree α ρ)}
    (h : t.Continues steps ps tokens (.node p children :: stack)) :
    t.Continues (.reduce children.length :: steps) (p :: ps) tokens
      (children.reverse ++ stack) where
  steps := by simpa using h.steps
  handles := by simpa using h.handles
  leaves := by simpa using h.leaves

theorem continues_singleton (t : ParseTree α ρ) (steps : List Step) (ps : List ρ)
    (tokens : List α) : t.Continues (.accept :: steps) ps tokens [t] where
  steps := by simp
  handles := by simp
  leaves := by simp

end Continues

/-- A replay that ends with a tree has read what the tree lists.  The induction is on the moves, and
what is on the stack grows and shrinks with them. -/
theorem continues_of_replayFrom {t : ParseTree α ρ} {n : Nat} {steps : List Step} {ps : List ρ}
    {tokens : List α} {stack : List (ParseTree α ρ)}
    (h : (replayFrom (m := Id) (fun a => pure (.leaf a)) (fun p ts => pure (.node p ts)) n steps ps
      tokens stack).run = .ok t) : t.Continues steps ps tokens stack := by
  induction steps generalizing n ps tokens stack with
  | nil => cases h
  | cons step steps ih =>
      cases step with
      | shift =>
          cases tokens with
          | nil => cases h
          | cons a tokens => exact (ih h).of_leaf
      | reduce arity =>
          cases ps with
          | nil => cases h
          | cons p ps =>
              rw [replayFrom] at h
              split at h
              · cases h
              · next henough =>
                  have hnode := (ih h).of_node
                  rwa [List.length_reverse, List.length_take_of_le (Nat.le_of_not_lt henough),
                    List.reverse_reverse, List.take_append_drop] at hnode
      | accept =>
          rcases stack with _ | ⟨u, _ | _⟩
          · cases h
          · obtain rfl : u = t := Except.ok.inj h
            exact continues_singleton u steps ps tokens
          · cases h

/-- A replay ends with the tree if and only if it reads first what the tree lists. -/
theorem replay_eq_ok_iff {t : ParseTree α ρ} {d : Derivation ρ} {tokens : List α} :
    d.replay tokens .leaf .node = .ok t ↔
      t.trace ++ [.accept] <+: d.steps ∧ t.handles <+: d.reductions ∧ t.leaves <+: tokens := by
  constructor
  · intro h
    have hread := continues_of_replayFrom h
    exact ⟨hread.steps, hread.handles, hread.leaves⟩
  · obtain ⟨reductions, steps⟩ := d
    rintro ⟨⟨after, rfl⟩, ⟨ps, rfl⟩, ⟨rest, rfl⟩⟩
    have h := replayFrom_trace (m := Id) (V := ParseTree α ρ) (fun a => pure (.leaf a))
      (fun p ts => pure (.node p ts)) t 0 (.accept :: after) ps rest []
    rw [Derivation.replay, Derivation.replayM, List.append_assoc, List.singleton_append, h,
      foldM_pure, fold_leaf_node, pure_bind]
    rfl

/-- The moves that a tree lists end where it is accepted. -/
theorem trace_concat_prefix_iff {t : ParseTree α ρ} {steps : List Step} :
    t.trace ++ [.accept] <+: steps ↔
      .accept ∈ steps ∧ t.trace = steps.takeWhile (· ≠ .accept) := by
  constructor
  · rintro ⟨after, rfl⟩
    have hall : ∀ s ∈ t.trace, decide (s ≠ .accept) = true := fun s hs =>
      decide_eq_true fun haccept => t.accept_notMem_trace (haccept ▸ hs)
    refine ⟨by simp, ?_⟩
    rw [List.append_assoc, List.takeWhile_append_of_pos hall]
    simp
  · rintro ⟨haccept, htrace⟩
    obtain ⟨before, after, rfl, hbefore⟩ := List.eq_append_cons_of_mem haccept
    have hall : ∀ s ∈ before, decide (s ≠ .accept) = true := fun s hs =>
      decide_eq_true fun haccept => hbefore (haccept ▸ hs)
    rw [List.takeWhile_append_of_pos hall, List.takeWhile_cons_of_neg (by simp),
      List.append_nil] at htrace
    exact ⟨after, by rw [htrace, List.append_assoc, List.singleton_append]⟩

/-- A tree is built again from the derivation that lists it.  Whatever a derivation and the tokens
are, if a replay builds a tree, then the moves up to the first acceptance, as many tokens as there
are shifts among these moves, and as many handles as there are reductions among them, are those that
the tree lists; and only then does it build that tree. -/
theorem replay_leaf_node (t : ParseTree α ρ) :
    t.derivation.replay t.leaves .leaf .node = .ok t ∧
      ∀ (d : Derivation ρ) (tokens : List α), d.replay tokens .leaf .node = .ok t ↔
        .accept ∈ d.steps ∧ t.trace = d.steps.takeWhile (· ≠ .accept) ∧
          t.leaves = tokens.take (t.trace.count .shift) ∧
          t.handles = d.reductions.take (t.trace.filterMap Step.arity?).length := by
  refine ⟨replay_eq_ok_iff.mpr ⟨List.prefix_rfl, List.prefix_rfl, List.prefix_rfl⟩,
    fun d tokens => ?_⟩
  rw [replay_eq_ok_iff, trace_concat_prefix_iff, count_shift_trace, length_arities_trace,
    ← List.prefix_iff_eq_take, ← List.prefix_iff_eq_take, and_assoc,
    and_comm (a := t.handles <+: d.reductions)]

/-- A replay that reads a token and a reduction too many, and a move behind the acceptance. -/
example : (⟨[7, 8, 9], [.shift, .reduce 0, .reduce 2, .accept, .shift]⟩ : Derivation Nat).replay
    ['a', 'b'] leaf node = .ok (.node 8 [.leaf 'a', .node 7 []]) := rfl

end ParseTree

end ParserForge

import Mathlib
import ParserForge.Grammar.Basic
import ParserForge.Parsing.Derivation

/-!
Trees over tokens, and the derivations that list them: what is below a node comes before the node.
To replay such a derivation is to fold the tree.
-/

namespace ParserForge

/-- A tree whose leaves are tokens.  An inner node has a handle and any number of children. -/
inductive ParseTree (α ρ : Type) where
  | leaf (token : α)
  | node (handle : ρ) (children : List (ParseTree α ρ))

namespace ParseTree

section Fold

variable {α ρ β : Type}

/-- What holds of the leaves, and of a node if it holds of its children, holds of all trees. -/
@[elab_as_elim, induction_eliminator]
theorem induction {motive : ParseTree α ρ → Prop} (leaf : ∀ a, motive (.leaf a))
    (node : ∀ p ts, (∀ t ∈ ts, motive t) → motive (.node p ts)) : ∀ t, motive t
  | .leaf a => leaf a
  | .node p ts => node p ts fun t _ => induction leaf node t

mutual

/-- The value of a tree, made bottom-up: a value for each leaf, and one for each inner node, made
from the values of its children. -/
def fold (shift : α → β) (reduce : ρ → List β → β) : ParseTree α ρ → β
  | .leaf a => shift a
  | .node p ts => reduce p (foldAll shift reduce ts)

/-- The values of trees. -/
def foldAll (shift : α → β) (reduce : ρ → List β → β) : List (ParseTree α ρ) → List β
  | [] => []
  | t :: ts => fold shift reduce t :: foldAll shift reduce ts

end

variable (shift : α → β) (reduce : ρ → List β → β) (a : α) (p : ρ) (ts : List (ParseTree α ρ))

theorem foldAll_eq_map : foldAll shift reduce ts = ts.map (fold shift reduce) := by
  induction ts with
  | nil => rfl
  | cons t ts ih => rw [foldAll, ih, List.map_cons]

@[simp] theorem fold_leaf : (leaf a).fold shift reduce = shift a := rfl

@[simp] theorem fold_node :
    (node p ts).fold shift reduce = reduce p (ts.map (fold shift reduce)) := by
  rw [fold, foldAll_eq_map]

/-- The leaves from left to right. -/
def leaves : ParseTree α ρ → List α := fold (fun a => [a]) fun _ ls => ls.flatten

/-- The handles of the inner nodes, those below a node before its own. -/
def handles : ParseTree α ρ → List ρ := fold (fun _ => []) fun p hs => hs.flatten ++ [p]

/-- The moves that build the tree. -/
def trace : ParseTree α ρ → List Step :=
  fold (fun _ => [.shift]) fun _ ss => ss.flatten ++ [.reduce ss.length]

/-- The derivation that lists the tree. -/
def derivation (t : ParseTree α ρ) : Derivation ρ := ⟨t.handles, t.trace ++ [.accept]⟩

@[simp] theorem leaves_leaf : (leaf a : ParseTree α ρ).leaves = [a] := rfl

@[simp] theorem leaves_node : (node p ts).leaves = ts.flatMap leaves :=
  fold_node _ _ p ts

@[simp] theorem handles_leaf : (leaf a : ParseTree α ρ).handles = [] := rfl

@[simp] theorem handles_node : (node p ts).handles = ts.flatMap handles ++ [p] :=
  fold_node _ _ p ts

@[simp] theorem trace_leaf : (leaf a : ParseTree α ρ).trace = [.shift] := rfl

@[simp] theorem trace_node :
    (node p ts).trace = ts.flatMap trace ++ [.reduce ts.length] := by
  rw [trace, fold_node, List.length_map]
  rfl

end Fold

section Replay

variable {m : Type → Type} [Monad m] {α ρ V : Type} (shift : α → m V) (reduce : ρ → List V → m V)

/-- The value of a tree, made by actions that may have effects: from left to right, and those of
the children before that of their parent. -/
def foldM : ParseTree α ρ → m V := fold shift fun p values => values.mapM id >>= reduce p

@[simp] theorem foldM_leaf (a : α) : (leaf a).foldM shift reduce = shift a := rfl

variable [LawfulMonad m]

@[simp] theorem foldM_node (p : ρ) (ts : List (ParseTree α ρ)) :
    (node p ts).foldM shift reduce = ts.mapM (foldM shift reduce) >>= reduce p := by
  rw [foldM, fold_node, List.mapM_map]
  rfl

theorem mapM_congr {β : Type} {f f' : β → m V} {l : List β} (h : ∀ x ∈ l, f x = f' x) :
    l.mapM f = l.mapM f' := by
  rw [← Function.id_comp f, ← List.mapM_map, List.map_congr_left h, List.mapM_map,
    Function.id_comp]

/-- Actions without effects make the value of a tree as functions do. -/
theorem foldM_pure (shift : α → V) (reduce : ρ → List V → V) (t : ParseTree α ρ) :
    t.foldM (fun a => (pure (shift a) : m V)) (fun p values => pure (reduce p values)) =
      pure (t.fold shift reduce) := by
  induction t with
  | leaf a => rfl
  | node p ts ih =>
      rw [foldM_node, mapM_congr ih, List.mapM_pure, pure_bind, fold_node]

omit [LawfulMonad m] in
/-- A reduction takes the values of the body from the top of the stack. -/
theorem replayFrom_reduce {values : List V} {n : Nat} (h : values.length = n) (step : Nat)
    (steps : List Step) (p : ρ) (ps : List ρ) (tokens : List α) (stack : List V) :
    replayFrom shift reduce step (.reduce n :: steps) (p :: ps) tokens (values.reverse ++ stack) =
      reduce p values >>= fun value =>
        replayFrom shift reduce (step + 1) steps ps tokens (value :: stack) := by
  have henough : ¬(values.reverse ++ stack).length < n := by simp [h]
  have htake : ((values.reverse ++ stack).take n).reverse = values := by
    rw [List.take_left' (by simp [h]), List.reverse_reverse]
  have hdrop : (values.reverse ++ stack).drop n = stack := List.drop_left' (by simp [h])
  rw [replayFrom, if_neg henough, htake, hdrop]

/-- The values of a list of trees are as many as the trees. -/
theorem mapM_bind_congr {β γ : Type} {f : β → m V} {k k' : List V → m γ} {l : List β}
    (h : ∀ vs, vs.length = l.length → k vs = k' vs) : l.mapM f >>= k = l.mapM f >>= k' := by
  induction l generalizing k k' with
  | nil => simpa using h [] rfl
  | cons x l ih =>
      simp only [List.mapM_cons, bind_assoc, pure_bind]
      refine bind_congr fun v => ih fun vs hvs => h (v :: vs) ?_
      rw [List.length_cons, hvs, List.length_cons]

mutual

/-- To replay the trace of a tree, over its handles and its leaves, puts its value on the stack. -/
theorem replayFrom_trace (t : ParseTree α ρ) (step : Nat) (steps : List Step) (ps : List ρ)
    (tokens : List α) (stack : List V) :
    replayFrom shift reduce step (t.trace ++ steps) (t.handles ++ ps) (t.leaves ++ tokens) stack =
      t.foldM shift reduce >>= fun value =>
        replayFrom shift reduce (step + t.trace.length) steps ps tokens (value :: stack) := by
  match t with
  | .leaf a => rfl
  | .node p ts =>
      rw [trace_node, handles_node, leaves_node, foldM_node, bind_assoc, List.append_assoc,
        List.append_assoc, List.singleton_append, List.singleton_append, List.length_append,
        replayFrom_traces ts]
      exact mapM_bind_congr fun values hlength => replayFrom_reduce shift reduce hlength _ steps p ps
        tokens stack

/-- The values of trees side by side end up on the stack with the last one on top. -/
theorem replayFrom_traces (ts : List (ParseTree α ρ)) (step : Nat) (steps : List Step)
    (ps : List ρ) (tokens : List α) (stack : List V) :
    replayFrom shift reduce step (ts.flatMap trace ++ steps) (ts.flatMap handles ++ ps)
        (ts.flatMap leaves ++ tokens) stack =
      ts.mapM (foldM shift reduce) >>= fun values => replayFrom shift reduce
        (step + (ts.flatMap trace).length) steps ps tokens (values.reverse ++ stack) := by
  match ts with
  | [] => simp
  | t :: ts =>
      simp only [List.flatMap_cons, List.append_assoc, List.mapM_cons, bind_assoc, pure_bind,
        List.length_append, List.reverse_cons, List.singleton_append]
      rw [replayFrom_trace t]
      refine bind_congr fun value => ?_
      rw [replayFrom_traces ts]
      simp only [Nat.add_assoc]

end

/-- To replay the derivation that lists a tree is to fold the tree. -/
theorem replayM_derivation_leaves (t : ParseTree α ρ) :
    t.derivation.replayM t.leaves shift reduce = Except.ok <$> t.foldM shift reduce := by
  have h := replayFrom_trace shift reduce t 0 [.accept] [] [] []
  rw [List.append_nil, List.append_nil] at h
  rw [Derivation.replayM, derivation, h, map_eq_pure_bind]
  rfl

end Replay

theorem replay_derivation_leaves {α ρ V : Type} (shift : α → V) (reduce : ρ → List V → V)
    (t : ParseTree α ρ) :
    t.derivation.replay t.leaves shift reduce = .ok (t.fold shift reduce) := by
  rw [Derivation.replay, replayM_derivation_leaves, foldM_pure, map_pure]
  rfl

end ParseTree

end ParserForge

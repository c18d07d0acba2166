import Mathlib
import ParserForge.Proofs.Parsing.Lookahead
import ParserForge.Proofs.Parsing.Soundness
import ParserForge.Proofs.Parsing.Tree

/-!
A replay follows its parse, whatever the table says.  At any time there is a tree for each state on
the stack but the first, and the moves made so far list these trees.  To replay the moves therefore
leaves one value for each of these states, and the replay comes out even if there is one of them.
-/

namespace ParserForge

namespace Machine

variable {σ α ν ρ τ : Type} {m : Machine σ α ν ρ} {symbol : τ → α} {tokens : List τ}
  {k k' : Configuration σ α ρ} {ts : List (ParseTree τ ρ)} {d : Derivation ρ}

/-- An accepted parse gives back its reductions and its moves. -/
theorem eq_of_accepted (h : m.step k = .accepted d) :
    d = ⟨k.reductions.reverse, (.accept :: k.steps).reverse⟩ := by
  cases steps_of_step h with
  | accept => rfl

/-- What a parse of tokens has built so far: a tree for each state on the stack but the first. -/
structure Piles (symbol : τ → α) (tokens : List τ) (k : Configuration σ α ρ)
    (ts : List (ParseTree τ ρ)) : Prop where
  height : k.stack.length = ts.length + 1
  input : ∃ rest, tokens = ts.flatMap ParseTree.leaves ++ rest ∧ k.rest = rest.map symbol
  steps : k.steps.reverse = ts.flatMap ParseTree.trace
  reductions : k.reductions.reverse = ts.flatMap ParseTree.handles
  going : Step.accept ∉ k.steps
  shifts : k.steps.count .shift + k.rest.length = tokens.length
  reduces : (k.steps.filterMap Step.arity?).length = k.reductions.length

theorem piles_start (m : Machine σ α ν ρ) (symbol : τ → α) (tokens : List τ) :
    Piles symbol tokens (m.start (tokens.map symbol)) [] where
  height := rfl
  input := ⟨tokens, rfl, rfl⟩
  steps := rfl
  reductions := rfl
  going := List.not_mem_nil
  shifts := by simp [start]
  reduces := rfl

/-- A shift adds a leaf.  A reduction leaves at least the first state on the stack, so there are as
many trees as it takes states, and they become the children of a node. -/
theorem Piles.step (h : Piles symbol tokens k ts) (hstep : m.step k = .running k') :
    ∃ ts', Piles symbol tokens k' ts' := by
  cases steps_of_step hstep with
  | shift _ _ hrest =>
      obtain ⟨left, htokens, hleft⟩ := h.input
      rw [hrest] at hleft
      obtain ⟨token, left, rfl, rfl, rfl⟩ := List.map_eq_cons_iff.mp hleft.symm
      refine ⟨ts ++ [.leaf token], ?_, ⟨left, ?_, rfl⟩, ?_, ?_, ?_, ?_, ?_⟩
      · simp [h.height]
      · simpa using htokens
      · simp [h.steps]
      · simp [h.reductions]
      · simpa using h.going
      · have hshifts := h.shifts
        rw [hrest, List.length_cons] at hshifts
        simp only [List.count_cons_self]
        omega
      · exact h.reduces
  | @reduce _ _ _ _ stack p _ arity _ _ hdrop _ =>
      have hlength := congrArg List.length hdrop
      rw [List.length_drop, List.length_cons, h.height] at hlength
      have hchildren : (ts.drop (ts.length - arity)).length = arity := by
        rw [List.length_drop]
        omega
      have hsplit : ts = ts.take (ts.length - arity) ++ ts.drop (ts.length - arity) := by simp
      generalize ts.take (ts.length - arity) = old at hsplit
      generalize ts.drop (ts.length - arity) = children at hsplit hchildren
      subst hsplit
      refine ⟨old ++ [.node p children], ?_, ?_, ?_, ?_, ?_, ?_, ?_⟩
      · simp only [List.length_append, List.length_cons, List.length_nil] at hlength ⊢
        omega
      · simpa using h.input
      · simp [h.steps, hchildren]
      · simp [h.reductions]
      · simpa using h.going
      · simpa using h.shifts
      · simp [Step.arity?, h.reduces]

theorem Piles.goes (h : Piles symbol tokens k ts) (hgoes : m.Goes k k') :
    ∃ ts', Piles symbol tokens k' ts' := by
  induction hgoes with
  | refl => exact ⟨ts, h⟩
  | tail _ hstep ih =>
      obtain ⟨ts', hk⟩ := ih
      exact hk.step hstep

section Replay

variable {f : Type → Type} [Monad f] [LawfulMonad f] {V : Type}

/-- To replay the moves of an accepted parse makes the values of the trees that it has built, and
then counts them. -/
theorem Piles.replayM (h : Piles symbol tokens k ts) (hstep : m.step k = .accepted d)
    (shift : τ → f V) (reduce : ρ → List V → f V) :
    ∃ rest step, d.replayM tokens shift reduce =
      ts.mapM (ParseTree.foldM shift reduce) >>= fun values =>
        replayFrom shift reduce step [.accept] [] rest values.reverse := by
  obtain ⟨rest, rfl, _⟩ := h.input
  have hd : d = ⟨ts.flatMap ParseTree.handles, ts.flatMap ParseTree.trace ++ [.accept]⟩ := by
    rw [eq_of_accepted hstep, h.reductions, List.reverse_cons, h.steps]
  have htraces := ParseTree.replayFrom_traces shift reduce ts 0 [.accept] [] rest []
  rw [List.append_nil] at htraces
  simp only [List.append_nil] at htraces
  exact ⟨rest, _, by rw [hd, Derivation.replayM, htraces]⟩

/-- One state above the first: the replay gives the value of its tree. -/
theorem Piles.replayM_of_eq_two (h : Piles symbol tokens k ts) (hstep : m.step k = .accepted d)
    (hheight : k.stack.length = 2) (shift : τ → f V) (reduce : ρ → List V → f V) :
    ∃ value : f V, d.replayM tokens shift reduce = Except.ok <$> value := by
  obtain ⟨T, rfl⟩ : ∃ T, ts = [T] := by
    apply List.length_eq_one_iff.mp
    have := h.height
    omega
  obtain ⟨rest, step, hreplay⟩ := h.replayM hstep shift reduce
  refine ⟨T.foldM shift reduce, ?_⟩
  rw [hreplay, List.mapM_cons, List.mapM_nil, map_eq_pure_bind]
  simp [replayFrom]

/-- Any other number of states above the first: the replay makes their values and refuses them. -/
theorem Piles.replayM_of_ne_two (h : Piles symbol tokens k ts) (hstep : m.step k = .accepted d)
    (hheight : k.stack.length ≠ 2) (shift : τ → f V) (reduce : ρ → List V → f V) :
    ∃ values : f (List V), d.replayM tokens shift reduce =
      (fun _ => .error (.unbalanced (k.stack.length - 1))) <$> values := by
  obtain ⟨rest, step, hreplay⟩ := h.replayM hstep shift reduce
  refine ⟨ts.mapM (ParseTree.foldM shift reduce), ?_⟩
  rw [hreplay, map_eq_pure_bind]
  apply ParseTree.mapM_bind_congr
  intro values hvalues
  have hlength : values.reverse.length = k.stack.length - 1 := by
    rw [List.length_reverse, hvalues, h.height, Nat.add_sub_cancel]
  rw [replayFrom, hlength]
  intro value hone
  rw [hone, List.length_singleton] at hlength
  omega

end Replay

/-- Whatever a table says, an accepted parse has as many reductions as moves that reduce, one
acceptance, which is its last move, and no more shifts than tokens.  Its replay over the tokens
succeeds if two states are on the stack at the end; otherwise it finds as many values as there are
states above the first.  Actions that have effects change nothing about that. -/
theorem replay_of_run {n : Nat} (h : m.run n (m.start (tokens.map symbol)) = some (.ok d)) :
    (d.steps.filterMap Step.arity?).length = d.reductions.length ∧
      (∃ moves, d.steps = moves ++ [.accept] ∧ Step.accept ∉ moves) ∧
      d.steps.count .shift ≤ tokens.length ∧
      ∃ k, m.Goes (m.start (tokens.map symbol)) k ∧ m.step k = .accepted d ∧
        (∀ (V : Type) (shift : τ → V) (reduce : ρ → List V → V),
          if k.stack.length = 2 then ∃ value, d.replay tokens shift reduce = .ok value
          else d.replay tokens shift reduce = .error (.unbalanced (k.stack.length - 1))) ∧
        ∀ (f : Type → Type) [Monad f] [LawfulMonad f] (V : Type) (shift : τ → f V)
          (reduce : ρ → List V → f V),
          if k.stack.length = 2 then
            ∃ value : f V, d.replayM tokens shift reduce = Except.ok <$> value
          else ∃ values : f (List V), d.replayM tokens shift reduce =
            (fun _ => .error (.unbalanced (k.stack.length - 1))) <$> values := by
  obtain ⟨k, hgoes, hstep⟩ := exists_run_iff.mp ⟨n, h⟩
  obtain ⟨ts, hk⟩ := (piles_start m symbol tokens).goes hgoes
  have hd := eq_of_accepted hstep
  refine ⟨?_, ⟨k.steps.reverse, ?_, ?_⟩, ?_, k, hgoes, hstep, ?_, ?_⟩
  · simp [hd, Step.arity?, List.filterMap_reverse, hk.reduces]
  · simp [hd]
  · simpa using hk.going
  · have hshifts := hk.shifts
    simp only [hd, List.count_reverse, List.count_cons_of_ne (by decide : Step.accept ≠ .shift)]
    omega
  · intro V shift reduce
    split
    · next hheight =>
        obtain ⟨value, hvalue⟩ := hk.replayM_of_eq_two (f := Id) hstep hheight (fun a => shift a)
          fun p vs => reduce p vs
        exact ⟨value, hvalue⟩
    · next hheight =>
        obtain ⟨values, hvalues⟩ := hk.replayM_of_ne_two (f := Id) hstep hheight
          (fun a => shift a) fun p vs => reduce p vs
        exact hvalues
  · intro f _ _ V shift reduce
    split
    · next hheight => exact hk.replayM_of_eq_two hstep hheight shift reduce
    · next hheight => exact hk.replayM_of_ne_two hstep hheight shift reduce

end Machine

/-! A table that fits no grammar: it makes values out of nothing, and accepts too early. -/

namespace Loose

def machine : Machine Nat Char Unit Nat where
  initial := 0
  action q a :=
    match a with
    | some _ => if q % 2 = 0 then .reduce 7 () 0 else .shift (q + 1)
    | none => if q = 4 then .reduce 8 () 3 else .accept
  goto q _ := some (q + 1)

def tokens : List (Char × Nat) := [('a', 1), ('b', 2)]

def derivation : Derivation Nat :=
  ⟨[7, 7, 8], [.reduce 0, .shift, .reduce 0, .shift, .reduce 3, .accept]⟩

theorem run_machine :
    machine.run 6 (machine.start (tokens.map Prod.fst)) = some (.ok derivation) := by
  decide

end Loose

/-- The parse ends with three states on the stack, so the replay finds two values. -/
theorem Machine.replay_of_run_loose :
    Loose.machine.run 6 (Loose.machine.start (Loose.tokens.map Prod.fst)) =
        some (.ok Loose.derivation) ∧
      (Loose.derivation.steps.filterMap Step.arity?).length = 3 ∧
      Loose.derivation.steps.count .shift ≤ 2 ∧
      ∃ k, Loose.machine.Goes (Loose.machine.start (Loose.tokens.map Prod.fst)) k ∧
        Loose.machine.step k = .accepted Loose.derivation ∧
        ∀ (V : Type) (shift : Char × Nat → V) (reduce : Nat → List V → V),
          if k.stack.length = 2 then
            ∃ value, Loose.derivation.replay Loose.tokens shift reduce = .ok value
          else Loose.derivation.replay Loose.tokens shift reduce =
            .error (.unbalanced (k.stack.length - 1)) := by
  obtain ⟨hreduces, _, hshifts, k, hgoes, hstep, hreplay, _⟩ := replay_of_run Loose.run_machine
  exact ⟨Loose.run_machine, hreduces, hshifts, k, hgoes, hstep, hreplay⟩

end ParserForge

import Mathlib
import ParserForge.Proofs.Automaton.Closure

/-!
Paths counted by their edges, and rows of states that stand somewhere in an automaton.  What is
proved of such a row holds of every automaton that it is a part of.
-/

namespace ParserForge

namespace Nfa

variable {σ τ : Type}

/-- A path with the number of its edges. -/
inductive Steps (a : Nfa σ τ) : Nat → StateId → List σ → StateId → Prop where
  | refl (q : StateId) : Steps a 0 q [] q
  | silent {n : Nat} {q r s : StateId} {w : List σ} :
      r ∈ a.silentFrom q → Steps a n r w s → Steps a (n + 1) q w s
  | move {n : Nat} {q r s : StateId} {x : σ} {w : List σ} :
      (x, r) ∈ a.movesFrom q → Steps a n r w s → Steps a (n + 1) q (x :: w) s

theorem path_iff_steps {a : Nfa σ τ} {q s : StateId} {w : List σ} :
    a.Path q w s ↔ ∃ n, a.Steps n q w s := by
  constructor
  · intro h
    induction h with
    | refl q => exact ⟨0, .refl q⟩
    | silent hedge _ ih =>
        obtain ⟨n, hn⟩ := ih
        exact ⟨n + 1, .silent hedge hn⟩
    | move hedge _ ih =>
        obtain ⟨n, hn⟩ := ih
        exact ⟨n + 1, .move hedge hn⟩
  · rintro ⟨n, h⟩
    induction h with
    | refl q => exact .refl q
    | silent hedge _ ih => exact .silent hedge ih
    | move hedge _ ih => exact .move hedge ih

/-- The states from `base` on are those of the list. -/
def Holds (a : Nfa σ τ) (base : StateId) (block : List (NfaState σ τ)) : Prop :=
  ∀ i s, block[i]? = some s → a.states[base + i]? = some s

section

variable {a : Nfa σ τ} {base : StateId}

theorem holds_cons {s : NfaState σ τ} {block : List (NfaState σ τ)} :
    a.Holds base (s :: block) ↔ a.states[base]? = some s ∧ a.Holds (base + 1) block := by
  constructor
  · intro h
    refine ⟨h 0 s rfl, fun i t ht => ?_⟩
    rw [Nat.add_assoc, Nat.add_comm 1 i]
    exact h (i + 1) t ht
  · rintro ⟨hhead, htail⟩ i t ht
    cases i with
    | zero =>
        obtain rfl := Option.some.inj ht
        exact hhead
    | succ i =>
        rw [Nat.succ_eq_add_one, Nat.add_comm i 1, ← Nat.add_assoc]
        exact htail i t ht

theorem holds_append {block rest : List (NfaState σ τ)} :
    a.Holds base (block ++ rest) ↔ a.Holds base block ∧ a.Holds (base + block.length) rest := by
  induction block generalizing base with
  | nil => simp [Holds]
  | cons s block ih =>
      rw [List.cons_append, holds_cons, ih, holds_cons, and_assoc, List.length_cons,
        Nat.add_assoc, Nat.add_comm 1]

theorem silentFrom_of_getElem? {q : StateId} {s : NfaState σ τ} (h : a.states[q]? = some s) :
    a.silentFrom q = s.silent := by
  rw [silentFrom, h, Option.map_some, Option.getD_some]

theorem movesFrom_of_getElem? {q : StateId} {s : NfaState σ τ} (h : a.states[q]? = some s) :
    a.movesFrom q = s.moves := by
  rw [movesFrom, h, Option.map_some, Option.getD_some]

theorem mem_silentFrom {q r : StateId} {edges : List StateId}
    (h : a.states[q]? = some { silent := edges }) (hr : r ∈ edges) : r ∈ a.silentFrom q := by
  rw [silentFrom_of_getElem? h]
  exact hr

/-- A path that leaves a state with silent edges only begins with one of these. -/
theorem Steps.of_silent {n : Nat} {q s : StateId} {w : List σ} {edges : List StateId}
    (h : a.Steps n q w s) (hget : a.states[q]? = some { silent := edges }) (hne : s ≠ q) :
    ∃ r ∈ edges, ∃ m, n = m + 1 ∧ a.Steps m r w s := by
  cases h with
  | refl => exact absurd rfl hne
  | silent hedge hsteps =>
      rw [silentFrom_of_getElem? hget] at hedge
      exact ⟨_, hedge, _, rfl, hsteps⟩
  | move hedge _ =>
      rw [movesFrom_of_getElem? hget] at hedge
      exact absurd hedge List.not_mem_nil

/-- A path that leaves a state without silent edges begins with a move. -/
theorem Steps.of_moves {n : Nat} {q s : StateId} {w : List σ} {edges : List (σ × StateId)}
    (h : a.Steps n q w s) (hget : a.states[q]? = some { moves := edges }) (hne : s ≠ q) :
    ∃ e ∈ edges, ∃ v m, w = e.1 :: v ∧ n = m + 1 ∧ a.Steps m e.2 v s := by
  cases h with
  | refl => exact absurd rfl hne
  | silent hedge _ =>
      rw [silentFrom_of_getElem? hget] at hedge
      exact absurd hedge List.not_mem_nil
  | move hedge hsteps =>
      rw [movesFrom_of_getElem? hget] at hedge
      exact ⟨_, hedge, _, _, rfl, rfl, hsteps⟩

end

/-- Some word of the language leads a path of `n` edges to the state `q`, and a shorter path goes
on from there. -/
def Passes (a : Nfa σ τ) (L : Language σ) (q : StateId) (n : Nat) (w : List σ) (s : StateId) :
    Prop :=
  ∃ u ∈ L, ∃ v m, u ++ v = w ∧ m < n ∧ a.Steps m q v s

namespace Passes

variable {a : Nfa σ τ} {L M : Language σ} {q r s : StateId} {m n : Nat} {w : List σ}

theorem mono (h : a.Passes L q m w s) (hL : L ≤ M) (hn : m ≤ n) : a.Passes M q n w s := by
  obtain ⟨u, hu, v, l, hw, hl, hsteps⟩ := h
  exact ⟨u, hL hu, v, l, hw, Nat.lt_of_lt_of_le hl hn, hsteps⟩

/-- The path goes on along the only edge. -/
theorem silent (h : a.Passes L q n w s) (hget : a.states[q]? = some { silent := [r] })
    (hne : s ≠ q) : a.Passes L r n w s := by
  obtain ⟨u, hu, v, m, hw, hm, hsteps⟩ := h
  obtain ⟨t, ht, l, rfl, hrest⟩ := hsteps.of_silent hget hne
  obtain rfl := List.mem_singleton.mp ht
  exact ⟨u, hu, v, l, hw, Nat.lt_of_succ_lt hm, hrest⟩

theorem mul (h : a.Passes L q n w s)
    (h' : ∀ m v, m < n → a.Steps m q v s → a.Passes M r m v s) : a.Passes (L * M) r n w s := by
  obtain ⟨u, hu, v, m, rfl, hm, hsteps⟩ := h
  obtain ⟨u', hu', v', l, rfl, hl, hrest⟩ := h' m v hm hsteps
  refine ⟨u ++ u', ⟨u, hu, u', hu', rfl⟩, v', l, List.append_assoc u u' v', ?_, hrest⟩
  exact Nat.lt_trans hl hm

end Passes

end Nfa

end ParserForge

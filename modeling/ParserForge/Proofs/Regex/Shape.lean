import Mathlib
import ParserForge.Proofs.Automaton.Closure
import ParserForge.Regex.Block

/-!
The shape of a block: its size, where its entry and its exit stand, and what its states look like.
All states but the exit are the block's own: they do not accept, have no marks, and their edges lead
to states of the block behind its entry.
-/

namespace ParserForge

namespace Regex

variable {τ : Type}

@[simp]
theorem length_block (base : StateId) (last : NfaState Char τ) (r : Regex) :
    (r.block base last).length = r.blockSize := by
  induction r generalizing base last with
  | empty | literal | oneOf => rfl
  | concat a b iha ihb => simp [block, blockSize, iha, ihb]
  | alt a b iha ihb => simp [block, blockSize, iha, ihb, Nat.add_assoc]
  | star a iha => simp [block, blockSize, iha]
  | plus a iha =>
      simp only [block, blockSize, List.length_append, iha, List.length_cons, List.length_nil]
      omega
  | optional a iha => simp [block, blockSize, iha]

theorem two_le_blockSize (r : Regex) : 2 ≤ r.blockSize := by
  induction r <;> simp only [blockSize] <;> omega

/-- The exit is the last state of the block. -/
theorem exit_eq (base : StateId) (r : Regex) : r.exit base + 1 = base + r.blockSize := by
  induction r generalizing base with
  | empty | literal | oneOf => rfl
  | concat a b _ ihb => simp only [exit, blockSize, ihb, Nat.add_assoc]
  | alt | star | plus | optional =>
      simp only [exit, blockSize]
      ring

theorem entry_mem (base : StateId) (r : Regex) :
    base ≤ r.entry base ∧ r.entry base < base + r.blockSize := by
  induction r generalizing base with
  | empty | literal | oneOf => simp [entry, blockSize]
  | concat a b iha _ =>
      have := iha base
      simp only [entry, blockSize]
      lia
  | plus a iha =>
      have := iha base
      simp only [entry, blockSize]
      lia
  | alt | star | optional =>
      simp only [entry, blockSize]
      lia

theorem exit_mem (base : StateId) (r : Regex) :
    base ≤ r.exit base ∧ r.exit base < base + r.blockSize := by
  have := exit_eq base r
  have := two_le_blockSize r
  lia

/-- Only the exit of a block depends on the caller. -/
theorem block_eq_concat (base : StateId) (last : NfaState Char τ) (r : Regex) :
    r.block base last = (r.block base {}).dropLast ++ [last] := by
  induction r generalizing base last with
  | empty | literal | oneOf => rfl
  | concat a b _ ihb =>
      have hne : b.block (base + a.blockSize) ({} : NfaState Char τ) ≠ [] := by
        rw [ihb]
        exact List.append_ne_nil_of_right_ne_nil _ (List.cons_ne_nil _ _)
      rw [block, block, List.dropLast_append_of_ne_nil hne, ihb, List.append_assoc]
  | alt => simp only [block, ← List.cons_append, List.dropLast_concat]
  | star | plus => simp [block]
  | optional =>
      simp only [block, ← List.cons_append]
      rw [List.dropLast_append_of_ne_nil (List.cons_ne_nil _ _), List.append_assoc]
      rfl

/-- A plus is a copy of the expression and a star. -/
theorem block_plus (base : StateId) (last : NfaState Char τ) (a : Regex) :
    (plus a).block base last = (concat a (star a)).block base last := by
  simp only [block, entry, List.append_assoc]

/-- An option is an alternative with the empty word. -/
theorem block_optional (base : StateId) (last : NfaState Char τ) (a : Regex) :
    (optional a).block base last = (alt a empty).block base last := by
  simp only [block, entry, blockSize, List.append_assoc, List.cons_append, List.nil_append]

/-- The state belongs to the block and is not its entry. -/
def Behind (r : Regex) (base q : StateId) : Prop :=
  base ≤ q ∧ q < base + r.blockSize ∧ q ≠ r.entry base

/-- An inner state of a block does not accept and has no mark, and its edges lead on in the block,
never back to the entry. -/
structure Inner (r : Regex) (base : StateId) (s : NfaState Char τ) : Prop where
  accepting : s.accepting = false
  tag : s.tag = none
  successors : ∀ q ∈ s.successors, r.Behind base q

theorem inner_silent {r : Regex} {base : StateId} {edges : List StateId}
    (h : ∀ q ∈ edges, r.Behind base q) : r.Inner base ({ silent := edges } : NfaState Char τ) where
  accepting := rfl
  tag := rfl
  successors := by simpa [NfaState.successors] using h

theorem inner_moves {r : Regex} {base : StateId} {edges : List (Char × StateId)}
    (h : ∀ e ∈ edges, r.Behind base e.2) :
    r.Inner base ({ moves := edges } : NfaState Char τ) where
  accepting := rfl
  tag := rfl
  successors := by
    intro q hq
    obtain ⟨e, he, rfl⟩ := List.mem_map.mp hq
    exact h e he

theorem Inner.mono {a r : Regex} {base base' : StateId} {s : NfaState Char τ}
    (h : a.Inner base' s) (hsub : ∀ q, a.Behind base' q → r.Behind base q) : r.Inner base s where
  accepting := h.accepting
  tag := h.tag
  successors := fun q hq => hsub q (h.successors q hq)

/-- Whatever its exit looks like, the other states of the block are inner ones. -/
def Encloses (τ : Type) (r : Regex) : Prop :=
  ∀ (base : StateId) (last : NfaState Char τ), ∀ s ∈ r.block base last, s = last ∨ r.Inner base s

theorem encloses_pair {r : Regex} {first : StateId → NfaState Char τ}
    (hblock : ∀ base last, r.block base last = [first base, last])
    (h : ∀ base, r.Inner base (first base)) : r.Encloses τ := by
  intro base last
  rw [hblock]
  exact List.forall_mem_cons.mpr ⟨Or.inr (h base), List.forall_mem_singleton.mpr (Or.inl rfl)⟩

theorem behind_second {r : Regex} (hsize : r.blockSize = 2) (base : StateId)
    (hentry : r.entry base = base) : r.Behind base (base + 1) := by
  simp only [Behind, hsize, hentry]
  lia

theorem encloses_empty : empty.Encloses τ :=
  encloses_pair (fun _ _ => rfl) fun base =>
    inner_silent (List.forall_mem_singleton.mpr (behind_second rfl base rfl))

/-- Where the exit of a block is an inner state of a larger one, so are all its states. -/
theorem Encloses.inner {a r : Regex} {base base' : StateId} {last : NfaState Char τ}
    (ha : a.Encloses τ) (hlast : r.Inner base last)
    (hsub : ∀ q, a.Behind base' q → r.Behind base q) : ∀ s ∈ a.block base' last, r.Inner base s := by
  intro s hs
  rcases ha base' last s hs with rfl | h
  · exact hlast
  · exact h.mono hsub

theorem encloses_concat {a b : Regex} (ha : a.Encloses τ) (hb : b.Encloses τ) :
    (concat a b).Encloses τ := by
  intro base last
  have hfirst := entry_mem base a
  have hsecond := entry_mem (base + a.blockSize) b
  simp only [block, List.forall_mem_append]
  constructor
  · refine fun s hs => Or.inr (ha.inner (inner_silent (List.forall_mem_singleton.mpr ?_)) ?_ s hs)
    all_goals
      simp only [Behind, blockSize, entry]
      lia
  · refine fun s hs => (hb _ _ s hs).imp_right fun h => h.mono ?_
    simp only [Behind, blockSize, entry]
    lia

theorem encloses_alt {a b : Regex} (ha : a.Encloses τ) (hb : b.Encloses τ) :
    (alt a b).Encloses τ := by
  intro base last
  have hfirst := entry_mem (base + 1) a
  have hsecond := entry_mem (base + 1 + a.blockSize) b
  have hexit : (alt a b).Inner base
      ({ silent := [base + 1 + a.blockSize + b.blockSize] } : NfaState Char τ) := by
    refine inner_silent (List.forall_mem_singleton.mpr ?_)
    simp only [Behind, blockSize, entry]
    lia
  simp only [block, List.forall_mem_cons, List.forall_mem_append]
  refine ⟨Or.inr (inner_silent ?_), ⟨fun s hs => Or.inr (ha.inner hexit ?_ s hs),
    fun s hs => Or.inr (hb.inner hexit ?_ s hs)⟩, Or.inl trivial, List.forall_mem_nil _⟩
  · simp only [List.forall_mem_cons, Behind, blockSize, entry]
    exact ⟨by lia, by lia, List.forall_mem_nil _⟩
  all_goals
    simp only [Behind, blockSize, entry]
    lia

theorem encloses_star {a : Regex} (ha : a.Encloses τ) : (star a).Encloses τ := by
  intro base last
  have hinner := entry_mem base a
  have hedges : (star a).Inner base
      ({ silent := [a.entry base, base + a.blockSize + 1] } : NfaState Char τ) := by
    refine inner_silent ?_
    simp only [List.forall_mem_cons, Behind, blockSize, entry]
    exact ⟨by lia, by lia, List.forall_mem_nil _⟩
  simp only [block, List.forall_mem_cons, List.forall_mem_append]
  refine ⟨fun s hs => Or.inr (ha.inner hedges ?_ s hs), Or.inr hedges, Or.inl trivial,
    List.forall_mem_nil _⟩
  simp only [Behind, blockSize, entry]
  lia

/-- Expressions with the same blocks enclose the same states. -/
theorem Encloses.congr {r s : Regex} (h : r.Encloses τ)
    (hblock : ∀ (base : StateId) (last : NfaState Char τ), s.block base last = r.block base last)
    (hentry : ∀ base, s.entry base = r.entry base) : s.Encloses τ := by
  have hsize : s.blockSize = r.blockSize := by
    rw [← length_block 0 ({} : NfaState Char τ) s, hblock, length_block]
  intro base last t ht
  rw [hblock] at ht
  refine (h base last t ht).imp_right fun hinner => hinner.mono fun q hq => ?_
  rwa [Behind, hsize, hentry]

/-- All states of a block but its exit are inner ones. -/
theorem encloses (τ : Type) (r : Regex) : r.Encloses τ := by
  induction r with
  | empty => exact encloses_empty
  | literal c =>
      exact encloses_pair (fun _ _ => rfl) fun base =>
        inner_moves (List.forall_mem_singleton.mpr (behind_second rfl base rfl))
  | oneOf ranges =>
      refine encloses_pair (fun _ _ => rfl) fun base => inner_moves fun e he => ?_
      obtain ⟨c, _, rfl⟩ := List.mem_map.mp he
      exact behind_second rfl base rfl
  | concat a b iha ihb => exact encloses_concat iha ihb
  | alt a b iha ihb => exact encloses_alt iha ihb
  | star a iha => exact encloses_star iha
  | plus a iha =>
      exact (encloses_concat iha (encloses_star iha)).congr (block_plus · · a) fun _ => rfl
  | optional a iha =>
      exact (encloses_alt iha encloses_empty).congr (block_optional · · a) fun _ => rfl

end Regex

end ParserForge

import Mathlib
import ParserForge.Proofs.Automaton.Steps
import ParserForge.Proofs.Regex.Language
import ParserForge.Proofs.Regex.Shape

/-!
Blocks recognize the languages of their expressions.  Wherever the block of an expression stands
in an automaton, the words spelled on the way from its entry to its exit are those of the
language, and there is no other way out of the block.
-/

namespace ParserForge

namespace Regex

variable {τ : Type}

theorem getElem?_exit {n : Nfa Char τ} {r : Regex} {base : StateId} {last : NfaState Char τ}
    (h : n.Holds base (r.block base last)) : n.states[r.exit base]? = some last := by
  have hsize := two_le_blockSize r
  have hexit : r.exit base = base + (r.blockSize - 1) := by
    have := exit_eq base r
    lia
  rw [hexit]
  refine h _ _ ?_
  rw [← length_block base last r, ← List.getLast?_eq_getElem?, block_eq_concat,
    List.getLast?_concat]

/-- The state belongs to the block and is not its exit. -/
def Inside (r : Regex) (base q : StateId) : Prop := base ≤ q ∧ q + 1 < base + r.blockSize

/-- No state inside a block accepts. -/
theorem not_inside_of_isAccepting {n : Nfa Char τ} {r : Regex} {base q : StateId}
    {last : NfaState Char τ} (h : n.Holds base (r.block base last))
    (hq : n.isAccepting q = true) : ¬ r.Inside base q := by
  rintro ⟨hle, hlt⟩
  obtain ⟨i, rfl⟩ := Nat.exists_eq_add_of_le hle
  have hi : i < ((r.block base ({} : NfaState Char τ)).dropLast).length := by
    rw [List.length_dropLast, length_block]
    lia
  have hget : n.states[base + i]? = some (r.block base {}).dropLast[i] := by
    refine h i _ ?_
    rw [block_eq_concat, List.getElem?_append_left hi, List.getElem?_eq_getElem hi]
  have hno : ((r.block base ({} : NfaState Char τ)).dropLast[i]).accepting = false := by
    rcases encloses τ r base {} _ (List.dropLast_subset _ (List.getElem_mem hi)) with heq | hinner
    · rw [heq]
    · exact hinner.accepting
  rw [Nfa.isAccepting, hget, Option.map_some, Option.getD_some, hno] at hq
  exact Bool.false_ne_true hq

/-- Wherever the block of the expression stands in the automaton, the words of the language lead
from its entry to its exit, and no path leaves it in another way. -/
structure Recognized (n : Nfa Char τ) (r : Regex) : Prop where
  complete {base : StateId} {last : NfaState Char τ} {w : List Char} :
    n.Holds base (r.block base last) → w ∈ r.language → n.Path (r.entry base) w (r.exit base)
  sound {base : StateId} {last : NfaState Char τ} {k : Nat} {w : List Char} {f : StateId} :
    n.Holds base (r.block base last) → ¬ r.Inside base f → n.Steps k (r.entry base) w f →
      n.Passes r.language (r.exit base) k w f

section

variable {n : Nfa Char τ} {a b : Regex}

theorem recognized_empty : empty.Recognized n where
  complete := by
    rintro base last w h rfl
    exact .single_silent (Nfa.mem_silentFrom (Nfa.holds_cons.mp h).1 (List.mem_singleton_self _))
  sound := by
    intro base last k w f h hf hsteps
    have hne : f ≠ base := by
      rintro rfl
      exact hf ⟨Nat.le_refl f, Nat.lt_succ_self _⟩
    obtain ⟨r, hr, m, rfl, hrest⟩ := hsteps.of_silent (Nfa.holds_cons.mp h).1 hne
    obtain rfl := List.mem_singleton.mp hr
    exact ⟨[], rfl, w, m, rfl, Nat.lt_succ_self m, hrest⟩

/-- Two states joined by moves recognize the words of one symbol. -/
theorem recognized_moves {r : Regex} (symbols : List Char)
    (hblock : ∀ (base : StateId) (last : NfaState Char τ),
      r.block base last = [{ moves := symbols.map fun c => (c, base + 1) }, last])
    (hentry : ∀ base, r.entry base = base) (hexit : ∀ base, r.exit base = base + 1)
    (hlanguage : ∀ w, w ∈ r.language ↔ ∃ c ∈ symbols, w = [c]) : r.Recognized n where
  complete := by
    intro base last w h hw
    rw [hblock] at h
    obtain ⟨c, hc, rfl⟩ := (hlanguage w).mp hw
    rw [hentry, hexit]
    refine .single_move ?_
    rw [Nfa.movesFrom_of_getElem? (Nfa.holds_cons.mp h).1]
    exact List.mem_map_of_mem hc
  sound := by
    intro base last k w f h hf hsteps
    have hne : f ≠ base := by
      rintro rfl
      refine hf ⟨Nat.le_refl f, ?_⟩
      rw [← exit_eq, hexit]
      exact Nat.lt_succ_self _
    rw [hblock] at h
    rw [hentry] at hsteps
    obtain ⟨e, he, v, m, rfl, rfl, hrest⟩ := hsteps.of_moves (Nfa.holds_cons.mp h).1 hne
    obtain ⟨c, hc, rfl⟩ := List.mem_map.mp he
    rw [← hexit] at hrest
    exact ⟨[c], (hlanguage _).mpr ⟨c, hc, rfl⟩, v, m, rfl, Nat.lt_succ_self m, hrest⟩

theorem recognized_literal (c : Char) : (literal c).Recognized n := by
  refine recognized_moves [c] (fun _ _ => rfl) (fun _ => rfl) (fun _ => rfl) ?_
  intro w
  simp only [List.mem_singleton, exists_eq_left]
  exact Iff.rfl

theorem recognized_oneOf (ranges : List CharRange) : (oneOf ranges).Recognized n := by
  refine recognized_moves (ranges.flatMap CharRange.chars) (fun _ _ => rfl) (fun _ => rfl)
    (fun _ => rfl) ?_
  intro w
  simp only [List.mem_flatMap, CharRange.mem_chars]
  constructor
  · rintro ⟨c, rfl, hc⟩
    exact ⟨c, hc, rfl⟩
  · rintro ⟨c, hc, rfl⟩
    exact ⟨c, rfl, hc⟩

theorem holds_concat {base : StateId} {last : NfaState Char τ}
    (h : n.Holds base ((concat a b).block base last)) :
    n.Holds base (a.block base { silent := [b.entry (base + a.blockSize)] }) ∧
      n.Holds (base + a.blockSize) (b.block (base + a.blockSize) last) := by
  rw [block, Nfa.holds_append, length_block] at h
  exact h

theorem recognized_concat (ha : a.Recognized n) (hb : b.Recognized n) :
    (concat a b).Recognized n where
  complete := by
    rintro base last _ h ⟨u, hu, v, hv, rfl⟩
    obtain ⟨hfirst, hsecond⟩ := holds_concat h
    have hedge := Nfa.mem_silentFrom (getElem?_exit hfirst) (List.mem_singleton_self _)
    exact (ha.complete hfirst hu).trans (.silent hedge (hb.complete hsecond hv))
  sound := by
    intro base last k w f h hf hsteps
    obtain ⟨hfirst, hsecond⟩ := holds_concat h
    -- The exit of the first block is a state inside the whole.
    have hsize := two_le_blockSize a
    have hsize' := two_le_blockSize b
    have hexit := exit_eq base a
    simp only [Inside, blockSize] at hf
    have hout : ¬ a.Inside base f := by simp only [Inside]; lia
    have hout' : ¬ b.Inside (base + a.blockSize) f := by simp only [Inside]; lia
    have hne : f ≠ a.exit base := by lia
    have hpasses := (ha.sound hfirst hout hsteps).silent (getElem?_exit hfirst) hne
    exact hpasses.mul fun m v _ hrest => hb.sound hsecond hout' hrest

theorem holds_alt {base : StateId} {last : NfaState Char τ}
    (h : n.Holds base ((alt a b).block base last)) :
    n.states[base]? =
        some { silent := [a.entry (base + 1), b.entry (base + 1 + a.blockSize)] } ∧
      n.Holds (base + 1) (a.block (base + 1) { silent := [(alt a b).exit base] }) ∧
      n.Holds (base + 1 + a.blockSize)
        (b.block (base + 1 + a.blockSize) { silent := [(alt a b).exit base] }) := by
  rw [block, Nfa.holds_cons, Nfa.holds_append, Nfa.holds_append, length_block] at h
  exact ⟨h.1, h.2.1⟩

theorem recognized_alt (ha : a.Recognized n) (hb : b.Recognized n) :
    (alt a b).Recognized n where
  complete := by
    intro base last w h hw
    obtain ⟨hget, hfirst, hsecond⟩ := holds_alt h
    rcases hw with hw | hw
    · have hin := Nfa.mem_silentFrom hget List.mem_cons_self
      have hout := Nfa.mem_silentFrom (getElem?_exit hfirst) (List.mem_singleton_self _)
      simpa [entry] using Nfa.Path.silent hin ((ha.complete hfirst hw).trans (.single_silent hout))
    · have hin := Nfa.mem_silentFrom hget (List.mem_cons_of_mem _ (List.mem_singleton_self _))
      have hout := Nfa.mem_silentFrom (getElem?_exit hsecond) (List.mem_singleton_self _)
      simpa [entry] using Nfa.Path.silent hin ((hb.complete hsecond hw).trans (.single_silent hout))
  sound := by
    intro base last k w f h hf hsteps
    obtain ⟨hget, hfirst, hsecond⟩ := holds_alt h
    have hsize := two_le_blockSize a
    have hsize' := two_le_blockSize b
    have hexit := exit_eq (base + 1) a
    have hexit' := exit_eq (base + 1 + a.blockSize) b
    simp only [Inside, blockSize] at hf
    have hne : f ≠ base := by lia
    obtain ⟨r, hr, m, rfl, hrest⟩ := hsteps.of_silent hget hne
    rcases List.mem_cons.mp hr with rfl | hr
    · have hout : ¬ a.Inside (base + 1) f := by simp only [Inside]; lia
      have hne' : f ≠ a.exit (base + 1) := by lia
      have hpasses := (ha.sound hfirst hout hrest).silent (getElem?_exit hfirst) hne'
      exact hpasses.mono (fun _ hu => Or.inl hu) (Nat.le_succ m)
    · obtain rfl := List.mem_singleton.mp hr
      have hout : ¬ b.Inside (base + 1 + a.blockSize) f := by simp only [Inside]; lia
      have hne' : f ≠ b.exit (base + 1 + a.blockSize) := by lia
      have hpasses := (hb.sound hsecond hout hrest).silent (getElem?_exit hsecond) hne'
      exact hpasses.mono (fun _ hu => Or.inr hu) (Nat.le_succ m)

theorem holds_star {base : StateId} {last : NfaState Char τ}
    (h : n.Holds base ((star a).block base last)) :
    n.Holds base (a.block base { silent := [a.entry base, (star a).exit base] }) ∧
      n.states[(star a).entry base]? = some { silent := [a.entry base, (star a).exit base] } := by
  rw [block, Nfa.holds_append, length_block, Nfa.holds_cons] at h
  exact ⟨h.1, h.2.1⟩

section

open Computability

variable {base leave : StateId}

/-- A state from which the block can be entered as well as passed by, as it can again at its
exit, begins a repetition. -/
theorem path_star (ha : a.Recognized n)
    (h : n.Holds base (a.block base { silent := [a.entry base, leave] })) {q : StateId}
    (hget : n.states[q]? = some { silent := [a.entry base, leave] }) {w : List Char}
    (hw : w ∈ a.language∗) : n.Path q w leave := by
  obtain ⟨words, rfl, hwords⟩ := Language.mem_kstar.mp hw
  clear hw
  induction words generalizing q with
  | nil =>
      refine .single_silent (Nfa.mem_silentFrom hget ?_)
      exact List.mem_cons_of_mem _ (List.mem_singleton_self _)
  | cons u words ih =>
      have hin := Nfa.mem_silentFrom hget List.mem_cons_self
      have hu := ha.complete h (hwords u List.mem_cons_self)
      have hrest := ih (getElem?_exit h) fun v hv => hwords v (List.mem_cons_of_mem u hv)
      exact .silent hin (hu.trans hrest)

/-- Nothing but words of the language is repeated.  The induction is on the number of edges,
because a repetition of the empty word spells nothing. -/
theorem passes_star (ha : a.Recognized n)
    (h : n.Holds base (a.block base { silent := [a.entry base, leave] })) {f : StateId}
    (hf : ¬ a.Inside base f) (hexit : f ≠ a.exit base) (k : Nat) {q : StateId} {w : List Char}
    (hget : n.states[q]? = some { silent := [a.entry base, leave] }) (hne : f ≠ q)
    (hsteps : n.Steps k q w f) : n.Passes a.language∗ leave k w f := by
  induction k using Nat.strong_induction_on generalizing q w with
  | _ k ih =>
      obtain ⟨r, hr, m, rfl, hrest⟩ := hsteps.of_silent hget hne
      rcases List.mem_cons.mp hr with rfl | hr
      · have hpasses := (ha.sound h hf hrest).mul fun l v hl hrest =>
          ih l (Nat.lt_succ_of_lt hl) (getElem?_exit h) hexit hrest
        exact hpasses.mono mul_kstar_le_kstar (Nat.le_succ m)
      · obtain rfl := List.mem_singleton.mp hr
        exact ⟨[], Language.nil_mem_kstar _, w, m, rfl, Nat.lt_succ_self m, hrest⟩

end

theorem recognized_star (ha : a.Recognized n) : (star a).Recognized n where
  complete := by
    intro base last w h hw
    obtain ⟨hinner, hget⟩ := holds_star h
    exact path_star ha hinner hget hw
  sound := by
    intro base last k w f h hf hsteps
    obtain ⟨hinner, hget⟩ := holds_star h
    have hsize := two_le_blockSize a
    have hexit := exit_eq base a
    simp only [Inside, blockSize] at hf
    have hout : ¬ a.Inside base f := by simp only [Inside]; lia
    have hne : f ≠ a.exit base := by lia
    have hne' : f ≠ (star a).entry base := by simp only [entry]; lia
    exact passes_star ha hinner hout hne k hget hne' hsteps

/-- Expressions with the same blocks and the same language are recognized together. -/
theorem Recognized.congr {r s : Regex} (h : r.Recognized n)
    (hblock : ∀ (base : StateId) (last : NfaState Char τ), s.block base last = r.block base last)
    (hentry : ∀ base, s.entry base = r.entry base) (hlanguage : s.language = r.language) :
    s.Recognized n := by
  have hsize : s.blockSize = r.blockSize := by
    rw [← length_block 0 ({} : NfaState Char τ) s, hblock, length_block]
  have hexit : ∀ base, s.exit base = r.exit base := by
    intro base
    have := exit_eq base s
    rw [hsize, ← exit_eq base r] at this
    exact Nat.succ_injective this
  constructor
  · intro base last w hholds hw
    rw [hblock] at hholds
    rw [hlanguage] at hw
    rw [hentry, hexit]
    exact h.complete hholds hw
  · intro base last k w f hholds hf hsteps
    rw [hblock] at hholds
    rw [Inside, hsize] at hf
    rw [hentry] at hsteps
    rw [hlanguage, hexit]
    exact h.sound hholds hf hsteps

/-- Every block recognizes the language of its expression. -/
theorem recognized (n : Nfa Char τ) (r : Regex) : r.Recognized n := by
  induction r with
  | empty => exact recognized_empty
  | literal c => exact recognized_literal c
  | oneOf ranges => exact recognized_oneOf ranges
  | concat a b iha ihb => exact recognized_concat iha ihb
  | alt a b iha ihb => exact recognized_alt iha ihb
  | star a iha => exact recognized_star iha
  | plus a iha =>
      have hstar := recognized_concat iha (recognized_star iha)
      exact hstar.congr (block_plus · · a) (fun _ => rfl) rfl
  | optional a iha =>
      have halt := recognized_alt iha recognized_empty
      exact halt.congr (block_optional · · a) (fun _ => rfl) rfl

end

section

variable {n : Nfa Char τ} {r : Regex} {base f : StateId} {last : NfaState Char τ} {w : List Char}

/-- If no edge leaves the exit, a path that leaves the block ends there. -/
theorem eq_exit_of_path (h : n.Holds base (r.block base last)) (hlast : last.successors = [])
    (hf : ¬ r.Inside base f) (hpath : n.Path (r.entry base) w f) :
    f = r.exit base ∧ w ∈ r.language := by
  obtain ⟨k, hsteps⟩ := Nfa.path_iff_steps.mp hpath
  obtain ⟨u, hu, v, m, rfl, _, hrest⟩ := (recognized n r).sound h hf hsteps
  obtain ⟨hsilent, hmoves⟩ := List.append_eq_nil_iff.mp hlast
  cases hrest with
  | refl => exact ⟨rfl, by rwa [List.append_nil]⟩
  | silent hedge _ =>
      rw [Nfa.silentFrom_of_getElem? (getElem?_exit h), hsilent] at hedge
      exact absurd hedge List.not_mem_nil
  | move hedge _ =>
      rw [Nfa.movesFrom_of_getElem? (getElem?_exit h), List.map_eq_nil_iff.mp hmoves] at hedge
      exact absurd hedge List.not_mem_nil

theorem path_iff_mem_language (h : n.Holds base (r.block base last))
    (hlast : last.successors = []) :
    n.Path (r.entry base) w (r.exit base) ↔ w ∈ r.language := by
  have hout : ¬ r.Inside base (r.exit base) := by
    rw [Inside, exit_eq]
    exact fun hinside => Nat.lt_irrefl _ hinside.2
  exact ⟨fun hpath => (eq_exit_of_path h hlast hout hpath).2, (recognized n r).complete h⟩

end

end Regex

end ParserForge

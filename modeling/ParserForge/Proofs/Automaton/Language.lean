import Mathlib
import ParserForge.Proofs.Automaton.Steps
import ParserForge.Proofs.Automaton.Subsets

/-!
The words that an automaton accepts.  The paths of a nondeterministic automaton, its simulation and
the subset construction agree on them, and the simulation and the construction come to an answer on
every automaton without stray edges.
-/

namespace ParserForge

namespace Nfa

variable {σ τ υ : Type} {a : Nfa σ τ} {members seeds : List StateId} {q r : StateId} {w : List σ}

/-- The start is a state, and no edge is stray. -/
structure Closed (a : Nfa σ τ) : Prop where
  start : a.start < a.size
  edges : ∀ s ∈ a.states, ∀ q ∈ s.successors, q < a.size

theorem lt_size_of_isAccepting (h : a.isAccepting q = true) : q < a.size := by
  by_contra hnot
  rw [isAccepting, getElem?_neg a.states q hnot] at h
  cases h

namespace Closed

variable (h : a.Closed)

include h

theorem silentClosed : a.SilentClosed := fun s hs q hq =>
  h.edges s hs q (List.mem_append_left _ hq)

theorem lt_size_of_move {x : σ} (hr : (x, r) ∈ a.movesFrom q) : r < a.size := by
  have hq := lt_size_of_mem_movesFrom hr
  rw [movesFrom_of_getElem? (Array.getElem?_eq_getElem hq)] at hr
  exact h.edges _ (Array.getElem_mem hq) r
    (List.mem_append_right _ (List.mem_map_of_mem (f := Prod.snd) hr))

/-- Paths stay among the states. -/
theorem lt_size_of_path (hpath : a.Path q w r) (hq : q < a.size) : r < a.size := by
  induction hpath with
  | refl => exact hq
  | silent hedge _ ih => exact ih (h.silentClosed.lt_size hedge)
  | move hedge _ ih => exact ih (h.lt_size_of_move hedge)

theorem mem_iff_path (hreaches : a.Reaches w members) : r ∈ members ↔ a.Path a.start w r := by
  rw [hreaches.mem_iff]
  exact and_iff_right_of_imp fun hpath => h.lt_size_of_path hpath h.start

theorem edgesExist (q : StateId) : a.edgesExist q = true := by
  rw [Nfa.edgesExist, h.silentClosed.allExist_silentFrom, Bool.true_and]
  simp only [allExist, List.all_map, List.all_eq_true, Function.comp_apply, decide_eq_true_eq]
  exact fun e he => h.lt_size_of_move he

end Closed

section Simulation

variable [DecidableEq σ]

/-- After each symbol the simulation has all states that the word leads to. -/
theorem reaches_after (a : Nfa σ τ) (w : List σ) :
    a.Reaches w (a.after (a.closure [a.start]) w) := by
  induction w using List.reverseRecOn with
  | nil => exact a.reaches_nil
  | append_singleton w x ih =>
      rw [after, List.foldl_append]
      exact reaches_concat ih x

omit [DecidableEq σ] in
theorem Reaches.any_isAccepting (h : a.Reaches w members) :
    members.any a.isAccepting = true ↔ ∃ q, a.Path a.start w q ∧ a.isAccepting q = true := by
  rw [List.any_eq_true]
  refine exists_congr fun q => and_congr_left fun hq => ?_
  rw [h.mem_iff, and_iff_right (lt_size_of_isAccepting hq)]

/-- The automaton accepts the words of the paths from its start to an accepting state. -/
theorem accepts_iff :
    a.accepts w = true ↔ ∃ q, a.Path a.start w q ∧ a.isAccepting q = true :=
  (a.reaches_after w).any_isAccepting

/-- From no state at all no word leads to one. -/
theorem after_nil (a : Nfa σ τ) (w : List σ) : a.after [] w = [] := by
  induction w with
  | nil => rfl
  | cons x w ih =>
      have hnil : a.closure (a.targets [] x) = [] := by
        refine List.eq_nil_iff_forall_not_mem.mpr fun q hq => ?_
        obtain ⟨_, r, hr, _⟩ := mem_closure.mp hq
        exact List.not_mem_nil hr
      rw [after, List.foldl_cons, hnil]
      exact ih

/-- To stop as soon as no state has a move on the next symbol makes no difference. -/
theorem Closed.acceptsFrom?_eq (h : a.Closed) (members : List StateId) (w : List σ) :
    a.acceptsFrom? members w = some ((a.after members w).any a.isAccepting) := by
  induction w generalizing members with
  | nil => rfl
  | cons x w ih =>
      simp only [acceptsFrom?, List.isEmpty_iff]
      split
      · next hnil =>
          have hrest : a.after members (x :: w) = a.after (a.after [] [x]) w := by
            rw [after, List.foldl_cons, hnil]
            rfl
          rw [hrest, after_nil, after_nil, List.any_nil]
      · have hseeds : ∀ r ∈ a.targets members x, r < a.size := by
          intro r hr
          obtain ⟨q, _, hmove⟩ := mem_targets.mp hr
          exact h.lt_size_of_move hmove
        rw [h.silentClosed.closure?_eq hseeds]
        exact ih _

theorem Closed.accepts?_eq (h : a.Closed) (w : List σ) : a.accepts? w = some (a.accepts w) := by
  have hstart : ∀ q ∈ [a.start], q < a.size := by simpa using h.start
  rw [accepts?, h.silentClosed.closure?_eq hstart]
  exact h.acceptsFrom?_eq _ w

end Simulation

section Construction

variable [DecidableEq σ] [Hashable σ]

theorem Closed.determinize?_eq (h : a.Closed) (resolve : List τ → Option υ) :
    a.determinize? resolve = some (a.determinize resolve) := by
  have hstart : a.allExist [a.start] = true := by simp [allExist, h.start]
  simp [determinize?, hstart, h.edgesExist]

/-- A set of states that a word leads to is not empty. -/
theorem exists_path_of_run {resolve : List τ → Option υ}
    (h : (a.determinize resolve).run 0 w = some q) : ∃ r, a.Path a.start w r := by
  rcases List.eq_nil_or_concat' w with rfl | ⟨v, x, rfl⟩
  · exact ⟨a.start, .refl a.start⟩
  · rw [Dfa.run_concat] at h
    obtain ⟨p, hp, hnext⟩ := Option.bind_eq_some_iff.mp h
    obtain ⟨members, hmembers, hreaches⟩ := exists_reaches_of_run hp
    have hstep := next_determinize resolve hmembers x
    split at hstep
    · rw [hstep] at hnext
      cases hnext
    · next hne =>
        obtain ⟨r, hr⟩ := List.exists_mem_of_ne_nil _ hne
        obtain ⟨o, ho, hmove⟩ := mem_targets.mp hr
        exact ⟨r, ((hreaches.mem_iff o).mp ho).2.trans (.single_move hmove)⟩

theorem Closed.exists_run_iff (h : a.Closed) (resolve : List τ → Option υ) :
    (∃ q, (a.determinize resolve).run 0 w = some q) ↔ ∃ r, a.Path a.start w r := by
  constructor
  · rintro ⟨q, hq⟩
    exact exists_path_of_run hq
  · rintro ⟨r, hpath⟩
    exact exists_run_of_path resolve hpath (h.lt_size_of_path hpath h.start)

/-- The subset construction accepts the words that the automaton accepts. -/
theorem accepts_determinize (a : Nfa σ τ) (resolve : List τ → Option υ) (w : List σ) :
    (a.determinize resolve).accepts w = a.accepts w := by
  rw [Bool.eq_iff_iff, accepts_iff, Dfa.accepts]
  cases hq : (a.determinize resolve).run 0 w with
  | none =>
      refine iff_of_false Bool.false_ne_true ?_
      rintro ⟨r, hpath, hr⟩
      obtain ⟨q, hrun⟩ := exists_run_of_path resolve hpath (lt_size_of_isAccepting hr)
      cases hq.symm.trans hrun
  | some q =>
      obtain ⟨members, hmembers, hreaches⟩ := exists_reaches_of_run hq
      rw [← hreaches.any_isAccepting]
      simp [Dfa.isAccepting, states_determinize, hmembers, dfaState]

/-- The least mark of the accepting states that the word leads to. -/
theorem mark_determinize_min? [LinearOrder τ] (a : Nfa σ τ) (w : List σ) (t : τ) :
    (a.determinize List.min?).mark 0 w = some t ↔
      IsLeast {t | ∃ q, a.Path a.start w q ∧ a.isAccepting q = true ∧ a.tagOf q = some t} t := by
  obtain ⟨tags, hmark, hmem⟩ := mark_determinize List.min? rfl a w
  rw [hmark, List.min?_eq_some_iff]
  refine and_congr (hmem t) (forall_congr' fun u => ?_)
  rw [hmem]
  rfl

/-- The subset construction follows the paths: it has a run on a word if the word leads to some
state, the state in which the run ends stands for all states that the word leads to, and it accepts
and is marked as these are. -/
theorem determinize?_exact (ha : a.Closed) (resolve : List τ → Option υ) :
    (∃ d, a.determinize? resolve = some d ∧ ∀ w,
      ((∃ q, d.run 0 w = some q) ↔ ∃ r, a.Path a.start w r) ∧
      (∀ q, d.run 0 w = some q → ∃ s, d.states[q]? = some s ∧
        s.members.Pairwise (· < ·) ∧ (∀ r, r ∈ s.members ↔ a.Path a.start w r) ∧
        (s.accepting = true ↔ ∃ r ∈ s.members, a.isAccepting r = true) ∧
        s.tag = if s.accepting then resolve ((s.members.filter a.isAccepting).filterMap a.tagOf)
          else none) ∧
      (d.accepts w = true ↔ ∃ r, a.Path a.start w r ∧ a.isAccepting r = true) ∧
      a.accepts? w = some (d.accepts w)) ∧
    ∀ [LinearOrder τ], ∃ d, a.determinize? List.min? = some d ∧ ∀ w t, d.mark 0 w = some t ↔
      IsLeast {t | ∃ r, a.Path a.start w r ∧ a.isAccepting r = true ∧ a.tagOf r = some t} t := by
  refine ⟨⟨_, ha.determinize?_eq resolve, fun w => ⟨?_, fun q hq => ?_, ?_, ?_⟩⟩,
    ⟨_, ha.determinize?_eq List.min?, a.mark_determinize_min?⟩⟩
  · exact ha.exists_run_iff resolve
  · obtain ⟨members, hmembers, hreaches⟩ := exists_reaches_of_run hq
    refine ⟨_, by rw [states_determinize, hmembers, Option.map_some], hreaches.ascending,
      fun r => ha.mem_iff_path hreaches, List.any_eq_true, rfl⟩
  · rw [accepts_determinize, accepts_iff]
  · rw [accepts_determinize, ha.accepts?_eq]

end Construction

/-- A silent cycle, and two accepting states that the same word leads to. -/
def twoMarks : Nfa Bool Nat :=
  ⟨#[{ silent := [1] }, { silent := [0], moves := [(true, 2), (true, 3)] },
    { accepting := true, tag := some 5 }, { accepting := true, tag := some 4, silent := [0] }], 0⟩

theorem determinize?_exact_twoMarks : twoMarks.Closed ∧
    twoMarks.Path 0 [true, true] 2 ∧ twoMarks.accepts? [true, true] = some true ∧
    (∃ d, twoMarks.determinize? List.head? = some d ∧
      ∃ q s, d.run 0 [true, true] = some q ∧ d.states[q]? = some s ∧ 2 ∈ s.members) ∧
    ∃ d, twoMarks.determinize? List.min? = some d ∧ d.mark 0 [true, true] = some 4 := by
  have hclosed : twoMarks.Closed := ⟨by decide, by decide⟩
  have hloop : twoMarks.Path 0 [true] 1 := by
    refine .silent (r := 1) (by decide) (.move (r := 3) (by decide) ?_)
    exact .silent (r := 0) (by decide) (.single_silent (by decide))
  have hpath : twoMarks.Path 0 [true, true] 2 := hloop.trans (.single_move (by decide))
  refine ⟨hclosed, hpath, by decide +kernel, ?_, ?_⟩
  · obtain ⟨⟨d, hd, hruns⟩, _⟩ := determinize?_exact hclosed List.head?
    obtain ⟨hrun, hmembers, _⟩ := hruns [true, true]
    obtain ⟨q, hq⟩ := hrun.mpr ⟨2, hpath⟩
    obtain ⟨s, hs, _, hmem, _⟩ := hmembers q hq
    exact ⟨d, hd, q, s, hq, hs, (hmem 2).mpr hpath⟩
  · obtain ⟨_, hleast⟩ := determinize?_exact hclosed List.head?
    obtain ⟨d, hd, hmark⟩ := hleast
    refine ⟨d, hd, (hmark [true, true] 4).mpr ⟨?_, ?_⟩⟩
    · exact ⟨3, hloop.trans (.single_move (by decide)), by decide, by decide⟩
    · rintro t ⟨q, _, _, ht⟩
      match q with
      | 0 | 1 => cases ht
      | 2 | 3 =>
          cases ht
          decide
      | n + 4 => cases ht

end Nfa

end ParserForge

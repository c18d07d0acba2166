import Mathlib
import ParserForge.Lexer.Scan
import ParserForge.Proofs.Automaton.Subsets
import ParserForge.Proofs.Regex.Block

/-!
The automaton of a lexer.  A word is marked with the smallest index of an expression whose
language contains it, and the search from a state finds the longest prefix that has a mark.
-/

namespace ParserForge

namespace Lexer

section

variable {n : Nfa Char Nat}

/-- The words of each expression lead through its block to a state with its index. -/
theorem exists_path_of_mem_language {regexes : List Regex} {index : Nat} {base : StateId}
    (h : n.Holds base (blocks index base regexes)) {i : Nat} {r : Regex}
    (hr : regexes[i]? = some r) {w : List Char} (hw : w ∈ r.language) :
    ∃ q ∈ entries base regexes, ∃ f, n.Path q w f ∧ n.isAccepting f = true ∧
      n.tagOf f = some (index + i) := by
  induction regexes generalizing index base i with
  | nil => cases hr
  | cons s regexes ih =>
      rw [blocks, Nfa.holds_append, Regex.length_block] at h
      obtain ⟨hblock, hrest⟩ := h
      cases i with
      | zero =>
          obtain rfl := Option.some.inj hr
          have hexit := Regex.getElem?_exit hblock
          refine ⟨_, List.mem_cons_self, _, (Regex.recognized n s).complete hblock hw, ?_, ?_⟩
          · rw [Nfa.isAccepting, hexit, Option.map_some, Option.getD_some]
          · rw [Nfa.tagOf, hexit, Option.bind_some, Nat.add_zero]
      | succ i =>
          obtain ⟨q, hq, f, hpath, haccepting, htag⟩ := ih hrest hr
          refine ⟨q, List.mem_cons_of_mem _ hq, f, hpath, haccepting, ?_⟩
          rw [htag, Nat.add_right_comm, Nat.add_assoc]

/-- A path from an entry to an accepting state spells a word of the expression whose index is the
mark of that state. -/
theorem mem_language_of_path {regexes : List Regex} {index : Nat} {base : StateId}
    (h : n.Holds base (blocks index base regexes)) {q f : StateId} (hq : q ∈ entries base regexes)
    {w : List Char} (hpath : n.Path q w f) (haccepting : n.isAccepting f = true) :
    ∃ i r, regexes[i]? = some r ∧ w ∈ r.language ∧ n.tagOf f = some (index + i) := by
  induction regexes generalizing index base with
  | nil => exact absurd hq List.not_mem_nil
  | cons s regexes ih =>
      rw [blocks, Nfa.holds_append, Regex.length_block] at h
      obtain ⟨hblock, hrest⟩ := h
      rcases List.mem_cons.mp hq with rfl | hq
      · have hout := Regex.not_inside_of_isAccepting hblock haccepting
        obtain ⟨rfl, hw⟩ := Regex.eq_exit_of_path hblock rfl hout hpath
        refine ⟨0, s, rfl, hw, ?_⟩
        rw [Nfa.tagOf, Regex.getElem?_exit hblock, Option.bind_some, Nat.add_zero]
      · obtain ⟨i, r, hr, hw, htag⟩ := ih hrest hq
        refine ⟨i + 1, r, hr, hw, ?_⟩
        rw [htag, Nat.add_right_comm, Nat.add_assoc]

end

/-- The indices of the languages that contain the word. -/
def matching (languages : List (Language Char)) (w : List Char) : Set Nat :=
  {i | ∃ L, languages[i]? = some L ∧ w ∈ L}

/-- A word leads to the accepting states of the expressions whose languages contain it. -/
theorem mem_matching_iff {regexes : List Regex} {w : List Char} {i : Nat} :
    i ∈ matching (regexes.map Regex.language) w ↔
      ∃ f, (nfa regexes).Path (nfa regexes).start w f ∧
        (nfa regexes).isAccepting f = true ∧ (nfa regexes).tagOf f = some i := by
  have hholds : (nfa regexes).Holds 0 ({ silent := entries 1 regexes } :: blocks 0 1 regexes) := by
    intro j s hs
    rw [nfa, Nat.zero_add, List.getElem?_toArray]
    exact hs
  obtain ⟨hstart, hblocks⟩ := Nfa.holds_cons.mp hholds
  constructor
  · rintro ⟨L, hL, hw⟩
    rw [List.getElem?_map] at hL
    obtain ⟨r, hr, rfl⟩ := Option.map_eq_some_iff.mp hL
    obtain ⟨q, hq, f, hpath, haccepting, htag⟩ := exists_path_of_mem_language hblocks hr hw
    rw [Nat.zero_add] at htag
    exact ⟨f, .silent (Nfa.mem_silentFrom hstart hq) hpath, haccepting, htag⟩
  · rintro ⟨f, hpath, haccepting, htag⟩
    have hne : f ≠ 0 := by
      rintro rfl
      rw [Nfa.isAccepting, hstart] at haccepting
      exact Bool.false_ne_true haccepting
    obtain ⟨k, hsteps⟩ := Nfa.path_iff_steps.mp hpath
    obtain ⟨q, hq, m, rfl, hrest⟩ := hsteps.of_silent hstart hne
    obtain ⟨j, r, hr, hw, htag'⟩ :=
      mem_language_of_path hblocks hq (Nfa.path_iff_steps.mpr ⟨m, hrest⟩) haccepting
    rw [htag, Nat.zero_add] at htag'
    obtain rfl := Option.some.inj htag'
    exact ⟨r.language, by rw [List.getElem?_map, hr, Option.map_some], hw⟩

/-- The mark of a word is the smallest index of a language that contains it. -/
theorem mark_nfa (regexes : List Regex) (w : List Char) :
    match ((nfa regexes).determinize List.min?).mark 0 w with
    | some i => IsLeast (matching (regexes.map Regex.language) w) i
    | none => matching (regexes.map Regex.language) w = ∅ := by
  obtain ⟨tags, heq, hmem⟩ := Nfa.mark_determinize List.min? rfl (nfa regexes) w
  have hmatching : ∀ i, i ∈ tags ↔ i ∈ matching (regexes.map Regex.language) w := by
    intro i
    rw [hmem, mem_matching_iff]
  rw [heq]
  split
  · next i hmin =>
      obtain ⟨hi, hle⟩ := List.min?_eq_some_iff.mp hmin
      exact ⟨(hmatching i).mp hi, fun j hj => hle j ((hmatching j).mpr hj)⟩
  · next hmin =>
      rw [List.min?_eq_none_iff] at hmin
      subst hmin
      exact Set.eq_empty_of_forall_notMem fun i hi => List.not_mem_nil ((hmatching i).mpr hi)

/-- The word is the longest nonempty prefix of the text that has a mark from the state `q` on. -/
structure Longest (d : Dfa Char Nat) (q : StateId) (text w : List Char) (index : Nat) : Prop where
  initial : w <+: text
  nonempty : w ≠ []
  mark_eq : d.mark q w = some index
  unmarked : ∀ v, v <+: text → w.length < v.length → d.mark q v = none

section

variable {d : Dfa Char Nat} {q r : StateId} {c : Char} {text : List Char}

theorem mark_cons_of_next (hnext : d.next q c = some r) (w : List Char) :
    d.mark q (c :: w) = d.mark r w := by
  rw [Dfa.mark_cons, hnext, Option.bind_some]

/-- A longest prefix behind a transition is one together with the symbol of the transition. -/
theorem Longest.cons {w : List Char} {index : Nat} (hnext : d.next q c = some r)
    (h : Longest d r text w index) : Longest d q (c :: text) (c :: w) index where
  initial := List.cons_prefix_cons.mpr ⟨rfl, h.initial⟩
  nonempty := List.cons_ne_nil c w
  mark_eq := by rw [mark_cons_of_next hnext, h.mark_eq]
  unmarked := by
    intro v hv hlt
    rcases List.prefix_cons_iff.mp hv with rfl | ⟨u, rfl, hu⟩
    · exact absurd hlt (Nat.not_lt_zero _)
    · rw [mark_cons_of_next hnext]
      exact h.unmarked u hu (Nat.lt_of_succ_lt_succ hlt)

theorem longest_singleton {index : Nat} (hnext : d.next q c = some r)
    (htag : d.tagOf r = some index)
    (hno : ∀ v, v <+: text → v ≠ [] → d.mark r v = none) : Longest d q (c :: text) [c] index where
  initial := List.cons_prefix_cons.mpr ⟨rfl, List.nil_prefix⟩
  nonempty := List.cons_ne_nil c []
  mark_eq := by rw [mark_cons_of_next hnext, Dfa.mark_nil, htag]
  unmarked := by
    intro v hv hlt
    rcases List.prefix_cons_iff.mp hv with rfl | ⟨u, rfl, hu⟩
    · exact absurd hlt (Nat.not_lt_zero _)
    · rw [mark_cons_of_next hnext]
      exact hno u hu (List.ne_nil_of_length_pos (Nat.lt_of_succ_lt_succ hlt))

end

/-- The search through a text finds its longest nonempty prefix with a mark, if there is any. -/
theorem longestFrom_spec (d : Dfa Char Nat) (q : StateId) (text : List Char) :
    match longestFrom d q text with
    | some (length, index) => ∃ w, w.length = length ∧ Longest d q text w index
    | none => ∀ v, v <+: text → v ≠ [] → d.mark q v = none := by
  induction text generalizing q with
  | nil =>
      intro v hv hne
      exact absurd (List.prefix_nil.mp hv) hne
  | cons c text ih =>
      cases hnext : d.next q c with
      | none =>
          simp only [longestFrom, hnext]
          intro v hv hne
          obtain ⟨u, rfl, _⟩ := (List.prefix_cons_iff.mp hv).resolve_left hne
          rw [Dfa.mark_cons, hnext, Option.bind_none]
      | some r =>
          have ih := ih r
          cases hlongest : longestFrom d r text with
          | some found =>
              simp only [hlongest] at ih
              simp only [longestFrom, hnext, hlongest]
              obtain ⟨w, hlength, hw⟩ := ih
              exact ⟨c :: w, by rw [List.length_cons, hlength], hw.cons hnext⟩
          | none =>
              simp only [hlongest] at ih
              cases htag : d.tagOf r with
              | some index =>
                  simp only [longestFrom, hnext, hlongest, htag, Option.map_some]
                  exact ⟨[c], rfl, longest_singleton hnext htag ih⟩
              | none =>
                  simp only [longestFrom, hnext, hlongest, htag, Option.map_none]
                  intro v hv hne
                  obtain ⟨u, rfl, hu⟩ := (List.prefix_cons_iff.mp hv).resolve_left hne
                  rw [mark_cons_of_next hnext]
                  by_cases hnil : u = []
                  · subst hnil
                    exact htag
                  · exact ih u hu hnil

end Lexer

end ParserForge

import Mathlib
import ParserForge.Lexer.Scan
import ParserForge.Proofs.Automaton.Subsets

/-!
The tokens of a text without the deterministic automaton.  A text leads it through some of its
states only, each of which is a set of states of the nondeterministic automaton, so it is enough to
follow these sets.
-/

namespace ParserForge.Lexer

variable {κ : Type}

/-- The longest nonempty match of a text from a set of states. -/
def longestAlong (a : Nfa Char Nat) : List StateId → List Char → Option (Nat × Nat)
  | _, [] => none
  | members, c :: text =>
      let moved := a.targets members c
      if moved = [] then none
      else
        match longestAlong a (a.closure moved) text with
        | some (length, index) => some (length + 1, index)
        | none => (a.acceptingTags (a.closure moved)).min?.map fun index => (1, index)

theorem longestFrom_determinize {a : Nfa Char Nat} {q : StateId} {members : List StateId}
    (h : a.subsetListing.nodes[q]? = some members) (text : List Char) :
    longestFrom (a.determinize List.min?) q text = longestAlong a members text := by
  induction text generalizing q members with
  | nil => rfl
  | cons c text ih =>
      have hnext := Nfa.next_determinize (List.min? : List Nat → Option Nat) h c
      split at hnext
      · next hnil => simp only [longestFrom, longestAlong, hnext, hnil, if_true]
      · next hne =>
          obtain ⟨r, hr, hget⟩ := hnext
          have htag : (a.determinize List.min?).tagOf r =
              (a.acceptingTags (a.closure (a.targets members c))).min? := by
            rw [Dfa.tagOf, Nfa.states_determinize, hget, Option.map_some, Option.bind_some,
              Nfa.tag_dfaState rfl]
          cases hrest : longestAlong a (a.closure (a.targets members c)) text with
          | none =>
              simp only [longestFrom, longestAlong, hr, hne, if_false, ih hget, htag, hrest]
          | some found =>
              simp only [longestFrom, longestAlong, hr, hne, if_false, ih hget, hrest]

/-- The states of the rules before the first character. -/
def startAlong (rules : List (LexerRule κ)) : List StateId :=
  (nfa (rules.map LexerRule.regex)).closure [0]

theorem longestMatch_ofRules (rules : List (LexerRule κ)) (text : List Char) :
    (ofRules rules).longestMatch text =
      longestAlong (nfa (rules.map LexerRule.regex)) (startAlong rules) text :=
  longestFrom_determinize (nfa (rules.map LexerRule.regex)).subsetListing_sound.head text

/-- The tokens of a text, as `scanFrom` finds them. -/
def scanAlong (rules : List (LexerRule κ)) : Position → Nat → List Char → List (Token κ)
  | place, _, [] => [⟨.ending, [], place⟩]
  | place, covered + 1, c :: text => scanAlong rules (place.advance c) covered text
  | place, 0, c :: text =>
      match longestAlong (nfa (rules.map LexerRule.regex)) (startAlong rules) (c :: text) with
      | none => ⟨.invalid, [c], place⟩ :: scanAlong rules (place.advance c) 0 text
      | some (length, index) =>
          let rest := scanAlong rules (place.advance c) (length - 1) text
          match rules[index]?.bind LexerRule.kind with
          | none => rest
          | some kind => ⟨.terminal kind, (c :: text).take length, place⟩ :: rest

theorem scanFrom_ofRules (rules : List (LexerRule κ)) (place : Position) (covered : Nat)
    (text : List Char) :
    (ofRules rules).scanFrom place covered text = scanAlong rules place covered text := by
  induction text generalizing place covered with
  | nil => cases covered <;> rfl
  | cons c text ih =>
      cases covered with
      | zero =>
          simp only [scanFrom, scanAlong, longestMatch_ofRules, ih]
          rfl
      | succ covered => simp only [scanFrom, scanAlong, ih]

end ParserForge.Lexer

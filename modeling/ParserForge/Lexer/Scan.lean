import ParserForge.Automaton.Dfa
import ParserForge.Lexer.Rules
import ParserForge.Lexer.Token
import ParserForge.Regex.Block

/-!
Cutting a text into tokens.  At each place the longest text is taken that some rule matches, and
of the rules that match it the earliest one decides; where no rule matches, one character is
given up as invalid.
-/

namespace ParserForge

/-- A lexer: its rules, and the automaton whose marks are the indices of the rules. -/
structure Lexer (κ : Type) where
  rules : List (LexerRule κ)
  automaton : Dfa Char Nat

namespace Lexer

variable {κ : Type}

/-- The blocks of the expressions, one behind the other.  The exit of each is accepting and
marked with the index of its rule. -/
def blocks : Nat → StateId → List Regex → List (NfaState Char Nat)
  | _, _, [] => []
  | index, base, r :: rest =>
      r.block base { accepting := true, tag := some index } ++
        blocks (index + 1) (base + r.blockSize) rest

/-- The entries of these blocks. -/
def entries : StateId → List Regex → List StateId
  | _, [] => []
  | base, r :: rest => r.entry base :: entries (base + r.blockSize) rest

/-- The automaton that starts in a state of its own, from which silent edges lead into the block
of every expression. -/
def nfa (regexes : List Regex) : Nfa Char Nat :=
  ⟨({ silent := entries 1 regexes } :: blocks 0 1 regexes).toArray, 0⟩

/-- The lexer of the rules. -/
def ofRules (rules : List (LexerRule κ)) : Lexer κ :=
  ⟨rules, (nfa (rules.map LexerRule.regex)).determinize List.min?⟩

/-- The longest nonempty match of a text from a state of the automaton: its length and the index
of its rule. -/
def longestFrom (d : Dfa Char Nat) : StateId → List Char → Option (Nat × Nat)
  | _, [] => none
  | q, c :: text =>
      match d.next q c with
      | none => none
      | some q =>
          match longestFrom d q text with
          | some (length, index) => some (length + 1, index)
          | none => (d.tagOf q).map fun index => (1, index)

/-- The longest match at the beginning of a text. -/
def longestMatch (lexer : Lexer κ) (text : List Char) : Option (Nat × Nat) :=
  longestFrom lexer.automaton 0 text

/-- The tokens of a text that starts at the given place, when its first `covered` characters
belong to a match that has been dealt with. -/
def scanFrom (lexer : Lexer κ) : Position → Nat → List Char → List (Token κ)
  | place, _, [] => [⟨.ending, [], place⟩]
  | place, covered + 1, c :: text => scanFrom lexer (place.advance c) covered text
  | place, 0, c :: text =>
      match lexer.longestMatch (c :: text) with
      | none => ⟨.invalid, [c], place⟩ :: scanFrom lexer (place.advance c) 0 text
      | some (length, index) =>
          let rest := scanFrom lexer (place.advance c) (length - 1) text
          match lexer.rules[index]?.bind LexerRule.kind with
          | none => rest
          | some kind => ⟨.terminal kind, (c :: text).take length, place⟩ :: rest

/-- The tokens of a text; the last one is the end of the input. -/
def scan (lexer : Lexer κ) (text : List Char) : List (Token κ) :=
  lexer.scanFrom .start 0 text

end Lexer

end ParserForge

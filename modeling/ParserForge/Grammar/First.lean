import ParserForge.Grammar.Basic

/-!
FIRST sets: the terminals that can begin what a symbol derives.  A set holds the mark
`TerminalId.epsilon` exactly if the empty word can be derived.
-/

namespace ParserForge

/-- Applies a function again and again, at most `n` times, until it changes nothing. -/
def stabilize {α : Type} [DecidableEq α] (f : α → α) : Nat → α → α
  | 0, a => a
  | n + 1, a =>
      let b := f a
      if b = a then a else stabilize f n b

/-- A set of terminals for every nonterminal, in the order of their numbers. -/
structure SetTable where
  sets : List TerminalSet
deriving DecidableEq

namespace SetTable

/-- The empty set for each of `n` nonterminals. -/
def empty (n : Nat) : SetTable := ⟨List.replicate n ∅⟩

/-- The set of a nonterminal. -/
def get (s : SetTable) (n : NonterminalId) : TerminalSet := s.sets[n]?.getD ∅

/-- Adds terminals to the set of a nonterminal. -/
def add (s : SetTable) (n : NonterminalId) (ts : TerminalSet) : SetTable :=
  ⟨s.sets.modify n (· ∪ ts)⟩

/-- The sets in words, a line for each nonterminal. -/
def render (label : String) (s : SetTable) (g : Grammar) : String :=
  Grammar.lines <| s.sets.mapIdx fun n set =>
    label ++ "(" ++ g.nonterminalName n ++ ") = " ++ g.renderSet set

/-- The terminals that can begin what a sequence of symbols derives, by these FIRST sets. -/
def firstOf (s : SetTable) : List Symbol → TerminalSet
  | [] => .singleton .epsilon
  | .terminal t :: _ => .singleton t
  | .nonterminal n :: rest =>
      let first := s.get n
      if TerminalId.epsilon ∈ first then first.erase .epsilon ∪ s.firstOf rest else first

end SetTable

/-- The FIRST set of every nonterminal. -/
structure FirstSets where
  table : SetTable

namespace FirstSets

/-- Adds to the sets what each production shows about its head, the first production first. -/
def round (g : Grammar) (s : SetTable) : SetTable :=
  g.productions.foldl (fun s p => s.add p.head (s.firstOf p.body)) s

/-- The number of rounds after which nothing can change: a round that changes something puts a
further terminal into one of the sets. -/
def rounds (g : Grammar) : Nat := g.nonterminals.length * g.terminals.length + 1

/-- The FIRST sets of a grammar. -/
def ofGrammar (g : Grammar) : FirstSets :=
  ⟨stabilize (round g) (rounds g) (.empty g.nonterminals.length)⟩

/-- `FIRST` of a nonterminal. -/
def get (s : FirstSets) (n : NonterminalId) : TerminalSet := s.table.get n

/-- Whether the nonterminal derives the empty word. -/
def isNullable (s : FirstSets) (n : NonterminalId) : Bool :=
  (s.get n).contains .epsilon

/-- `FIRST` of one symbol. -/
def ofSymbol (s : FirstSets) : Symbol → TerminalSet
  | .terminal t => .singleton t
  | .nonterminal n => s.get n

/-- `FIRST` of a sequence of symbols. -/
def ofSequence (s : FirstSets) (symbols : List Symbol) : TerminalSet := s.table.firstOf symbols

/-- Whether the sets are known of all nonterminals that decide about the sequence: those up to
the first symbol that does not derive the empty word. -/
def decides (s : FirstSets) : List Symbol → Bool
  | .nonterminal n :: rest =>
      decide (n < s.table.sets.length) && (!s.isNullable n || s.decides rest)
  | _ => true

/-- `FIRST` of a sequence; refused if it hangs on a nonterminal without a set. -/
def ofSequence? (s : FirstSets) (symbols : List Symbol) : Option TerminalSet :=
  if s.decides symbols then some (s.ofSequence symbols) else none

/-- The sets in words. -/
def render (s : FirstSets) (g : Grammar) : String := s.table.render "FIRST" g

end FirstSets

end ParserForge

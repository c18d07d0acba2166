import ParserForge.Grammar.First

/-!
FOLLOW sets: the terminals that can stand right behind a nonterminal, the end of the input
among them.
-/

namespace ParserForge

/-- The FOLLOW set of every nonterminal. -/
structure FollowSets where
  table : SetTable

namespace FollowSets

/-- Adds to the sets what a body shows about its nonterminals: behind each of them stands what
begins the rest of the body or, if the rest derives the empty word, what follows the head. -/
def fromBody (first : FirstSets) (head : NonterminalId) : List Symbol → SetTable → SetTable
  | [], s => s
  | .terminal _ :: rest, s => fromBody first head rest s
  | .nonterminal n :: rest, s =>
      let begins := first.ofSequence rest
      let behind :=
        if TerminalId.epsilon ∈ begins then begins.erase .epsilon ∪ s.get head else begins
      fromBody first head rest (s.add n behind)

/-- Adds to the sets what each production shows, the first production first. -/
def round (g : Grammar) (first : FirstSets) (s : SetTable) : SetTable :=
  g.productions.foldl (fun s p => fromBody first p.head p.body s) s

/-- The end of the input follows the root and the start symbol. -/
def initial (g : Grammar) : SetTable :=
  let s := SetTable.empty g.nonterminals.length
  (s.add .root (.singleton .eoi)).add g.start (.singleton .eoi)

/-- The FOLLOW sets of a grammar. -/
def ofGrammar (g : Grammar) (first : FirstSets) : FollowSets :=
  ⟨stabilize (round g first) (FirstSets.rounds g) (initial g)⟩

/-- `FOLLOW` of a nonterminal. -/
def get (s : FollowSets) (n : NonterminalId) : TerminalSet := s.table.get n

/-- The sets in words. -/
def render (s : FollowSets) (g : Grammar) : String := s.table.render "FOLLOW" g

end FollowSets

end ParserForge

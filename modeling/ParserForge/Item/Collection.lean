import ParserForge.Automaton.Nfa
import ParserForge.Item.Basic

/-!
Collections of item sets: the automata that tell a parser which items are possible after the
symbols it has seen.
-/

namespace ParserForge

/-- An item and the terminals that may follow its production. -/
structure LookaheadItem where
  core : Item
  lookaheads : TerminalSet
deriving DecidableEq, Hashable

/-- A set of items, ordered by item, and where each symbol leads. -/
structure CollectionState where
  items : List LookaheadItem
  transitions : List (Symbol × StateId)
deriving DecidableEq

/-- The item sets of a grammar.  State zero is the start. -/
structure Collection where
  states : List CollectionState
deriving DecidableEq

namespace CollectionState

/-- The items whose dot stands at the end. -/
def completed (g : Grammar) (s : CollectionState) : List LookaheadItem :=
  s.items.filter fun i => i.core.isComplete g

/-- The state in words. -/
def render (g : Grammar) (id : StateId) (s : CollectionState) : String :=
  let item (i : LookaheadItem) : String :=
    "- " ++ i.core.render g ++
      if i.lookaheads.isEmpty then "" else "  " ++ g.renderSet i.lookaheads
  let transition (t : Symbol × StateId) : String :=
    "- " ++ g.symbolName t.1 ++ " => " ++ t.2.label
  Grammar.lines <|
    ("#### State " ++ id.label) :: "## items" :: s.items.map item ++
      if s.transitions.isEmpty then [] else "## transitions" :: s.transitions.map transition

end CollectionState

namespace Collection

/-- The states in words, with an empty line between two of them. -/
def render (g : Grammar) (c : Collection) : String :=
  "\n".intercalate (c.states.mapIdx fun id s => s.render g id)

end Collection

end ParserForge

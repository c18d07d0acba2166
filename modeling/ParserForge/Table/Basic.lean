import ParserForge.Automaton.Nfa
import ParserForge.Grammar.Basic
import ParserForge.Parsing.Machine

/-!
Parse tables: for each state what to do on a terminal, and where a nonterminal leads.
-/

namespace ParserForge

/-- What to do on a terminal. -/
inductive Action where
  | shift (next : StateId)
  | reduce (p : ProductionId)
  | accept
deriving DecidableEq, Repr

def Action.render : Action → String
  | shift next => "shift(" ++ next.label ++ ")"
  | reduce p => "reduce(" ++ p.label ++ ")"
  | accept => "accept"

/-- The entries of a state, each kind in the order in which it was filled in. -/
structure TableRow where
  actions : List (TerminalId × Action)
  gotos : List (NonterminalId × StateId)
deriving DecidableEq, Repr

/-- A table: the rows of its states, and head and body length of every production. -/
structure ParseTable where
  rows : List TableRow
  shapes : List (NonterminalId × Nat)
deriving DecidableEq, Repr

/-- The row in words. -/
def TableRow.render (g : Grammar) (id : StateId) (row : TableRow) : String :=
  let action (e : TerminalId × Action) : String :=
    "- " ++ g.terminalName e.1 ++ " => " ++
      match e.2 with
      | .reduce p => "reduce(" ++ g.renderProduction p ++ ")"
      | other => other.render
  let goto (e : NonterminalId × StateId) : String :=
    "- " ++ g.nonterminalName e.1 ++ " => goto(" ++ e.2.label ++ ")"
  Grammar.lines <|
    ("#### State " ++ id.label) :: "## actions" :: row.actions.map action ++
      if row.gotos.isEmpty then [] else "## gotos" :: row.gotos.map goto

namespace ParseTable

/-- What to do in a state on a terminal. -/
def action (t : ParseTable) (q : StateId) (terminal : TerminalId) : Option Action :=
  t.rows[q]?.bind fun row => row.actions.lookup terminal

/-- Where a nonterminal leads from a state. -/
def goto (t : ParseTable) (q : StateId) (n : NonterminalId) : Option StateId :=
  t.rows[q]?.bind fun row => row.gotos.lookup n

/-- The terminals on which a state has something to do. -/
def expected (t : ParseTable) (q : StateId) : List TerminalId :=
  ((t.rows[q]?.map TableRow.actions).getD []).map Prod.fst

/-- The states in words, with an empty line between two of them. -/
def render (g : Grammar) (t : ParseTable) : String :=
  "\n".intercalate (t.rows.mapIdx fun id row => row.render g id)

/-- What the table asks a parser to do. -/
def move (t : ParseTable) (q : StateId) (lookahead : Option TerminalId) :
    Move StateId NonterminalId ProductionId :=
  match t.action q (lookahead.getD .eoi) with
  | some (.shift next) => .shift next
  | some (.reduce p) =>
      match t.shapes[p]? with
      | some (head, arity) => .reduce p head arity
      | none => .error
  | some .accept => .accept
  | none => .error

/-- The parser over the table. -/
def machine (t : ParseTable) : Machine StateId TerminalId NonterminalId ProductionId :=
  ⟨0, t.move, t.goto⟩

/-- Parses an input.  There is no answer if the parse does not come to an end. -/
def parse? (t : ParseTable) (input : List TerminalId) :
    Option (Except (ParseError StateId) (Derivation ProductionId)) :=
  t.machine.parse? t.rows.length input

end ParseTable

end ParserForge

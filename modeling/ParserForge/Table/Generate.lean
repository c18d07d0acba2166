import ParserForge.Grammar.Follow
import ParserForge.Item.Lr0
import ParserForge.Item.Lr1
import ParserForge.Table.Basic

/-!
Filling a table from item sets.  A state that would have to do two different things on one
terminal is a conflict, and the first one found ends the work.
-/

namespace ParserForge

/-- How the item sets and the terminals to reduce on are found. -/
inductive Method where
  /-- LR(0) item sets; a production is reduced on the FOLLOW set of its head. -/
  | slr1
  /-- LR(1) item sets; a production is reduced on the lookaheads of its item. -/
  | lr1
deriving DecidableEq, Repr

/-- Two things to do in one state on one terminal. -/
structure Conflict where
  state : StateId
  terminal : TerminalId
  existing : Action
  incoming : Action
deriving DecidableEq, Repr

/-- The conflict in words, with the productions that take part in it. -/
def Conflict.message (g : Grammar) (c : Conflict) : String :=
  let rule : Action → String
    | .reduce p => "\n  " ++ p.label ++ ": " ++ g.renderProduction p
    | _ => ""
  "conflict in state " ++ c.state.label ++ " on `" ++ g.terminalName c.terminal ++ "': " ++
    c.existing.render ++ " vs " ++ c.incoming.render ++ rule c.existing ++ rule c.incoming

/-- Why there is no table. -/
inductive TableError where
  | conflict (c : Conflict)
  /-- Predictions without lookaheads go round in a circle. -/
  | endless
deriving DecidableEq, Repr

/-- The item sets that a method works on, unless their predictions never come to an end. -/
def Method.collection? (g : Grammar) (first : FirstSets) : Method → Option Collection
  | slr1 => some (Lr0.collection g)
  | lr1 => Lr1.collection? g first

namespace ParseTable

/-- The terminals on which a completed item is reduced: those that follow its head, if FOLLOW
sets are given, and its own lookaheads otherwise. -/
def reduceOn (g : Grammar) (follow : Option FollowSets) (i : LookaheadItem) : TerminalSet :=
  match follow with
  | some sets => sets.get (g.head i.core.production)
  | none => i.lookaheads

/-- What there is to do in a state: shifts in the order of the transitions, then reductions in
the order of the completed items.  The completed root is accepted at the end of the input. -/
def candidates (g : Grammar) (follow : Option FollowSets) (s : CollectionState) :
    List (TerminalId × Action) :=
  let shifts := s.transitions.filterMap fun (symbol, next) =>
    match symbol with
    | .terminal t => some (t, Action.shift next)
    | .nonterminal _ => none
  let reductions := (s.completed g).flatMap fun i =>
    if i.core.production = .accept then [(TerminalId.eoi, Action.accept)]
    else (reduceOn g follow i).members.map fun t => (t, .reduce i.core.production)
  shifts ++ reductions

/-- Enters something to do, unless the state has something else to do on the terminal. -/
def enter (state : StateId) (actions : List (TerminalId × Action))
    (entry : TerminalId × Action) : Except Conflict (List (TerminalId × Action)) :=
  match actions.lookup entry.1 with
  | none => .ok (actions ++ [entry])
  | some existing =>
      if existing = entry.2 then .ok actions else .error ⟨state, entry.1, existing, entry.2⟩

/-- The row of a state. -/
def row (g : Grammar) (follow : Option FollowSets) (id : StateId) (s : CollectionState) :
    Except Conflict TableRow :=
  let gotos := s.transitions.filterMap fun (symbol, next) =>
    match symbol with
    | .terminal _ => none
    | .nonterminal n => some (n, next)
  ((candidates g follow s).foldlM (enter id) []).map fun actions => ⟨actions, gotos⟩

/-- The rows of states, the first of which has the number `id`. -/
def rowsFrom (g : Grammar) (follow : Option FollowSets) (id : StateId) :
    List CollectionState → Except Conflict (List TableRow)
  | [] => .ok []
  | s :: rest =>
      match row g follow id s with
      | .error c => .error c
      | .ok r => (rowsFrom g follow (id + 1) rest).map (r :: ·)

/-- The table of a collection. -/
def ofCollection (g : Grammar) (c : Collection) (follow : Option FollowSets) :
    Except Conflict ParseTable :=
  (rowsFrom g follow 0 c.states).map fun rows =>
    ⟨rows, g.productions.map fun p => (p.head, p.body.length)⟩

/-- The table of a grammar. -/
def generate (g : Grammar) (method : Method) : Except TableError ParseTable :=
  let first := FirstSets.ofGrammar g
  match method.collection? g first with
  | none => .error .endless
  | some c =>
      let follow :=
        match method with
        | .slr1 => some (FollowSets.ofGrammar g first)
        | .lr1 => none
      (ofCollection g c follow).mapError .conflict

end ParseTable

end ParserForge

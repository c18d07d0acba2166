import ParserForge.Automaton.Dfa
import ParserForge.Item.Collection

/-!
The LR(0) collection.  Every place of a dot is a state of an automaton over symbols: a symbol
moves the dot over itself, and a dot before a nonterminal can silently go to the start of each
of its productions.  The subset construction turns this automaton into the item sets.
-/

namespace ParserForge.Lr0

/-- The places that the dots in the first `p` productions can have, in number.  It is the state
that stands for the start of production `p`. -/
def placesBefore (g : Grammar) (p : ProductionId) : StateId :=
  Item.count (g.productions.take p)

/-- The starts of the productions that a dot before the symbol predicts. -/
def predicted (g : Grammar) : Symbol → List StateId
  | .terminal _ => []
  | .nonterminal n => (g.productionsOf n).map (placesBefore g)

/-- The states for the places in a body, the first of which has the number `base`. -/
def chain (g : Grammar) (base : StateId) : List Symbol → List (NfaState Symbol Unit)
  | [] => [{ accepting := true }]
  | symbol :: rest =>
      { moves := [(symbol, base + 1)], silent := predicted g symbol } ::
        chain g (base + 1) rest

/-- The states for the places in several bodies, one behind the other. -/
def chains (g : Grammar) (base : StateId) : List Production → List (NfaState Symbol Unit)
  | [] => []
  | p :: rest => chain g base p.body ++ chains g (base + p.body.length + 1) rest

/-- The automaton of all places.  It starts before the body of the root. -/
def itemAutomaton (g : Grammar) : Nfa Symbol Unit :=
  ⟨(chains g 0 g.productions).toArray, placesBefore g .accept⟩

/-- The items of the places, in the order of the states. -/
def items (g : Grammar) : List Item :=
  (List.range g.productions.length).flatMap fun p =>
    (List.range ((g.body p).length + 1)).map fun dot => ⟨p, UInt16.ofNat dot⟩

/-- The LR(0) collection of a grammar.  The items of a state are in order because the places
are. -/
def collection (g : Grammar) : Collection :=
  let names := (items g).toArray
  let d := (itemAutomaton g).determinize fun _ => some ()
  ⟨d.states.toList.map fun s =>
    { items := s.members.filterMap fun q => names[q]?.map fun i => ⟨i, ∅⟩
      transitions := s.transitions }⟩

end ParserForge.Lr0

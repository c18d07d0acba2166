import ParserForge.Automaton.Nfa
import ParserForge.Discovery

/-!
Deterministic automata, and the subset construction that makes one from a nondeterministic
automaton.  The states of the result are closed sets of states, numbered breadth first.
-/

namespace ParserForge

/-- A state of a deterministic automaton: the states it stands for, and where each symbol
leads. -/
structure DfaState (σ υ : Type) where
  members : List StateId
  accepting : Bool
  tag : Option υ
  transitions : List (σ × StateId)

/-- A deterministic automaton.  State zero is the start. -/
structure Dfa (σ υ : Type) where
  states : Array (DfaState σ υ)

namespace Dfa

variable {σ υ : Type} [DecidableEq σ]

/-- The number of states. -/
def size (d : Dfa σ υ) : Nat := d.states.size

/-- The state that a symbol leads to, if any. -/
def next (d : Dfa σ υ) (q : StateId) (symbol : σ) : Option StateId :=
  d.states[q]?.bind fun s => s.transitions.lookup symbol

/-- The mark of a state. -/
def tagOf (d : Dfa σ υ) (q : StateId) : Option υ := d.states[q]?.bind DfaState.tag

/-- Whether words may end in a state. -/
def isAccepting (d : Dfa σ υ) (q : StateId) : Bool :=
  (d.states[q]?.map DfaState.accepting).getD false

/-- The state in which a word ends, if every symbol of it has a transition. -/
def run (d : Dfa σ υ) : StateId → List σ → Option StateId
  | q, [] => some q
  | q, symbol :: word => (d.next q symbol).bind fun q => run d q word

/-- Whether the automaton accepts the word. -/
def accepts (d : Dfa σ υ) (word : List σ) : Bool :=
  match d.run 0 word with
  | none => false
  | some q => d.isAccepting q

/-- As `next`; refused if the state does not exist. -/
def next? (d : Dfa σ υ) (q : StateId) (symbol : σ) : Option (Option StateId) :=
  if q < d.size then some (d.next q symbol) else none

end Dfa

namespace Nfa

variable {σ τ υ : Type} [DecidableEq σ] [Hashable σ]

/-- The sets of states that the symbols lead to from a set of states. -/
def subsetsFrom (a : Nfa σ τ) (members : List StateId) : List (σ × List StateId) :=
  (groupByKey (a.movesOf members)).map fun group => (group.1, a.closure group.2)

/-- Each symbol that some member has a move on is listed once, with everything that it can lead
to. -/
theorem subsetsFrom_eq (a : Nfa σ τ) (members : List StateId) :
    a.subsetsFrom members = ((a.movesOf members).map Prod.fst).eraseDups.map fun symbol =>
      (symbol, a.closure (a.targets members symbol)) := by
  simp [subsetsFrom, groupByKey_eq, targets]

/-- The sets of states that words can lead to.  There are at most `2 ^ n` sets of `n` states. -/
def subsets (a : Nfa σ τ) : Discovery (List StateId) σ :=
  (Discovery.start (a.closure [a.start])).run a.subsetsFrom (Nat.pow 2 a.size)

/-- The marks of the accepting ones among the states. -/
def acceptingTags (a : Nfa σ τ) (members : List StateId) : List τ :=
  (members.filter a.isAccepting).filterMap a.tagOf

/-- The state that stands for a set of states.  If words may end in it, its mark is what
`resolve` makes of the marks of the accepting members. -/
def dfaState (a : Nfa σ τ) (resolve : List τ → Option υ) (members : List StateId)
    (transitions : List (σ × StateId)) : DfaState σ υ :=
  let accepting := members.any a.isAccepting
  { members := members
    accepting := accepting
    tag := if accepting then resolve (a.acceptingTags members) else none
    transitions := transitions }

/-- The subset construction. -/
def determinize (a : Nfa σ τ) (resolve : List τ → Option υ) : Dfa σ υ :=
  let found := a.subsets
  ⟨Array.zipWith (a.dfaState resolve) found.nodes found.rows⟩

/-- Whether every edge of a state leads to a state. -/
def edgesExist (a : Nfa σ τ) (q : StateId) : Bool :=
  a.allExist (a.silentFrom q) && a.allExist ((a.movesFrom q).map Prod.snd)

/-- The subset construction, unless it meets a number that is no state. -/
def determinize? (a : Nfa σ τ) (resolve : List τ → Option υ) : Option (Dfa σ υ) :=
  let d := a.determinize resolve
  if a.allExist [a.start] && d.states.all fun s => s.members.all a.edgesExist then some d
  else none

end Nfa

end ParserForge

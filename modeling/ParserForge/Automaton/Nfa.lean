import ParserForge.Grouping
import Std.Data.TreeSet.Basic

/-!
Nondeterministic automata with silent edges.  States are numbered from zero in the order in
which they were added.  An edge may name a state that does not exist; such a stray edge leads
nowhere, and the operations whose name ends in `?` refuse an automaton in which they meet one.
-/

namespace ParserForge

/-- States are known by their numbers. -/
abbrev StateId := Nat

/-- The name of a state in messages and listings: its number with at least three digits. -/
def StateId.label (q : StateId) : String :=
  let digits := toString q
  "S#" ++ String.ofList (List.replicate (3 - digits.length) '0') ++ digits

/-- A state: whether words may end in it, its mark, and its edges in the order of insertion. -/
structure NfaState (σ τ : Type) where
  accepting : Bool := false
  tag : Option τ := none
  moves : List (σ × StateId) := []
  silent : List StateId := []

namespace NfaState

variable {σ τ : Type}

/-- The distinct targets of the moves, by symbol. -/
def transitions [DecidableEq σ] [Hashable σ] (s : NfaState σ τ) : List (σ × List StateId) :=
  (groupByKey s.moves).map fun group => (group.1, group.2.eraseDups)

/-- The distinct targets of the silent edges. -/
def epsilons (s : NfaState σ τ) : List StateId := s.silent.eraseDups

end NfaState

/-- An automaton that is still being put together. -/
structure NfaBuilder (σ τ : Type) where
  states : Array (NfaState σ τ)

/-- A nondeterministic automaton with its start state. -/
structure Nfa (σ τ : Type) where
  states : Array (NfaState σ τ)
  start : StateId

namespace NfaBuilder

variable {σ τ : Type}

/-- No states yet. -/
def empty : NfaBuilder σ τ := ⟨#[]⟩

/-- The number of states. -/
def size (b : NfaBuilder σ τ) : Nat := b.states.size

/-- Adds a state without edges, and gives its number. -/
def addState (b : NfaBuilder σ τ) : NfaBuilder σ τ × StateId :=
  (⟨b.states.push {}⟩, b.states.size)

/-- Changes one state; refused if there is no such state. -/
def update? (b : NfaBuilder σ τ) (q : StateId) (change : NfaState σ τ → NfaState σ τ) :
    Option (NfaBuilder σ τ) :=
  if q < b.states.size then some ⟨b.states.modify q change⟩ else none

/-- Adds an edge that reads a symbol.  Its target is not looked at. -/
def addMove? (b : NfaBuilder σ τ) (source : StateId) (symbol : σ) (target : StateId) :
    Option (NfaBuilder σ τ) :=
  b.update? source fun s => { s with moves := s.moves ++ [(symbol, target)] }

/-- Adds a silent edge.  Its target is not looked at. -/
def addSilent? (b : NfaBuilder σ τ) (source target : StateId) : Option (NfaBuilder σ τ) :=
  b.update? source fun s => { s with silent := s.silent ++ [target] }

/-- Says whether words may end in a state. -/
def setAccepting? (b : NfaBuilder σ τ) (q : StateId) (accepting : Bool) :
    Option (NfaBuilder σ τ) :=
  b.update? q fun s => { s with accepting := accepting }

/-- Puts a mark on a state, in place of the mark it had. -/
def setTag? (b : NfaBuilder σ τ) (q : StateId) (tag : τ) : Option (NfaBuilder σ τ) :=
  b.update? q fun s => { s with tag := some tag }

/-- The finished automaton; refused if the start state does not exist. -/
def build? (b : NfaBuilder σ τ) (start : StateId) : Option (Nfa σ τ) :=
  if start < b.states.size then some ⟨b.states, start⟩ else none

end NfaBuilder

/-- A search through the first `size` numbers: which have been reached, and which of these have
not been looked at yet.  Reaching a number that is too large, or one for the second time, does
nothing. -/
structure Search where
  size : Nat
  reached : Std.TreeSet StateId
  pending : List StateId

namespace Search

/-- A search through `n` states that has reached none. -/
def start (n : Nat) : Search := ⟨n, ∅, []⟩

/-- Reaches a state. -/
def reach (s : Search) (q : StateId) : Search :=
  if s.size ≤ q || s.reached.contains q then s
  else ⟨s.size, s.reached.insert q, q :: s.pending⟩

/-- The reached states in ascending order. -/
def toList (s : Search) : List StateId := s.reached.toList

end Search

namespace Nfa

variable {σ τ : Type}

/-- The number of states. -/
def size (a : Nfa σ τ) : Nat := a.states.size

/-- The silent edges of a state. -/
def silentFrom (a : Nfa σ τ) (q : StateId) : List StateId :=
  (a.states[q]?.map NfaState.silent).getD []

/-- The moves of a state. -/
def movesFrom (a : Nfa σ τ) (q : StateId) : List (σ × StateId) :=
  (a.states[q]?.map NfaState.moves).getD []

/-- Whether words may end in a state. -/
def isAccepting (a : Nfa σ τ) (q : StateId) : Bool :=
  (a.states[q]?.map NfaState.accepting).getD false

/-- The mark of a state. -/
def tagOf (a : Nfa σ τ) (q : StateId) : Option τ := a.states[q]?.bind NfaState.tag

/-- Looks at pending states, one after the other, until none is left.  Every state is pending
at most once, so as many rounds as there are states are enough. -/
def explore (a : Nfa σ τ) : Nat → Search → Search
  | 0, s => s
  | n + 1, s =>
      match s.pending with
      | [] => s
      | q :: rest => explore a n ((a.silentFrom q).foldl Search.reach { s with pending := rest })

/-- The states that silent edges reach from the given ones, in ascending order. -/
def closure (a : Nfa σ τ) (seeds : List StateId) : List StateId :=
  (a.explore a.size (seeds.foldl Search.reach (.start a.size))).toList

/-- The moves of several states, in the order of the states. -/
def movesOf (a : Nfa σ τ) (members : List StateId) : List (σ × StateId) :=
  members.flatMap a.movesFrom

/-- Where the moves on a symbol lead from the given states. -/
def targets [DecidableEq σ] (a : Nfa σ τ) (members : List StateId) (symbol : σ) :
    List StateId :=
  (a.movesOf members).filterMap fun m => if m.1 = symbol then some m.2 else none

/-- The states in which a word can end that starts in the given, closed set of states. -/
def after [DecidableEq σ] (a : Nfa σ τ) (members : List StateId) (word : List σ) :
    List StateId :=
  word.foldl (fun current symbol => a.closure (a.targets current symbol)) members

/-- Whether the automaton accepts the word. -/
def accepts [DecidableEq σ] (a : Nfa σ τ) (word : List σ) : Bool :=
  (a.after (a.closure [a.start]) word).any a.isAccepting

/-- Whether all of the numbers are states. -/
def allExist (a : Nfa σ τ) (qs : List StateId) : Bool := qs.all fun q => decide (q < a.size)

/-- The closure, unless it meets a number that is no state. -/
def closure? (a : Nfa σ τ) (seeds : List StateId) : Option (List StateId) :=
  let members := a.closure seeds
  if a.allExist seeds && members.all fun q => a.allExist (a.silentFrom q) then some members
  else none

/-- Whether a word is accepted from a closed set of states, unless the run meets a number that
is no state.  The run ends as soon as no state has a move on the next symbol. -/
def acceptsFrom? [DecidableEq σ] (a : Nfa σ τ) : List StateId → List σ → Option Bool
  | members, [] => some (members.any a.isAccepting)
  | members, symbol :: word =>
      let moved := a.targets members symbol
      if moved.isEmpty then some false
      else
        match a.closure? moved with
        | none => none
        | some members => acceptsFrom? a members word

/-- Whether the word is accepted, unless the run meets a number that is no state. -/
def accepts? [DecidableEq σ] (a : Nfa σ τ) (word : List σ) : Option Bool :=
  match a.closure? [a.start] with
  | none => none
  | some members => a.acceptsFrom? members word

end Nfa

end ParserForge

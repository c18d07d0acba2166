import ParserForge.Parsing.Derivation

/-!
The shift-reduce parser over any table.  A configuration holds the states entered so far and the
rest of the input; a step asks the table what to do on the topmost state and the next symbol.
-/

namespace ParserForge

/-- What a table asks for. -/
inductive Move (σ ν ρ : Type) where
  /-- Takes the next symbol and enters a state. -/
  | shift (next : σ)
  /-- Leaves as many states as the body has symbols, and enters the one that the table has for
  the head. -/
  | reduce (production : ρ) (head : ν) (arity : Nat)
  | accept
  | error
deriving DecidableEq, Repr

/-- A table: its first state, what to do in a state on the next symbol, or at the end of the
input, and which state to enter on a nonterminal. -/
structure Machine (σ α ν ρ : Type) where
  initial : σ
  action : σ → Option α → Move σ ν ρ
  goto : σ → ν → Option σ

/-- Why an input is refused.  The index counts the symbols before the one that was looked at. -/
inductive ParseError (σ : Type) where
  | unexpected (index : Nat) (state : σ)
  | missingGoto (index : Nat) (state : σ)
  | stackUnderflow (index : Nat)
deriving DecidableEq, Repr

namespace ParseError

variable {σ : Type}

/-- The number of symbols before the one where the parse stopped. -/
def index : ParseError σ → Nat
  | unexpected index _ | missingGoto index _ | stackUnderflow index => index

/-- The state that the parse stopped in. -/
def state : ParseError σ → Option σ
  | unexpected _ state | missingGoto _ state => some state
  | stackUnderflow _ => none

def message : ParseError σ → String
  | unexpected index _ => "unexpected token at index " ++ toString index
  | missingGoto index _ =>
      "missing goto entry while reducing before token " ++ toString index
  | stackUnderflow index => "state stack underflow before token " ++ toString index

end ParseError

/-- A parse on its way: the states entered and not left, the latest first; the symbols not taken
yet, and the number of those taken; the moves and the reductions, the latest first. -/
structure Configuration (σ α ρ : Type) where
  stack : List σ
  rest : List α
  index : Nat
  steps : List Step
  reductions : List ρ

/-- What a step comes to. -/
inductive Progress (σ α ρ : Type) where
  | running (c : Configuration σ α ρ)
  | accepted (d : Derivation ρ)
  | refused (e : ParseError σ)

namespace Machine

variable {σ α ν ρ : Type}

/-- Before the first step. -/
def start (m : Machine σ α ν ρ) (input : List α) : Configuration σ α ρ :=
  ⟨[m.initial], input, 0, [], []⟩

/-- One step.  The end of the input is never taken. -/
def step (m : Machine σ α ν ρ) (c : Configuration σ α ρ) : Progress σ α ρ :=
  match c.stack with
  | [] => .refused (.stackUnderflow c.index)
  | top :: _ =>
      match m.action top c.rest.head? with
      | .shift next =>
          match c.rest with
          | [] => .refused (.unexpected c.index top)
          | _ :: rest =>
              .running ⟨next :: c.stack, rest, c.index + 1, .shift :: c.steps, c.reductions⟩
      | .reduce production head arity =>
          match c.stack.drop arity with
          | [] => .refused (.stackUnderflow c.index)
          | below :: stack =>
              match m.goto below head with
              | none => .refused (.missingGoto c.index below)
              | some next =>
                  .running ⟨next :: below :: stack, c.rest, c.index,
                    .reduce arity :: c.steps, production :: c.reductions⟩
      | .accept => .accepted ⟨c.reductions.reverse, (.accept :: c.steps).reverse⟩
      | .error => .refused (.unexpected c.index top)

/-- The outcome of a parse, if that is one of the next `n` steps. -/
def run (m : Machine σ α ν ρ) :
    Nat → Configuration σ α ρ → Option (Except (ParseError σ) (Derivation ρ))
  | 0, _ => none
  | n + 1, c =>
      match m.step c with
      | .running c => run m n c
      | .accepted d => some (.ok d)
      | .refused e => some (.error e)

/-- A number of steps after which a parse that has not ended never will, for a table of `states`
states and an input of `length` symbols.  Between two shifts, the states entered that have not
been left again differ, because a parse that comes back to a state above itself goes on so
forever; which leaves so many configurations at most, none of which can occur twice. -/
def enough (states length : Nat) : Nat :=
  (length + 2) * (length + 2) * Nat.pow (states + 2) (states + 4)

/-- Parses an input with a table of that many states.  There is no answer if the parse does not
come to an end. -/
def parse? (m : Machine σ α ν ρ) (states : Nat) (input : List α) :
    Option (Except (ParseError σ) (Derivation ρ)) :=
  m.run (enough states input.length) (m.start input)

end Machine

end ParserForge

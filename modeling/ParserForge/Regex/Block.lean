import ParserForge.Regex.Basic
import ParserForge.Automaton.Nfa

/-!
The automaton of a regular expression.  An expression becomes a block of consecutive states
that is entered at one state and left at another.  No edge leads into the entry from elsewhere
in the block, and what the exit looks like is up to the caller: inside a larger expression it
has silent edges to whatever follows, at the end of a pattern it is accepting.
-/

namespace ParserForge.Regex

/-- The number of states of the block. -/
def blockSize : Regex → Nat
  | empty | literal _ | oneOf _ => 2
  | concat a b => a.blockSize + b.blockSize
  | alt a b => a.blockSize + b.blockSize + 2
  | star a => a.blockSize + 2
  | plus a => 2 * a.blockSize + 2
  | optional a => a.blockSize + 4

/-- The entry of the block whose first state is `base`. -/
def entry (base : StateId) : Regex → StateId
  | empty | literal _ | oneOf _ | alt _ _ | optional _ => base
  | concat a _ => a.entry base
  | star a => base + a.blockSize
  | plus a => a.entry base

/-- The exit of the block whose first state is `base`. -/
def exit (base : StateId) : Regex → StateId
  | empty | literal _ | oneOf _ => base + 1
  | concat a b => b.exit (base + a.blockSize)
  | alt a b => base + 1 + a.blockSize + b.blockSize
  | star a => base + a.blockSize + 1
  | plus a => base + 2 * a.blockSize + 1
  | optional a => base + a.blockSize + 3

variable {τ : Type}

/-- The block of the expression, with `base` as the number of its first state and `last` as its
exit.

An alternative is entered at its first state, with silent edges into both blocks inside, and
both of these are left by a silent edge to the last state.  A star has its two states behind
the block inside, which it enters and leaves by silent edges, and a silent edge from the exit
inside back to the entry inside repeats it.  A plus is one copy of the block followed by the
star of another, and an option is an alternative with the empty pattern. -/
def block (base : StateId) (last : NfaState Char τ) : Regex → List (NfaState Char τ)
  | empty => [{ silent := [base + 1] }, last]
  | literal c => [{ moves := [(c, base + 1)] }, last]
  | oneOf ranges =>
      [{ moves := (ranges.flatMap CharRange.chars).map fun c => (c, base + 1) }, last]
  | concat a b =>
      let second := base + a.blockSize
      a.block base { silent := [b.entry second] } ++ b.block second last
  | alt a b =>
      let first := base + 1
      let second := first + a.blockSize
      let exit := second + b.blockSize
      { silent := [a.entry first, b.entry second] } ::
        (a.block first { silent := [exit] } ++ b.block second { silent := [exit] } ++ [last])
  | star a =>
      let entry := base + a.blockSize
      let edges := [a.entry base, entry + 1]
      a.block base { silent := edges } ++ [{ silent := edges }, last]
  | plus a =>
      let again := base + a.blockSize
      let entry := again + a.blockSize
      let edges := [a.entry again, entry + 1]
      a.block base { silent := [entry] } ++ a.block again { silent := edges } ++
        [{ silent := edges }, last]
  | optional a =>
      let first := base + 1
      let none := first + a.blockSize
      let exit := none + 2
      { silent := [a.entry first, none] } ::
        (a.block first { silent := [exit] } ++
          [{ silent := [none + 1] }, { silent := [exit] }, last])

/-- The entry and the exit of a block. -/
structure Fragment where
  entry : StateId
  exit : StateId
deriving DecidableEq, Repr

/-- Appends the block of the expression to the states that are there already.  Its exit has no
edges and is not accepting. -/
def compile (r : Regex) (b : NfaBuilder Char τ) : NfaBuilder Char τ × Fragment :=
  (⟨b.states ++ (r.block b.size {}).toArray⟩, ⟨r.entry b.size, r.exit b.size⟩)

/-- The automaton of the expression alone. -/
def toNfa (r : Regex) : Nfa Char τ :=
  ⟨(r.block 0 { accepting := true }).toArray, r.entry 0⟩

end ParserForge.Regex

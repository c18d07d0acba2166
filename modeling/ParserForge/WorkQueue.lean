import Std.Data.TreeSet.Basic

/-!
A first-in first-out queue of work that holds no value twice at once.  A value that has been
taken out may be put back.
-/

namespace ParserForge

/-- The values that wait, oldest first, beside the set of the same values, which answers
whether a value is already waiting. -/
structure WorkQueue (α : Type) [Ord α] where
  waiting : List α
  members : Std.TreeSet α

namespace WorkQueue

variable {α : Type} [Ord α]

/-- Nothing waits. -/
def empty : WorkQueue α := ⟨[], ∅⟩

/-- Nothing is left to be taken out. -/
def isEmpty (q : WorkQueue α) : Bool := q.waiting.isEmpty

/-- Puts a value at the end, unless it waits already; also says whether it was put there. -/
def push (q : WorkQueue α) (a : α) : WorkQueue α × Bool :=
  if q.members.contains a then (q, false)
  else (⟨q.waiting ++ [a], q.members.insert a⟩, true)

/-- Takes the oldest value out. -/
def pop? (q : WorkQueue α) : Option (α × WorkQueue α) :=
  match q.waiting with
  | [] => none
  | a :: rest => some (a, ⟨rest, q.members.erase a⟩)

/-- The queue after pushing the values of a list, the first one first. -/
def ofList (values : List α) : WorkQueue α :=
  values.foldl (fun q a => (q.push a).1) empty

end WorkQueue

end ParserForge

import ParserForge.Discovery
import ParserForge.Grammar.First
import ParserForge.Item.Set
import ParserForge.WorkQueue

/-!
The LR(1) collection.  Items with the same core are one item whose lookaheads are united.
-/

namespace ParserForge.Lr1

/-- A closure in the making: the items found so far, and those whose predictions have to be
looked at, for the first time or again. -/
structure Closure where
  items : ItemSet
  queue : WorkQueue Item

namespace Closure

/-- All predictions have to be looked at. -/
def start (items : ItemSet) : Closure := ⟨items, .ofList items.items⟩

/-- Predicts the start of a production with the given lookaheads.  Its own predictions have to
be looked at if it gained lookaheads, or if it had none before. -/
def predict (lookaheads : TerminalSet) (c : Closure) (p : ProductionId) : Closure :=
  let item := Item.start p
  let known := c.items.lookaheads item
  if known.isEmpty || !lookaheads.subset known then
    ⟨c.items.add item lookaheads, (c.queue.push item).1⟩
  else c

/-- The lookaheads of what an item predicts: the terminals that can begin the rest of its body
and, if the rest derives the empty word, its own lookaheads. -/
def passedOn (g : Grammar) (first : FirstSets) (items : ItemSet) (item : Item) : TerminalSet :=
  let begins := first.ofSequence (item.rest g)
  if TerminalId.epsilon ∈ begins then begins.erase .epsilon ∪ items.lookaheads item else begins

/-- Makes the predictions of an item. -/
def visit (g : Grammar) (first : FirstSets) (c : Closure) (item : Item) : Closure :=
  match item.next g with
  | some (.nonterminal n) =>
      (g.productionsOf n).foldl (predict (passedOn g first c.items item)) c
  | _ => c

/-- Looks at the next item that waits; there is no next step when none does. -/
def step (g : Grammar) (first : FirstSets) (c : Closure) : Option Closure :=
  c.queue.pop?.map fun (item, queue) => visit g first ⟨c.items, queue⟩ item

/-- The items after the last step, if that is one of the next `n`. -/
def run (g : Grammar) (first : FirstSets) : Nat → Closure → Option ItemSet
  | 0, _ => none
  | n + 1, c =>
      match c.step g first with
      | none => some c.items
      | some c => run g first n c

/-- A number of steps after which a closure that is not finished never will be.  With `k`
items, lookaheads can be gained at most `k` times as often as there are terminals.  Between two
such gains only items without lookaheads are put back, and unless these go round in a circle,
`k` rounds of at most `k` items each come to the end of them. -/
def enough (g : Grammar) (items : ItemSet) : Nat :=
  let k := items.entries.length + g.productions.length + 1
  let terminals :=
    g.terminals.length + (items.entries.flatMap fun e => e.lookaheads.members).length + 2
  4 * k * k * k * terminals

end Closure

/-- The items together with everything they predict.  There is no answer if the predictions of
items without lookaheads go round in a circle. -/
def closure? (g : Grammar) (first : FirstSets) (items : ItemSet) : Option ItemSet :=
  (Closure.start items).run g first (Closure.enough g items)

/-- Where the symbols lead from an item set; a set without an answer leads nowhere. -/
def successors (g : Grammar) (first : FirstSets) :
    Option ItemSet → List (Symbol × Option ItemSet)
  | none => []
  | some s => (s.symbols g).map fun symbol => (symbol, closure? g first (s.kernel g symbol))

/-- The item that expects the start symbol, followed by the end of the input. -/
def initial : ItemSet := .ofList [⟨.start .accept, .singleton .eoi⟩]

/-- The item sets that can be reached.  A set gives each item no lookaheads or some of the
terminals, or does not have it at all, which bounds the number of sets. -/
def itemSets (g : Grammar) (first : FirstSets) : Discovery (Option ItemSet) Symbol :=
  (Discovery.start (closure? g first initial)).run (successors g first)
    (Nat.pow 2 ((g.terminals.length + 1) * Item.count g.productions) + 1)

/-- The LR(1) collection of a grammar.  There is no answer if one of the item sets has none. -/
def collection? (g : Grammar) (first : FirstSets) : Option Collection :=
  let found := itemSets g first
  (found.nodes.toList.mapM id).map fun sets =>
    ⟨List.zipWith (fun s row => ⟨s.entries, row⟩) sets found.rows.toList⟩

end ParserForge.Lr1

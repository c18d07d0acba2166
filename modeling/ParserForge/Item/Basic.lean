import ParserForge.Grammar.Basic

/-!
Items: productions with a dot somewhere in the body.  What stands before the dot has been seen,
what stands behind it is still expected.
-/

namespace ParserForge

/-- A production with a dot before one of its symbols or behind the last one.  The place of the
dot is a 16-bit number, which is enough for every body that can be declared. -/
structure Item where
  production : ProductionId
  dot : UInt16
deriving DecidableEq, Hashable, Repr

namespace Item

/-- The item that expects the whole body. -/
def start (p : ProductionId) : Item := ⟨p, 0⟩

/-- Numbers the items by production and, within a production, by dot. -/
def rank (i : Item) : Nat := i.production * 65536 + i.dot.toNat

theorem rank_injective {i j : Item} (h : i.rank = j.rank) : i = j := by
  have quotient : ∀ k : Item, k.rank / 65536 = k.production := fun k => by
    have := k.dot.toNat_lt
    simp only [rank]
    omega
  have hproduction : i.production = j.production := by
    rw [← quotient i, ← quotient j, h]
  have hdot : i.dot = j.dot := by
    simp only [rank, hproduction] at h
    exact UInt16.toNat_inj.mp (Nat.add_left_cancel h)
  cases i; cases j; simp_all

/-- Items are ordered by production, then by dot. -/
instance : Ord Item := ⟨fun i j => compare i.rank j.rank⟩

/-- The number of items of a list of productions. -/
def count : List Production → Nat
  | [] => 0
  | p :: rest => p.body.length + 1 + count rest

/-- The symbol right behind the dot. -/
def next (g : Grammar) (i : Item) : Option Symbol := (g.body i.production)[i.dot.toNat]?

/-- The symbols behind that one. -/
def rest (g : Grammar) (i : Item) : List Symbol :=
  (g.body i.production).drop (i.dot.toNat + 1)

/-- Whether the dot stands behind the last symbol. -/
def isComplete (g : Grammar) (i : Item) : Bool :=
  i.dot.toNat = (g.body i.production).length

/-- The item with its dot moved over one symbol. -/
def advance (i : Item) : Item := { i with dot := i.dot + 1 }

/-- As `advance`; refused at the last place that a dot can have. -/
def advance? (i : Item) : Option Item :=
  if i.dot.toNat = 65535 then none else some i.advance

/-- The words of a body with the dot among them. -/
def wordsWithDot : Nat → List String → List String
  | 0, names => "." :: names
  | _ + 1, [] => []
  | n + 1, name :: names => name :: wordsWithDot n names

/-- The item in words. -/
def render (g : Grammar) (i : Item) : String :=
  let names := wordsWithDot i.dot.toNat ((g.body i.production).map g.symbolName)
  g.nonterminalName (g.head i.production) ++ " -> [" ++
    String.join (names.map fun w => " " ++ w) ++ " ]"

/-- All that can be said about an item. -/
structure View where
  text : String
  next : Option Symbol
  rest : List Symbol
  isComplete : Bool
  advanced : Item

/-- What there is to say about an item; refused if the grammar has no such production, or if
the dot cannot be moved any further. -/
def view? (g : Grammar) (i : Item) : Option View :=
  if i.production < g.productions.length then
    i.advance?.map fun j => ⟨i.render g, i.next g, i.rest g, i.isComplete g, j⟩
  else none

end Item

end ParserForge

import ParserForge.Grammar.TerminalSet

/-!
Context-free grammars.  Terminals, nonterminals and productions are numbered in the order of
their declaration, and a few numbers are reserved: terminal 0 is the end of the input, terminal
1 marks nullability in sets of terminals, nonterminal 0 is the head of production 0, whose body
is the start symbol alone.
-/

namespace ParserForge

abbrev NonterminalId := Nat

abbrev ProductionId := Nat

/-- The end of the input, as a terminal. -/
def TerminalId.eoi : TerminalId := 0

/-- Stands for the empty word in sets of terminals; no production mentions it. -/
def TerminalId.epsilon : TerminalId := 1

/-- The head of the production that the start symbol is reduced by. -/
def NonterminalId.root : NonterminalId := 0

/-- The production whose body is the start symbol alone. -/
def ProductionId.accept : ProductionId := 0

/-- A symbol of a production body. -/
inductive Symbol where
  | terminal (t : TerminalId)
  | nonterminal (n : NonterminalId)
deriving DecidableEq, Hashable, Repr

/-- A rule that rewrites its head to its body. -/
structure Production where
  head : NonterminalId
  body : List Symbol
deriving DecidableEq, Repr

/-- A grammar: the names of its symbols, its productions, and its start symbol. -/
structure Grammar where
  terminals : List String
  nonterminals : List String
  productions : List Production
  start : NonterminalId
deriving DecidableEq, Repr

/-- A production in messages: its number after a hash sign. -/
def ProductionId.label (p : ProductionId) : String := "#" ++ toString p

namespace Grammar

/-- The terminals that an input may hold: all but the two reserved ones. -/
def userTerminals (g : Grammar) : List String := g.terminals.drop 2

/-- The terminal of a name. -/
def terminalNamed? (g : Grammar) (name : String) : Option TerminalId :=
  g.terminals.findIdx? (· == name)

/-- The nonterminal of a name. -/
def nonterminalNamed? (g : Grammar) (name : String) : Option NonterminalId :=
  g.nonterminals.findIdx? (· == name)

/-- The name of a terminal. -/
def terminalName (g : Grammar) (t : TerminalId) : String := g.terminals[t]?.getD ""

/-- The name of a nonterminal. -/
def nonterminalName (g : Grammar) (n : NonterminalId) : String := g.nonterminals[n]?.getD ""

/-- The name of a symbol. -/
def symbolName (g : Grammar) : Symbol → String
  | .terminal t => g.terminalName t
  | .nonterminal n => g.nonterminalName n

/-- The body of a production. -/
def body (g : Grammar) (p : ProductionId) : List Symbol :=
  (g.productions[p]?.map Production.body).getD []

/-- The head of a production. -/
def head (g : Grammar) (p : ProductionId) : NonterminalId :=
  (g.productions[p]?.map Production.head).getD .root

/-- The productions of a nonterminal, in the order of their declaration. -/
def productionsOf (g : Grammar) (n : NonterminalId) : List ProductionId :=
  (g.productions.zipIdx.filter fun p => p.1.head = n).map Prod.snd

/-- The nonterminals that are the head of no production. -/
def unproducedNonterminals (g : Grammar) : List String :=
  ((List.range g.nonterminals.length).filter fun n => (g.productionsOf n).isEmpty).map
    g.nonterminalName

/-- The production `Head -> A B` in words. -/
def renderProduction (g : Grammar) (p : ProductionId) : String :=
  let names := (g.body p).map g.symbolName
  g.nonterminalName (g.head p) ++ " -> " ++
    if names.isEmpty then "ε" else " ".intercalate names

/-- The names of the members of a set, in braces. -/
def renderSet (g : Grammar) (s : TerminalSet) : String :=
  "\x7b" ++ ", ".intercalate (s.members.map g.terminalName) ++ "\x7d"

/-- The text of lines that each end in a line feed. -/
def lines (ls : List String) : String := String.join (ls.map fun l => l ++ "\n")

/-- The symbols and the productions of the grammar, a line each. -/
def render (g : Grammar) : String :=
  let nonterminal (n : NonterminalId) : String :=
    g.nonterminalName n ++ if n = g.start then " (start)" else ""
  let production (p : ProductionId) : String := p.label ++ ": " ++ g.renderProduction p
  lines <|
    "## terminals:" :: g.terminals ++
    "" :: "## nonterminals:" :: (List.range g.nonterminals.length).map nonterminal ++
    "" :: "## productions:" :: (List.range g.productions.length).map production

end Grammar

end ParserForge

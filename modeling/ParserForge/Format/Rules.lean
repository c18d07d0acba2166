import ParserForge.Grammar.Definition
import ParserForge.Lexer.Token

/-!
What the text format of grammars says: a list of rules, and the grammar that they declare.  A
name that stands at the head of some rule is a nonterminal unless it is quoted; every other name
is a terminal.
-/

namespace ParserForge.Format

/-- A symbol as it is written in a rule. -/
structure SymbolRef where
  name : String
  quoted : Bool
deriving DecidableEq, Repr

/-- A rule: its head and its alternative bodies. -/
structure RuleDef where
  head : String
  alternatives : List (List SymbolRef)
deriving DecidableEq, Repr

/-- The distinct heads, in the order in which they show up. -/
def heads (rules : List RuleDef) : List String := (rules.map RuleDef.head).eraseDups

/-- All symbols of the bodies, in order. -/
def symbols (rules : List RuleDef) : List SymbolRef :=
  rules.flatMap fun r => r.alternatives.flatten

/-- Whether the symbol names a nonterminal, given the heads. -/
def isNonterminal (heads : List String) (s : SymbolRef) : Bool :=
  !s.quoted && heads.contains s.name

/-- The distinct names of the terminals, in the order in which they show up. -/
def terminalNames (heads : List String) (rules : List RuleDef) : List String :=
  (((symbols rules).filter fun s => !isNonterminal heads s).map SymbolRef.name).eraseDups

/-- The symbol that is meant, given the heads and the names of the terminals in the order of
their declaration. -/
def resolve (heads terminals : List String) (s : SymbolRef) : Symbol :=
  if isNonterminal heads s then .nonterminal (heads.idxOf s.name + 1)
  else .terminal (terminals.idxOf s.name + 2)

/-- The declarations that rules stand for: the heads, the terminals, and a production for each
alternative. -/
def declarations (rules : List RuleDef) : List Declaration :=
  let hs := heads rules
  let ts := terminalNames hs rules
  hs.map .nonterminal ++ ts.map .terminal ++
    rules.flatMap fun r =>
      r.alternatives.map fun body =>
        .production (hs.idxOf r.head + 1) (body.map (resolve hs ts))

/-- The grammar that rules stand for. -/
def define (rules : List RuleDef) : Except DefinitionError Grammar :=
  Grammar.define (declarations rules)

end ParserForge.Format

import ParserForge.Grammar.Basic
import ParserForge.Text.Blank

/-!
Building a grammar by declarations.  A declaration that is refused changes nothing, and what is
accepted never has to be checked again: names are distinct, bodies mention declared symbols
only, and no production is stated twice.
-/

namespace ParserForge

/-- Why a declaration is refused. -/
inductive DefinitionError where
  | emptyName
  | reservedName (name : String)
  | blankInName (name : String)
  | duplicateSymbol (name : String)
  | badHead
  | longBody
  | badSymbol (symbol : Symbol)
  | duplicateProduction (first : ProductionId) (head : String)
  | unknownStart
  | noNonterminal
deriving DecidableEq, Repr

/-- How a message shows a symbol that it cannot name. -/
def Symbol.render : Symbol → String
  | .terminal t => "T(TerminalID \x7b raw: " ++ toString t ++ " \x7d)"
  | .nonterminal n => "N(NonterminalID \x7b raw: " ++ toString n ++ " \x7d)"

def DefinitionError.message : DefinitionError → String
  | emptyName => "the symbol name must not be empty"
  | reservedName name => "`" ++ name ++ "': names starting with `$' are reserved"
  | blankInName name => "`" ++ name ++ "': the symbol name must not contain whitespace"
  | duplicateSymbol name => "the symbol `" ++ name ++ "' has already been declared"
  | badHead => "unknown or reserved production head"
  | longBody => "the production body is too long"
  | badSymbol symbol =>
      "unknown or reserved symbol " ++ symbol.render ++ " in a production body"
  | duplicateProduction first head =>
      "duplicate production for `" ++ head ++ "' (first declared as " ++ first.label ++ ")"
  | unknownStart => "the start symbol is not a declared nonterminal"
  | noNonterminal => "the grammar has no nonterminal symbols"

/-- A grammar in the making: the names declared so far, the reserved ones included, the
productions declared so far, of which the first has the number one, and the chosen start. -/
structure Definition where
  terminals : List String
  nonterminals : List String
  productions : List Production
  start : Option NonterminalId
deriving DecidableEq, Repr

/-- One declaration. -/
inductive Declaration where
  | terminal (name : String)
  | nonterminal (name : String)
  | production (head : NonterminalId) (body : List Symbol)
  | start (n : NonterminalId)
deriving DecidableEq, Repr

namespace Definition

/-- The longest body that a production may have: a place in a body is a 16-bit number. -/
def maxBody : Nat := 65535

/-- Only the reserved symbols are declared. -/
def empty : Definition := ⟨["$eoi", "$epsilon"], ["$start"], [], none⟩

/-- Whether a name is in use. -/
def declares (d : Definition) (name : String) : Bool :=
  d.terminals.contains name || d.nonterminals.contains name

/-- Whether a name may be declared. -/
def checkName (d : Definition) (name : String) : Except DefinitionError Unit :=
  if name.toList = [] then .error .emptyName
  else if name.toList.head? = some '$' then .error (.reservedName name)
  else if name.toList.any Text.isBlank then .error (.blankInName name)
  else if d.declares name then .error (.duplicateSymbol name)
  else .ok ()

/-- Whether the number is that of a nonterminal that was declared by name. -/
def hasNonterminal (d : Definition) (n : NonterminalId) : Bool :=
  n ≠ .root && decide (n < d.nonterminals.length)

/-- Whether a body may mention the symbol. -/
def hasSymbol (d : Definition) : Symbol → Bool
  | .terminal t => t ≠ .eoi && t ≠ .epsilon && decide (t < d.terminals.length)
  | .nonterminal n => d.hasNonterminal n

/-- Declares a terminal, and gives its number. -/
def addTerminal (d : Definition) (name : String) :
    Except DefinitionError (Definition × TerminalId) :=
  match d.checkName name with
  | .error e => .error e
  | .ok () => .ok ({ d with terminals := d.terminals ++ [name] }, d.terminals.length)

/-- Declares a nonterminal, and gives its number. -/
def addNonterminal (d : Definition) (name : String) :
    Except DefinitionError (Definition × NonterminalId) :=
  match d.checkName name with
  | .error e => .error e
  | .ok () => .ok ({ d with nonterminals := d.nonterminals ++ [name] }, d.nonterminals.length)

/-- Declares a production, and gives its number. -/
def addProduction (d : Definition) (head : NonterminalId) (body : List Symbol) :
    Except DefinitionError (Definition × ProductionId) :=
  if !d.hasNonterminal head then .error .badHead
  else if maxBody < body.length then .error .longBody
  else
    match body.find? fun s => !d.hasSymbol s with
    | some symbol => .error (.badSymbol symbol)
    | none =>
        match d.productions.findIdx? (· == ⟨head, body⟩) with
        | some i => .error (.duplicateProduction (i + 1) (d.nonterminals[head]?.getD ""))
        | none =>
            .ok ({ d with productions := d.productions ++ [⟨head, body⟩] },
              d.productions.length + 1)

/-- Chooses the start symbol, in place of an earlier choice. -/
def setStart (d : Definition) (n : NonterminalId) : Except DefinitionError Definition :=
  if d.hasNonterminal n then .ok { d with start := some n } else .error .unknownStart

/-- Makes a declaration, and gives the number of what it declares. -/
def declare (d : Definition) :
    Declaration → Except DefinitionError (Definition × Option Nat)
  | .terminal name => (d.addTerminal name).map fun r => (r.1, some r.2)
  | .nonterminal name => (d.addNonterminal name).map fun r => (r.1, some r.2)
  | .production head body => (d.addProduction head body).map fun r => (r.1, some r.2)
  | .start n => (d.setStart n).map fun d => (d, none)

/-- Makes declarations one after the other, up to the first that is refused. -/
def declareAll (d : Definition) (ds : List Declaration) : Except DefinitionError Definition :=
  ds.foldlM (fun d x => (d.declare x).map Prod.fst) d

/-- The start symbol: the one chosen last or, without a choice, the nonterminal that was
declared first. -/
def startSymbol (d : Definition) : Option NonterminalId :=
  d.start.or (if 1 < d.nonterminals.length then some 1 else none)

/-- The grammar that has been declared. -/
def finish (d : Definition) : Except DefinitionError Grammar :=
  match d.startSymbol with
  | none => .error .noNonterminal
  | some s =>
      .ok ⟨d.terminals, d.nonterminals, ⟨.root, [.nonterminal s]⟩ :: d.productions, s⟩

end Definition

/-- The grammar of a list of declarations. -/
def Grammar.define (ds : List Declaration) : Except DefinitionError Grammar :=
  match Definition.empty.declareAll ds with
  | .error e => .error e
  | .ok d => d.finish

end ParserForge

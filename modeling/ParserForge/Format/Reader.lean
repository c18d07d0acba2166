import ParserForge.Format.Error
import ParserForge.Lexer.Scan

/-!
Reading the text format of grammars.

    # a comment
    Expr -> Expr '+' Term | Term ;
    Term -> id | %empty ;

The format is itself given by rules for tokens and by a grammar, so a text is read by a lexer
and an LR(1) table like any other input.
-/

namespace ParserForge.Format

/-- The rules of the format. -/
inductive Rule where
  | rulesMany
  | rulesOne
  | rule
  | alternativesMany
  | alternativesOne
  | sequenceMany
  | sequenceOne
  | sequenceEmpty
  | symbolNamed
  | symbolQuoted
deriving DecidableEq, Repr

namespace Rule

/-- The terminals of the format, in the order of their declaration. -/
def ident : TerminalId := 2
def quoted : TerminalId := 3
def arrow : TerminalId := 4
def bar : TerminalId := 5
def semicolon : TerminalId := 6
def empty : TerminalId := 7

/-- The nonterminals of the format, in the order of their declaration. -/
def rules : NonterminalId := 1
def single : NonterminalId := 2
def alternatives : NonterminalId := 3
def sequence : NonterminalId := 4
def symbol : NonterminalId := 5

/-- The rules in the order of the productions. -/
def all : List Rule :=
  [rulesMany, rulesOne, rule, alternativesMany, alternativesOne, sequenceMany, sequenceOne,
    sequenceEmpty, symbolNamed, symbolQuoted]

/-- The nonterminal that the rule defines. -/
def head : Rule → NonterminalId
  | rulesMany | rulesOne => rules
  | rule => single
  | alternativesMany | alternativesOne => alternatives
  | sequenceMany | sequenceOne | sequenceEmpty => sequence
  | symbolNamed | symbolQuoted => symbol

/-- The symbols that the rule consists of. -/
def body : Rule → List Symbol
  | rulesMany => [.nonterminal rules, .nonterminal single]
  | rulesOne => [.nonterminal single]
  | rule =>
      [.terminal ident, .terminal arrow, .nonterminal alternatives, .terminal semicolon]
  | alternativesMany => [.nonterminal alternatives, .terminal bar, .nonterminal sequence]
  | alternativesOne => [.nonterminal sequence]
  | sequenceMany => [.nonterminal sequence, .nonterminal symbol]
  | sequenceOne => [.nonterminal symbol]
  | sequenceEmpty => [.terminal empty]
  | symbolNamed => [.terminal ident]
  | symbolQuoted => [.terminal quoted]

/-- The rule of a production. -/
def ofProduction (p : ProductionId) : Option Rule :=
  match p with
  | 0 => none
  | p + 1 => all[p]?

end Rule

/-- The grammar of the format. -/
def grammar : Except DefinitionError Grammar :=
  Grammar.define <|
    ["ident", "quoted", "->", "|", ";", "%empty"].map .terminal ++
    ["Rules", "Rule", "Alternatives", "Sequence", "Symbol"].map .nonterminal ++
    Rule.all.map fun r => .production r.head r.body

/-- The tokens of the format.  Blanks and comments are passed over. -/
def tokenRules : Except LexerError (List (LexerRule TerminalId)) :=
  LexerRule.ofPatterns [
    ("[ \t\r\n]+".toList, none),
    ("#[ -~\t]*".toList, none),
    ("%empty".toList, some Rule.empty),
    ("->".toList, some Rule.arrow),
    ("\\|".toList, some Rule.bar),
    (";".toList, some Rule.semicolon),
    ("[A-Za-z_][A-Za-z0-9_']*".toList, some Rule.ident),
    ("'[!-&(-~]+'".toList, some Rule.quoted)]

/-- All that is needed to read a text. -/
structure Reader where
  grammar : Grammar
  lexer : Lexer TerminalId
  table : ParseTable

/-- Sets the format up. -/
def setUp : Except SetupError Reader :=
  match grammar with
  | .error e => .error (.grammar e)
  | .ok g =>
      match tokenRules with
      | .error e => .error (.lexer e)
      | .ok rules =>
          match ParseTable.generate g .lr1 with
          | .error e => .error (.table e)
          | .ok table => .ok ⟨g, .ofRules rules, table⟩

/-- The reader of the format. -/
def reader : Except SetupError Reader := setUp

/-- The value of a part of the text. -/
inductive Node where
  | token (t : Token TerminalId)
  | symbol (s : SymbolRef)
  | sequence (ss : List SymbolRef)
  | alternatives (bodies : List (List SymbolRef))
  | rule (r : RuleDef)
  | rules (rs : List RuleDef)
  | malformed
deriving DecidableEq, Repr

/-- The symbol that a lexeme spells: a name, or a name between quotes. -/
def symbolOf (lexeme : List Char) : SymbolRef :=
  if lexeme.head? = some '\'' then ⟨String.ofList (lexeme.drop 1).dropLast, true⟩
  else ⟨String.ofList lexeme, false⟩

/-- The value of a part, from the values of what it consists of. -/
def reduce : Rule → List Node → Node
  | .rulesMany, [.rules rs, .rule r] => .rules (rs ++ [r])
  | .rulesOne, [.rule r] => .rules [r]
  | .rule, [.token head, _, .alternatives bodies, _] =>
      .rule ⟨String.ofList head.lexeme, bodies⟩
  | .alternativesMany, [.alternatives bodies, _, .sequence ss] => .alternatives (bodies ++ [ss])
  | .alternativesOne, [.sequence ss] => .alternatives [ss]
  | .sequenceMany, [.sequence ss, .symbol s] => .sequence (ss ++ [s])
  | .sequenceOne, [.symbol s] => .sequence [s]
  | .sequenceEmpty, _ => .sequence []
  | .symbolNamed, [.token t] => .symbol (symbolOf t.lexeme)
  | .symbolQuoted, [.token t] => .symbol (symbolOf t.lexeme)
  | _, _ => .malformed

/-- The value of a part that a production made. -/
def reduceBy (p : ProductionId) (args : List Node) : Node :=
  match Rule.ofProduction p with
  | some r => reduce r args
  | none => .malformed

namespace Reader

/-- The refusal of the token where a parse stopped. -/
def refusal (r : Reader) (t : Token TerminalId) (cause : ParseError StateId) : Refusal :=
  let found :=
    match t.kind with
    | .ending => .ending
    | _ => .token t.lexeme
  match cause with
  | .unexpected _ state => .unexpected found ((r.table.expected state).map r.grammar.terminalName)
  | cause => .stopped found cause

/-- The rules that a list of tokens spells; the last token is the end of the text. -/
def readTokens (r : Reader) (tokens : List (Token TerminalId)) : Except Error (List RuleDef) :=
  let input := tokens.filter fun t => t.terminal.isSome
  match r.table.parse? (input.filterMap Token.terminal) with
  | none => .error .endless
  | some (.error cause) =>
      match input[cause.index]?.or tokens.getLast? with
      | none => .error .malformed
      | some t => .error (.refused t.place (r.refusal t cause))
  | some (.ok derivation) =>
      match derivation.replay input Node.token reduceBy with
      | .error e => .error (.replay e)
      | .ok (.rules rs) => .ok rs
      | .ok _ => .error .malformed

/-- The rules that a text spells.  The first character that no token begins with is refused
before anything else. -/
def read (r : Reader) (text : List Char) : Except Error (List RuleDef) :=
  let tokens := r.lexer.scan text
  match tokens.find? fun t => !t.isValid with
  | some t => .error (.refused t.place (.character t.lexeme))
  | none => r.readTokens tokens

end Reader

/-- The grammar that a text spells. -/
def parse (text : List Char) : Except Error Grammar :=
  match reader with
  | .error e => .error (.setup e)
  | .ok r =>
      match r.read text with
      | .error e => .error e
      | .ok rules => (define rules).mapError .definition

end ParserForge.Format

import ParserForge.Command.Options
import ParserForge.Format.Reader

/-!
The work of the command line: it reads a grammar, prints what was asked for, and parses an
input.  What it prints before a failure stays printed.
-/

namespace ParserForge.Command

/-- The content of the grammar file, or why there is none. -/
inductive Source where
  | bytes (content : ByteArray)
  | unreadable (reason : String)

/-- There is no such file. -/
def Source.missing : Source := .unreadable "No such file or directory (os error 2)"

/-- Why the command fails. -/
inductive Failure where
  | unreadable (reason : String)
  | grammar (e : Format.Error)
  | table (message : String)
  | unknownTerminal (name : String)
  | refused (e : ParseError StateId) (expected : List String)
  /-- The item sets, or the parse, never come to an end. -/
  | endless
deriving DecidableEq, Repr

/-- The failure in words, each line followed by what caused it. -/
def Failure.causes : Failure → List String
  | unreadable reason => ["failed to read the grammar", "IO error: " ++ reason, reason]
  | grammar e => ["failed to read the grammar", e.message]
  | table message => [message]
  | unknownTerminal name => ["unknown terminal `" ++ name ++ "'"]
  | refused e expected =>
      [e.message ++ " (expected one of: " ++ " ".intercalate expected ++ ")"]
  | endless => ["the work does not come to an end"]

/-- A text of several lines with a margin of its own for the first of them. -/
def indent (first others : String) (text : String) : String :=
  ("\n" ++ others).intercalate
    (((Text.pieces (· == '\n') text.toList).map String.ofList).modifyHead (first ++ ·))

/-- The causes of a failure: a single one is indented, several are numbered. -/
def renderCauses : List String → List String
  | [cause] => [indent "    " "    " cause]
  | causes => causes.mapIdx fun i cause => indent ("    " ++ toString i ++ ": ") "       " cause

/-- The failure as it is shown to the user. -/
def Failure.message (path : String) (f : Failure) : String :=
  "Error: errored during processing " ++ path ++ "\n\nCaused by:\n" ++
    Grammar.lines (renderCauses f.causes)

/-- What a run of the command comes to. -/
structure Report where
  exitCode : Nat
  stdout : String
  stderr : String
deriving DecidableEq, Repr

/-- Work that prints and may fail. -/
abbrev Job := ExceptT Failure (StateM String)

/-- Prints a text and ends the line. -/
def printLine (text : String) : Job Unit := modify fun printed => printed ++ text ++ "\n"

/-- The grammar of a file. -/
def readGrammar : Source → Except Failure Grammar
  | .unreadable reason => .error (.unreadable reason)
  | .bytes content =>
      match String.fromUTF8? content with
      | none => .error (.unreadable "stream did not contain valid UTF-8")
      | some text => (Format.parse text.toList).mapError .grammar

/-- The terminal that the user means by a name. -/
def userTerminal (g : Grammar) (name : String) : Except Failure TerminalId :=
  match g.terminalNamed? name with
  | some t =>
      if t = .eoi ∨ t = .epsilon then .error (.unknownTerminal name) else .ok t
  | none => .error (.unknownTerminal name)

/-- The terminals of an input, which blanks separate. -/
def userInput (g : Grammar) (input : String) : Except Failure (List TerminalId) :=
  (Text.words Text.isBlank input.toList).mapM fun w => userTerminal g (String.ofList w)

/-- Parses terminals. -/
def parseInput (g : Grammar) (table : ParseTable) (input : List TerminalId) :
    Except Failure (Derivation ProductionId) :=
  match table.parse? input with
  | none => .error .endless
  | some (.ok derivation) => .ok derivation
  | some (.error e) =>
      let expected :=
        match e with
        | .unexpected _ state => (table.expected state).map g.terminalName
        | _ => []
      .error (.refused e expected)

/-- The whole job. -/
def job (options : Options) (source : Source) : Job Unit := do
  let g ← readGrammar source
  let dump (d : Dump) (texts : List String) : Job Unit :=
    if options.dumps.contains d then texts.forM printLine else pure ()
  unless g.unproducedNonterminals.isEmpty do
    printLine ("[warning] The following nonterminals have no associated production rule: " ++
      Text.quoteList g.unproducedNonterminals)
  dump .grammar [g.render]
  let first := FirstSets.ofGrammar g
  let follow := FollowSets.ofGrammar g first
  dump .firstFollow [first.render g, follow.render g]
  match options.method.collection? g first with
  | none => throw .endless
  | some collection =>
      dump .automaton [collection.render g]
      let table ← ((ParseTable.ofCollection g collection
        (if options.method = .slr1 then some follow else none)).mapError fun c =>
          Failure.table (c.message g) : Except Failure ParseTable)
      dump .table [table.render g]
      match options.input with
      | none => pure ()
      | some input =>
          let terminals ← userInput g input
          let derivation ← parseInput g table terminals
          printLine "## reductions"
          derivation.reductions.forM fun p => printLine ("- " ++ g.renderProduction p)
          printLine "## steps"
          printLine (" ".intercalate (derivation.steps.map Step.render))

/-- Runs the command on the content of its grammar file. -/
def run (options : Options) (source : Source) : Report :=
  match (job options source).run "" with
  | (.ok (), printed) => ⟨0, printed, ""⟩
  | (.error f, printed) => ⟨1, printed, f.message options.path⟩

end ParserForge.Command

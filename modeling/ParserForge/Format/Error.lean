import ParserForge.Format.Rules
import ParserForge.Lexer.Rules
import ParserForge.Table.Generate

/-!
What can be wrong with the text of a grammar.
-/

namespace ParserForge.Format

/-- What stands where the format does not allow it. -/
inductive Found where
  | token (lexeme : List Char)
  | ending
deriving DecidableEq, Repr

def Found.render : Found → String
  | token lexeme => "`" ++ String.ofList lexeme ++ "'"
  | ending => "end of input"

/-- Why the text is refused at some place. -/
inductive Refusal where
  /-- No token of the format begins with the character. -/
  | character (lexeme : List Char)
  /-- The format does not go on with this token; the names are those of the tokens that it
  could go on with. -/
  | unexpected (found : Found) (expected : List String)
  /-- The parse stopped for another reason. -/
  | stopped (found : Found) (cause : ParseError StateId)
deriving DecidableEq, Repr

def Refusal.message : Refusal → String
  | character lexeme => "unexpected character " ++ Text.quote lexeme
  | unexpected found expected =>
      "unexpected " ++ found.render ++ ", expected one of: " ++ " ".intercalate expected
  | stopped found cause => "unexpected " ++ found.render ++ " (" ++ cause.message ++ ")"

/-- Why the format itself could not be set up. -/
inductive SetupError where
  | lexer (e : LexerError)
  | grammar (e : DefinitionError)
  | table (e : TableError)
deriving DecidableEq, Repr

/-- Why a text gives no grammar. -/
inductive Error where
  | refused (place : Position) (refusal : Refusal)
  | definition (e : DefinitionError)
  | setup (e : SetupError)
  /-- The parse of the text does not come to an end. -/
  | endless
  | replay (e : ReplayError)
  /-- The replay did not give a list of rules. -/
  | malformed
deriving DecidableEq, Repr

def Error.message : Error → String
  | refused place refusal =>
      "syntax error at " ++ toString place.line ++ ":" ++ toString place.column ++ ": " ++
        refusal.message
  | definition e => e.message
  | setup (.lexer e) => "failed to build the grammar reader: " ++ e.message
  | setup (.grammar e) => "failed to build the grammar reader: " ++ e.message
  | setup (.table _) => "failed to build the grammar reader: the format has no table"
  | endless => "failed to read the grammar source: the parse does not end"
  | replay e => "failed to evaluate the grammar source: " ++ e.message
  | malformed => "failed to evaluate the grammar source"

end ParserForge.Format

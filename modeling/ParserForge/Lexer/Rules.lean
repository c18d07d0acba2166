import ParserForge.Regex.Parse

/-!
The rules of a lexer, in the order of their declaration.
-/

namespace ParserForge

/-- A pattern with the kind of its tokens.  A rule without a kind matches text to be passed
over. -/
structure LexerRule (κ : Type) where
  pattern : List Char
  regex : Regex
  kind : Option κ

/-- Why a rule is refused.  The index is the one that it would have had. -/
inductive LexerError where
  | invalidPattern (index : Nat) (pattern : List Char) (cause : Regex.ParseError)
  | emptyMatch (index : Nat) (pattern : List Char)
deriving DecidableEq, Repr

def LexerError.message : LexerError → String
  | invalidPattern index pattern _ =>
      "invalid pattern #" ++ toString index ++ " `" ++ String.ofList pattern ++ "`"
  | emptyMatch index pattern =>
      "pattern #" ++ toString index ++ " `" ++ String.ofList pattern ++
        "` matches the empty string"

namespace LexerRule

variable {κ : Type}

/-- Adds a rule behind the others.  A pattern that matches the empty word is refused, because
such a match would never move the lexer forward. -/
def append (rules : List (LexerRule κ)) (pattern : List Char) (kind : Option κ) :
    Except LexerError (List (LexerRule κ)) :=
  match Regex.parse pattern with
  | .error cause => .error (.invalidPattern rules.length pattern cause)
  | .ok regex =>
      if regex.isNullable then .error (.emptyMatch rules.length pattern)
      else .ok (rules ++ [⟨pattern, regex, kind⟩])

/-- The rules of a list of patterns and kinds, up to the first that is refused. -/
def ofPatterns (patterns : List (List Char × Option κ)) :
    Except LexerError (List (LexerRule κ)) :=
  patterns.foldlM (fun rules p => append rules p.1 p.2) []

end LexerRule

end ParserForge

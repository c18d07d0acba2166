import ParserForge.Text.Quoted

/-!
Tokens and their places in the input.
-/

namespace ParserForge

/-- A place between two characters: the number of bytes before it, its line, and its column.
Lines and columns count from one, columns in characters; only a line feed ends a line. -/
structure Position where
  offset : Nat
  line : Nat
  column : Nat
deriving DecidableEq, Repr

namespace Position

/-- The place before the first character. -/
def start : Position := ⟨0, 1, 1⟩

/-- The place behind a character. -/
def advance (p : Position) (c : Char) : Position :=
  if c = '\n' then ⟨p.offset + c.utf8Size, p.line + 1, 1⟩
  else ⟨p.offset + c.utf8Size, p.line, p.column + 1⟩

/-- The place behind a text. -/
def advanceAll (p : Position) (text : List Char) : Position := text.foldl advance p

end Position

/-- What a token is: of a kind that some rule names, a character that no rule matches, or the
end of the input. -/
inductive TokenKind (κ : Type) where
  | terminal (kind : κ)
  | invalid
  | ending
deriving DecidableEq, Repr

/-- A token, the text it covers, and the place where that text starts. -/
structure Token (κ : Type) where
  kind : TokenKind κ
  lexeme : List Char
  place : Position
deriving DecidableEq, Repr

namespace Token

variable {κ : Type}

/-- The number of bytes before the end of the token. -/
def stop (t : Token κ) : Nat := (t.place.advanceAll t.lexeme).offset

/-- Whether the token is no invalid character. -/
def isValid (t : Token κ) : Bool :=
  match t.kind with
  | .invalid => false
  | _ => true

/-- The kind, if a rule gave one. -/
def terminal (t : Token κ) : Option κ :=
  match t.kind with
  | .terminal kind => some kind
  | _ => none

/-- The token and its place in words. -/
def render (showKind : κ → String) (t : Token κ) : String :=
  let place := " at " ++ toString t.place.line ++ ":" ++ toString t.place.column
  match t.kind with
  | .terminal kind => showKind kind ++ " " ++ Text.quote t.lexeme ++ place
  | .invalid => "<invalid> " ++ Text.quote t.lexeme ++ place
  | .ending => "<end>" ++ place

end Token

end ParserForge

import ParserForge.Text.Printable

/-!
Text between double quotes, as messages show it.  Quotes, backslashes and everything that could
not be seen are escaped, so the shown text can be told apart from what surrounds it.
-/

namespace ParserForge.Text

/-- One character between quotes. -/
def escape (c : Char) : List Char :=
  match c with
  | '"' => ['\\', '"']
  | '\\' => ['\\', '\\']
  | '\n' => ['\\', 'n']
  | '\r' => ['\\', 'r']
  | '\t' => ['\\', 't']
  | '\x00' => ['\\', '0']
  | c =>
      if isPrintable c then [c]
      else "\\u\x7b".toList ++ Nat.toDigits 16 c.toNat ++ ['}']

/-- The text between quotes. -/
def quote (text : List Char) : String :=
  String.ofList ('"' :: text.flatMap escape ++ ['"'])

/-- Several texts, each between quotes, in brackets. -/
def quoteList (texts : List String) : String :=
  "[" ++ ", ".intercalate (texts.map fun t => quote t.toList) ++ "]"

end ParserForge.Text

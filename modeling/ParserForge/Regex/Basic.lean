/-!
Regular expressions over characters: their trees, which of them match the empty word, and the
pattern that spells a tree.
-/

namespace ParserForge

/-- The characters from `lo` to `hi`, both included. -/
structure CharRange where
  lo : Char
  hi : Char
deriving DecidableEq, Repr

namespace CharRange

/-- Whether the character lies in the range. -/
def contains (r : CharRange) (c : Char) : Bool := r.lo ≤ c && c ≤ r.hi

/-- The characters of the range in ascending order.  Numbers that are no character, the
surrogates, are passed over. -/
def chars (r : CharRange) : List Char :=
  (List.range' r.lo.toNat (r.hi.toNat + 1 - r.lo.toNat)).filterMap fun n =>
    if h : n.isValidChar then some (Char.ofNatAux n h) else none

end CharRange

/-- The tree of a regular expression. -/
inductive Regex where
  /-- Matches the empty word only. -/
  | empty
  | literal (c : Char)
  /-- Matches any one character of the ranges. -/
  | oneOf (ranges : List CharRange)
  | concat (a b : Regex)
  | alt (a b : Regex)
  | star (a : Regex)
  | plus (a : Regex)
  | optional (a : Regex)
deriving DecidableEq, Repr

namespace Regex

/-- Whether the expression matches the empty word. -/
def isNullable : Regex → Bool
  | empty | star _ | optional _ => true
  | literal _ | oneOf _ => false
  | concat a b => a.isNullable && b.isNullable
  | alt a b => a.isNullable || b.isNullable
  | plus a => a.isNullable

/-- The characters that a printed pattern never shows unescaped. -/
def reserved : List Char := ['|', '*', '+', '?', '(', ')', '[', ']', '\\', '-']

/-- One character as a pattern spells it: a reserved one after a backslash. -/
def printChar (c : Char) : List Char := if c ∈ reserved then ['\\', c] else [c]

/-- A range as it stands inside brackets; a range of one character is that character. -/
def printRange (r : CharRange) : List Char :=
  if r.lo = r.hi then printChar r.lo else printChar r.lo ++ '-' :: printChar r.hi

/-- The pattern that spells the tree.  Every alternative and every repetition is put in
parentheses, so a concatenation needs none. -/
def print : Regex → List Char
  | empty => []
  | literal c => printChar c
  | oneOf ranges => '[' :: ranges.flatMap printRange ++ [']']
  | concat a b => a.print ++ b.print
  | alt a b => '(' :: a.print ++ '|' :: b.print ++ [')']
  | star a => '(' :: a.print ++ [')', '*']
  | plus a => '(' :: a.print ++ [')', '+']
  | optional a => '(' :: a.print ++ [')', '?']

end Regex

end ParserForge

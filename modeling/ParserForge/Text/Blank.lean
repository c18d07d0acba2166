/-!
Blank characters, and the words between them.
-/

namespace ParserForge.Text

/-- Whether the character has the property White_Space. -/
def isBlank (c : Char) : Bool :=
  let n := c.toNat
  (9 ≤ n && n ≤ 13) || n == 0x20 || n == 0x85 || n == 0xa0 || n == 0x1680 ||
    (0x2000 ≤ n && n ≤ 0x200a) || n == 0x2028 || n == 0x2029 || n == 0x202f || n == 0x205f ||
    n == 0x3000

/-- Cuts a text at every character that separates; there is one piece more than cuts. -/
def pieces (separates : Char → Bool) : List Char → List (List Char)
  | [] => [[]]
  | c :: rest =>
      if separates c then [] :: pieces separates rest
      else
        match pieces separates rest with
        | [] => [[c]]
        | piece :: others => (c :: piece) :: others

/-- The pieces that are not empty. -/
def words (separates : Char → Bool) (text : List Char) : List (List Char) :=
  (pieces separates text).filter fun w => !w.isEmpty

end ParserForge.Text

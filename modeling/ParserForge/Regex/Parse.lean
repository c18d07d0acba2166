import ParserForge.Regex.Basic

/-!
Reading a pattern.  Escapes are resolved first, which leaves a list of glyphs; brackets are
gathered next, which leaves a list of signs; a stack of open groups then turns the signs into a
tree.  Each of the three passes goes from left to right and stops at its first fault, so the
fault that is reported is the leftmost one.
-/

namespace ParserForge.Regex

/-- What can be wrong with a pattern. -/
inductive Fault where
  | unclosedGroup
  | unmatchedClosing
  | danglingEscape
  | unterminatedClass
  | emptyClass
  | reversedRange (lo hi : Char)
  | nothingToRepeat (operator : Char)
deriving DecidableEq, Repr

/-- The fault in words. -/
def Fault.message : Fault → String
  | unclosedGroup => "unclosed group"
  | unmatchedClosing => "unmatched `)`"
  | danglingEscape => "escape at the end of the pattern"
  | unterminatedClass => "unterminated character class"
  | emptyClass => "empty character class"
  | reversedRange lo hi =>
      "character range `" ++ lo.toString ++ "-" ++ hi.toString ++ "` is out of order"
  | nothingToRepeat operator => "`" ++ operator.toString ++ "` has nothing to repeat"

/-- A fault and the number of characters before the place where it shows. -/
structure ParseError where
  position : Nat
  fault : Fault
deriving DecidableEq, Repr

def ParseError.message (e : ParseError) : String :=
  e.fault.message ++ " (at position " ++ toString e.position ++ ")"

/-- A character of a pattern after its escapes have been resolved.  `dangling` stands for a
backslash that ends the pattern. -/
inductive Glyph where
  | plain (c : Char)
  | escaped (c : Char)
  | dangling
deriving DecidableEq, Repr

/-- A value together with the position of the character where it was found. -/
structure Located (α : Type) where
  position : Nat
  value : α
deriving DecidableEq, Repr

/-- Resolves the escapes.  An escaped character stands at its own position, the dangling
backslash at that of the backslash. -/
def glyphs (position : Nat) : List Char → List (Located Glyph)
  | [] => []
  | ['\\'] => [⟨position, .dangling⟩]
  | '\\' :: c :: rest => ⟨position + 1, .escaped c⟩ :: glyphs (position + 2) rest
  | c :: rest => ⟨position, .plain c⟩ :: glyphs (position + 1) rest

/-- The signs that repeat what stands before them. -/
inductive Repetition where
  | star
  | plus
  | optional
deriving DecidableEq, Repr

namespace Repetition

def toChar : Repetition → Char
  | star => '*'
  | plus => '+'
  | optional => '?'

def apply : Repetition → Regex → Regex
  | star => .star
  | plus => .plus
  | optional => .optional

end Repetition

/-- The signs of a pattern, brackets already gathered.  A fault ends the list. -/
inductive Sign where
  | bar
  | opening
  | closing
  | repetition (operator : Repetition)
  | atom (r : Regex)
  | fault (f : Fault)
deriving DecidableEq, Repr

/-- The sign of a glyph outside of brackets. -/
def Glyph.sign : Glyph → Sign
  | .plain '|' => .bar
  | .plain '(' => .opening
  | .plain ')' => .closing
  | .plain '*' => .repetition .star
  | .plain '+' => .repetition .plus
  | .plain '?' => .repetition .optional
  | .plain c | .escaped c => .atom (.literal c)
  | .dangling => .fault .danglingEscape

/-- The sign of a bracketed list of ranges, the last one first. -/
def classSign : List CharRange → Sign
  | [] => .fault .emptyClass
  | ranges => .atom (.oneOf ranges.reverse)

mutual

/-- Gathers the brackets of a list of glyphs. -/
def signs : List (Located Glyph) → List (Located Sign)
  | [] => []
  | g :: rest =>
      if g.value = .plain '[' then bracketSigns g.position [] rest
      else ⟨g.position, g.value.sign⟩ :: signs rest

/-- Goes on inside brackets that were opened at `start`, after the given ranges, the last one
first.  A minus sign makes a range, unless a closing bracket or nothing follows it. -/
def bracketSigns (start : Nat) (ranges : List CharRange) :
    List (Located Glyph) → List (Located Sign)
  | [] => [⟨start, .fault .unterminatedClass⟩]
  | low :: rest =>
      match low.value with
      | .dangling => [⟨low.position, .fault .danglingEscape⟩]
      | .plain ']' => ⟨start, classSign ranges⟩ :: signs rest
      | .plain lo | .escaped lo =>
          match rest with
          | minus :: high :: after =>
              if minus.value = .plain '-' ∧ high.value ≠ .plain ']' then
                match high.value with
                | .dangling => [⟨high.position, .fault .danglingEscape⟩]
                | .plain hi | .escaped hi =>
                    if hi < lo then [⟨low.position, .fault (.reversedRange lo hi)⟩]
                    else bracketSigns start (⟨lo, hi⟩ :: ranges) after
              else bracketSigns start (⟨lo, lo⟩ :: ranges) (minus :: high :: after)
          | rest => bracketSigns start (⟨lo, lo⟩ :: ranges) rest

end

/-- Joins two optional trees; one that is missing is left out. -/
def joinWith (join : Regex → Regex → Regex) : Option Regex → Option Regex → Option Regex
  | some a, some b => some (join a b)
  | some a, none => some a
  | none, b => b

/-- What has been read of one group: the alternatives that a bar has ended, the items of the
running alternative but for the last, and that last item, which a repetition would take. -/
structure Group where
  alternatives : Option Regex
  items : Option Regex
  last : Option Regex
deriving DecidableEq, Repr

namespace Group

/-- A group of which nothing has been read. -/
def start : Group := ⟨none, none, none⟩

/-- A further item follows. -/
def push (g : Group) (r : Regex) : Group :=
  { g with items := joinWith .concat g.items g.last, last := some r }

/-- The tree of everything read so far.  An alternative without items is the empty pattern. -/
def close (g : Group) : Regex :=
  let running := (joinWith .concat g.items g.last).getD .empty
  match g.alternatives with
  | none => running
  | some r => .alt r running

/-- A bar follows. -/
def bar (g : Group) : Group := ⟨some g.close, none, none⟩

end Group

/-- Reads signs inside the group `current`; the groups around it, the innermost first, are
listed with the positions where the group inside each of them was opened. -/
def build (current : Group) :
    List (Located Group) → List (Located Sign) → Except ParseError Regex
  | [], [] => .ok current.close
  | outer :: _, [] => .error ⟨outer.position, .unclosedGroup⟩
  | outer, sign :: rest =>
      match sign.value with
      | .atom r => build (current.push r) outer rest
      | .bar => build current.bar outer rest
      | .opening => build .start (⟨sign.position, current⟩ :: outer) rest
      | .closing =>
          match outer with
          | [] => .error ⟨sign.position, .unmatchedClosing⟩
          | around :: outer => build (around.value.push current.close) outer rest
      | .repetition operator =>
          match current.last with
          | none => .error ⟨sign.position, .nothingToRepeat operator.toChar⟩
          | some r => build { current with last := some (operator.apply r) } outer rest
      | .fault f => .error ⟨sign.position, f⟩

/-- Reads a pattern. -/
def parse (pattern : List Char) : Except ParseError Regex :=
  build .start [] (signs (glyphs 0 pattern))

end ParserForge.Regex

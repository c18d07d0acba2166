import Mathlib
import ParserForge.Regex.Basic

/-!
The grammar of patterns.  A pattern is an alternation of concatenations of repeated atoms, and the
grammar says which trees it spells, apart from the passes that read it.  Inside brackets, ranges are
taken from left to right.
-/

namespace ParserForge

namespace Regex

/-- The text means one character inside brackets: the character itself, unless that would end the
brackets or escape the next one, or any character behind a backslash. -/
inductive MemberChar : List Char → Char → Prop
  | plain {c : Char} (hclosing : c ≠ ']') (hescape : c ≠ '\\') : MemberChar [c] c
  | escaped (c : Char) : MemberChar ['\\', c] c

/-- The text begins with a minus sign and goes on inside the brackets, so the character before it
begins a range. -/
def RangeAhead (text : List Char) : Prop := ∃ c rest, text = '-' :: c :: rest ∧ c ≠ ']'

/-- The text from behind an opening bracket up to the closing one lists the ranges, where a single
character is a range of its own.  A character is single unless it begins a range, and the ends of a
range stand in order. -/
inductive Members : List Char → List CharRange → Prop
  | close : Members [']'] []
  | single {u v : List Char} {c : Char} {ranges : List CharRange} (hc : MemberChar u c)
      (hrange : ¬ RangeAhead v) (hv : Members v ranges) : Members (u ++ v) (⟨c, c⟩ :: ranges)
  | range {u v w : List Char} {lo hi : Char} {ranges : List CharRange} (hlo : MemberChar u lo)
      (hhi : MemberChar v hi) (hle : lo ≤ hi) (hw : Members w ranges) :
      Members (u ++ '-' :: (v ++ w)) (⟨lo, hi⟩ :: ranges)

/-- The parts of a pattern.  The items of a concatenation are at least one. -/
inductive Part where
  | atom
  | repetition
  | items
  | concatenation
  | alternation
deriving DecidableEq, Repr

/-- The characters that do not stand for themselves outside of brackets. -/
def operators : List Char := ['|', '*', '+', '?', '(', ')', '[', '\\']

/-- The text spells the tree, as a part of a pattern.  Concatenations and alternatives are nested to
the left, and a concatenation without items is the empty pattern. -/
inductive Spells : Part → List Char → Regex → Prop
  | plain {c : Char} (h : c ∉ operators) : Spells .atom [c] (literal c)
  | escaped (c : Char) : Spells .atom ['\\', c] (literal c)
  | brackets {u : List Char} {ranges : List CharRange} (h : Members u ranges)
      (hne : ranges ≠ []) : Spells .atom ('[' :: u) (oneOf ranges)
  | group {u : List Char} {r : Regex} (h : Spells .alternation u r) :
      Spells .atom ('(' :: (u ++ [')'])) r
  | once {u : List Char} {r : Regex} (h : Spells .atom u r) : Spells .repetition u r
  | star {u : List Char} {r : Regex} (h : Spells .repetition u r) :
      Spells .repetition (u ++ ['*']) (star r)
  | plus {u : List Char} {r : Regex} (h : Spells .repetition u r) :
      Spells .repetition (u ++ ['+']) (plus r)
  | optional {u : List Char} {r : Regex} (h : Spells .repetition u r) :
      Spells .repetition (u ++ ['?']) (optional r)
  | item {u : List Char} {r : Regex} (h : Spells .repetition u r) : Spells .items u r
  | concat {u v : List Char} {a b : Regex} (ha : Spells .items u a)
      (hb : Spells .repetition v b) : Spells .items (u ++ v) (concat a b)
  | nothing : Spells .concatenation [] empty
  | something {u : List Char} {r : Regex} (h : Spells .items u r) : Spells .concatenation u r
  | alternative {u : List Char} {r : Regex} (h : Spells .concatenation u r) :
      Spells .alternation u r
  | alt {u v : List Char} {a b : Regex} (ha : Spells .alternation u a)
      (hb : Spells .concatenation v b) : Spells .alternation (u ++ '|' :: v) (alt a b)

namespace MemberChar

variable {u : List Char} {c : Char}

theorem ne_nil (h : MemberChar u c) : u ≠ [] := by
  cases h <;> exact List.cons_ne_nil _ _

end MemberChar

/-- A text inside brackets is over, ends with a backslash, ends the brackets, or begins with what
means one character. -/
theorem memberChar_cases (text : List Char) : text = [] ∨ text = ['\\'] ∨
    (∃ rest, text = ']' :: rest) ∨ ∃ u c rest, text = u ++ rest ∧ MemberChar u c := by
  rcases text with _ | ⟨c, rest⟩
  · exact Or.inl rfl
  · by_cases hescape : c = '\\'
    · subst hescape
      rcases rest with _ | ⟨d, rest⟩
      · exact Or.inr (Or.inl rfl)
      · exact Or.inr (Or.inr (Or.inr ⟨['\\', d], d, rest, rfl, .escaped d⟩))
    · by_cases hclosing : c = ']'
      · exact Or.inr (Or.inr (Or.inl ⟨rest, by rw [hclosing]⟩))
      · exact Or.inr (Or.inr (Or.inr ⟨[c], c, rest, rfl, .plain hclosing hescape⟩))

theorem RangeAhead.append {text : List Char} (h : RangeAhead text) (rest : List Char) :
    RangeAhead (text ++ rest) := by
  obtain ⟨c, tail, rfl, hc⟩ := h
  exact ⟨c, tail ++ rest, rfl, hc⟩

namespace Members

variable {u : List Char} {ranges : List CharRange}

theorem ne_nil (h : Members u ranges) : u ≠ [] := by
  cases h with
  | close => exact List.cons_ne_nil _ _
  | single hc => exact List.append_ne_nil_of_left_ne_nil hc.ne_nil _
  | range hlo => exact List.append_ne_nil_of_left_ne_nil hlo.ne_nil _

/-- Nothing but the closing bracket is as short as that. -/
theorem eq_close_or_two_le (h : Members u ranges) : u = [']'] ∨ 2 ≤ u.length := by
  cases h with
  | close => exact Or.inl rfl
  | single hc _ hv =>
      have hu := List.length_pos_of_ne_nil hc.ne_nil
      have hv := List.length_pos_of_ne_nil hv.ne_nil
      rw [List.length_append]
      omega
  | range hlo hhi =>
      have hu := List.length_pos_of_ne_nil hlo.ne_nil
      rw [List.length_append, List.length_cons]
      omega

/-- What stands behind the brackets does not make a range of what stands in them. -/
theorem rangeAhead_of_append (h : Members u ranges) {rest : List Char}
    (hahead : RangeAhead (u ++ rest)) : RangeAhead u := by
  obtain ⟨c, tail, heq, hc⟩ := hahead
  rcases h.eq_close_or_two_le with rfl | hlength
  · cases heq
  · rcases u with _ | ⟨a, _ | ⟨b, u⟩⟩
    · simp at hlength
    · simp at hlength
    · cases heq
      exact ⟨_, u, rfl, hc⟩

end Members

end Regex

end ParserForge

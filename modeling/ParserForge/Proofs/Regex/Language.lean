import Mathlib
import ParserForge.Regex.Parse

/-!
The languages of regular expressions and of patterns, by the operations on languages and apart
from every automaton.
-/

namespace ParserForge

namespace CharRange

/-- The listed characters of a range are those between its ends. -/
theorem mem_chars {r : CharRange} {c : Char} : c ∈ r.chars ↔ r.contains c = true := by
  have hle : ∀ a b : Char, a ≤ b ↔ a.toNat ≤ b.toNat := fun _ _ => Iff.rfl
  simp only [chars, contains, List.mem_filterMap, List.mem_range'_1, Bool.and_eq_true,
    decide_eq_true_eq, hle]
  constructor
  · rintro ⟨n, hn, hc⟩
    split at hc
    · next hvalid =>
        obtain rfl := Option.some.inj hc
        have : (Char.ofNatAux n hvalid).toNat = n := Char.toNat_ofNatAux hvalid
        omega
    · cases hc
  · intro h
    refine ⟨c.toNat, by omega, ?_⟩
    have hvalid : c.toNat.isValidChar := c.valid
    rw [dif_pos hvalid]
    exact congrArg some (Char.ext rfl)

end CharRange

namespace Regex

open Computability

/-- The words that the expression matches. -/
def language : Regex → Language Char
  | empty => 1
  | literal c => {[c]}
  | oneOf ranges => {w | ∃ c, w = [c] ∧ ∃ r ∈ ranges, r.contains c = true}
  | concat a b => a.language * b.language
  | alt a b => a.language + b.language
  | star a => a.language∗
  | plus a => a.language * a.language∗
  | optional a => a.language + 1

theorem nil_mem_mul {L M : Language Char} : [] ∈ L * M ↔ [] ∈ L ∧ [] ∈ M := by
  constructor
  · rintro ⟨u, hu, v, hv, huv⟩
    obtain ⟨rfl, rfl⟩ := List.append_eq_nil_iff.mp huv
    exact ⟨hu, hv⟩
  · rintro ⟨hu, hv⟩
    exact ⟨[], hu, [], hv, rfl⟩

/-- An expression is nullable if it matches the empty word. -/
theorem isNullable_iff (r : Regex) : r.isNullable = true ↔ [] ∈ r.language := by
  induction r with
  | empty => exact iff_of_true rfl rfl
  | star a _ => exact iff_of_true rfl (Language.nil_mem_kstar _)
  | literal c => exact iff_of_false Bool.false_ne_true (List.cons_ne_nil c []).symm
  | oneOf ranges =>
      refine iff_of_false Bool.false_ne_true ?_
      rintro ⟨c, hc, _⟩
      exact (List.cons_ne_nil c []).symm hc
  | concat a b iha ihb =>
      rw [isNullable, Bool.and_eq_true, language, nil_mem_mul]
      exact and_congr iha ihb
  | alt a b iha ihb =>
      rw [isNullable, Bool.or_eq_true]
      exact or_congr iha ihb
  | plus a iha =>
      rw [isNullable, language, nil_mem_mul]
      exact iha.trans (and_iff_left (Language.nil_mem_kstar _)).symm
  | optional a _ => exact iff_of_true rfl (Or.inr rfl)

/-- The words that a pattern matches.  A pattern that cannot be read matches none. -/
def patternLanguage (pattern : List Char) : Language Char :=
  {w | ∃ r, parse pattern = .ok r ∧ w ∈ r.language}

theorem patternLanguage_of_parse {pattern : List Char} {r : Regex}
    (h : parse pattern = .ok r) : patternLanguage pattern = r.language := by
  ext w
  constructor
  · rintro ⟨s, hs, hw⟩
    rw [h] at hs
    obtain rfl := Except.ok.inj hs
    exact hw
  · intro hw
    exact ⟨r, h, hw⟩

end Regex

end ParserForge

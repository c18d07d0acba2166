import Mathlib
import ParserForge.Proofs.Format.Spelling
import ParserForge.Proofs.Lexer.Cuts

/-!
The layout of a text: the blanks and the comments between its tokens.  What the rules for tokens
match has one of three shapes, so a match ends where the text stops being of one kind, and what is
passed over can be taken out of a text without a change to its tokens.
-/

namespace ParserForge

namespace Regex

open Computability

/-- Whether some word that the expression matches may begin with the character. -/
def begins : Regex → Char → Bool
  | empty, _ => false
  | literal d, c => c == d
  | oneOf ranges, c => ranges.any fun r => r.contains c
  | concat a b, c => a.begins c || (a.isNullable && b.begins c)
  | alt a b, c => a.begins c || b.begins c
  | star a, c | plus a, c | optional a, c => a.begins c

theorem begins_of_mem_kstar {a : Regex} {c : Char}
    (h : ∀ w, c :: w ∈ a.language → a.begins c = true) {w : List Char}
    (hw : c :: w ∈ a.language∗) : a.begins c = true := by
  obtain ⟨ws, hflatten, hws⟩ := Language.mem_kstar_iff_exists_nonempty.mp hw
  cases ws with
  | nil => cases hflatten
  | cons v vs =>
      obtain ⟨hv, hne⟩ := hws v List.mem_cons_self
      obtain ⟨d, v, rfl⟩ := List.exists_cons_of_ne_nil hne
      obtain rfl : c = d := (List.cons.inj hflatten).1
      exact h v hv

theorem begins_of_mem (r : Regex) (c : Char) : ∀ w, c :: w ∈ r.language → r.begins c = true := by
  induction r with
  | empty => exact fun w hw => absurd hw (List.cons_ne_nil c w)
  | literal d => exact fun w hw => beq_iff_eq.mpr (List.cons.inj hw).1
  | oneOf ranges =>
      rintro w ⟨d, hd, hranges⟩
      obtain rfl : c = d := (List.cons.inj hd).1
      exact List.any_eq_true.mpr hranges
  | concat a b iha ihb =>
      intro w hw
      obtain ⟨u, hu, v, hv, huv⟩ := Language.mem_mul.mp hw
      rw [begins, Bool.or_eq_true, Bool.and_eq_true]
      cases u with
      | nil =>
          obtain rfl : v = c :: w := huv
          exact Or.inr ⟨a.isNullable_iff.mpr hu, ihb w hv⟩
      | cons d u =>
          obtain rfl : d = c := (List.cons.inj huv).1
          exact Or.inl (iha u hu)
  | alt a b iha ihb =>
      rintro w (hw | hw)
      · exact Bool.or_eq_true_iff.mpr (Or.inl (iha w hw))
      · exact Bool.or_eq_true_iff.mpr (Or.inr (ihb w hw))
  | star a iha => exact fun w hw => begins_of_mem_kstar (a := a) iha hw
  | plus a iha =>
      intro w hw
      obtain ⟨u, hu, v, hv, huv⟩ := Language.mem_mul.mp hw
      cases u with
      | nil =>
          obtain rfl : v = c :: w := huv
          exact begins_of_mem_kstar (a := a) iha hv
      | cons d u =>
          obtain rfl : d = c := (List.cons.inj huv).1
          exact iha u hu
  | optional a iha =>
      rintro w (hw | hw)
      · exact iha w hw
      · exact absurd hw (List.cons_ne_nil c w)

/-- The repetition of a choice of characters matches all words of them. -/
theorem mem_kstar_oneOf_iff {ranges : List CharRange} {w : List Char} :
    w ∈ (oneOf ranges).language∗ ↔ ∀ c ∈ w, ∃ r ∈ ranges, r.contains c = true := by
  constructor
  · exact fun hw => mentions_of_mem (star (oneOf ranges)) w hw
  · intro hw
    refine Language.mem_kstar.mpr ⟨w.map fun c => [c], (List.flatMap_singleton' w).symm, ?_⟩
    rw [List.forall_mem_map]
    exact fun c hc => ⟨c, rfl, hw c hc⟩

theorem mem_plus_oneOf_iff {ranges : List CharRange} {w : List Char} :
    w ∈ (plus (oneOf ranges)).language ↔
      w ≠ [] ∧ ∀ c ∈ w, ∃ r ∈ ranges, r.contains c = true := by
  constructor
  · intro hw
    refine ⟨?_, mentions_of_mem _ w hw⟩
    rintro rfl
    have hnullable := (isNullable_iff (plus (oneOf ranges))).mpr hw
    cases hnullable
  · rintro ⟨hne, hw⟩
    obtain ⟨c, w, rfl⟩ := List.exists_cons_of_ne_nil hne
    obtain ⟨hc, hw⟩ := List.forall_mem_cons.mp hw
    exact Language.mem_mul.mpr ⟨[c], ⟨c, rfl, hc⟩, w, mem_kstar_oneOf_iff.mpr hw, rfl⟩

end Regex

namespace Format

/-- Printable characters of one byte, and tabs. -/
def isPlain (c : Char) : Bool := c == '\t' || (' ' ≤ c && c ≤ '~')

/-- The blanks of the format. -/
def isSpacing (c : Char) : Bool := c == ' ' || c == '\t' || c == '\r' || c == '\n'

theorem isPlain_iff {c : Char} :
    isPlain c = true ↔ c = '\t' ∨ 0x20 ≤ c.toNat ∧ c.toNat ≤ 0x7e := by
  simp only [isPlain, Bool.or_eq_true, beq_iff_eq, Bool.and_eq_true, decide_eq_true_eq]
  exact Iff.rfl

theorem isSpacing_iff {c : Char} : isSpacing c = true ↔
    c = ' ' ∨ c = '\t' ∨ c = '\r' ∨ c = '\n' := by
  simp [isSpacing, or_assoc]

/-- The languages of the rules for tokens. -/
def languages : List (Language Char) :=
  [Regex.patternLanguage "[ \t\r\n]+".toList, Regex.patternLanguage "#[ -~\t]*".toList,
    Regex.patternLanguage "%empty".toList, Regex.patternLanguage "->".toList,
    Regex.patternLanguage "\\|".toList, Regex.patternLanguage ";".toList,
    Regex.patternLanguage "[A-Za-z_][A-Za-z0-9_']*".toList,
    Regex.patternLanguage "'[!-&(-~]+'".toList]

theorem mem_spacing_iff {w : List Char} : w ∈ Regex.patternLanguage "[ \t\r\n]+".toList ↔
    w ≠ [] ∧ ∀ c ∈ w, isSpacing c = true := by
  rw [Regex.patternLanguage_of_parse (r := .plus (.oneOf [⟨' ', ' '⟩, ⟨'\t', '\t'⟩,
    ⟨'\r', '\r'⟩, ⟨'\n', '\n'⟩])) rfl, Regex.mem_plus_oneOf_iff]
  refine and_congr_right' (forall₂_congr fun c _ => ?_)
  simp [isSpacing_iff, contains_iff, Char.ext_iff, ← UInt32.toNat_inj]
  omega

theorem mem_comment_iff {w : List Char} : w ∈ Regex.patternLanguage "#[ -~\t]*".toList ↔
    ∃ u, w = '#' :: u ∧ ∀ c ∈ u, isPlain c = true := by
  have hplain : ∀ c, isPlain c = true ↔
      ∃ r ∈ [(⟨' ', '~'⟩ : CharRange), ⟨'\t', '\t'⟩], r.contains c = true := by
    intro c
    simp [isPlain_iff, contains_iff, Char.ext_iff, ← UInt32.toNat_inj]
    omega
  rw [Regex.patternLanguage_of_parse (r := .concat (.literal '#')
    (.star (.oneOf [⟨' ', '~'⟩, ⟨'\t', '\t'⟩]))) rfl]
  simp only [hplain, ← Regex.mem_kstar_oneOf_iff]
  constructor
  · intro hw
    obtain ⟨_, rfl, u, hu, rfl⟩ := Language.mem_mul.mp hw
    exact ⟨u, rfl, hu⟩
  · rintro ⟨u, rfl, hu⟩
    exact Language.mem_mul.mpr ⟨['#'], rfl, u, hu, rfl⟩

theorem IsGraphic.isPlain {c : Char} (h : IsGraphic c) : isPlain c = true :=
  isPlain_iff.mpr (Or.inr ⟨Nat.le_of_succ_le h.1, h.2⟩)

theorem IsGraphic.isSpacing_eq_false {c : Char} (h : IsGraphic c) : isSpacing c = false := by
  rw [Bool.eq_false_iff, Ne, isSpacing_iff]
  rintro (rfl | rfl | rfl | rfl) <;> exact absurd h.1 (by decide)

/-- What a rule for tokens matches: blanks, a comment, or graphic characters that do not begin with
the sign of a comment. -/
inductive Shape : Nat → List Char → Prop where
  | spacing {w : List Char} : w ≠ [] → (∀ c ∈ w, isSpacing c = true) → Shape 0 w
  | comment {w : List Char} : (∀ c ∈ w, isPlain c = true) → Shape 1 ('#' :: w)
  | other {index : Nat} {c : Char} {w : List Char} : c ≠ '#' → (∀ d ∈ c :: w, IsGraphic d) →
      Shape (index + 2) (c :: w)

/-- The shape of the matches of a pattern, from what its expression begins with and mentions. -/
theorem shape_of_regex {pattern : List Char} {r : Regex} (hparse : Regex.parse pattern = .ok r)
    (hnullable : r.isNullable = false) (hsign : r.begins '#' = false)
    (hgraphic : ∀ c, r.Mentions c → IsGraphic c) {w : List Char}
    (h : w ∈ Regex.patternLanguage pattern) (index : Nat) : Shape (index + 2) w := by
  rw [Regex.patternLanguage_of_parse hparse] at h
  cases w with
  | nil =>
      rw [r.isNullable_iff.mpr h] at hnullable
      cases hnullable
  | cons c w =>
      refine .other ?_ fun d hd => hgraphic d (r.mentions_of_mem _ h d hd)
      rintro rfl
      rw [r.begins_of_mem '#' w h] at hsign
      cases hsign

theorem shape_of_mem_matching {w : List Char} {index : Nat}
    (h : index ∈ Lexer.matching languages w) : Shape index w := by
  obtain ⟨L, hL, hw⟩ := h
  match index, hL with
  | 0, hL =>
      obtain rfl := Option.some.inj hL
      obtain ⟨hne, hspacing⟩ := mem_spacing_iff.mp hw
      exact .spacing hne hspacing
  | 1, hL =>
      obtain rfl := Option.some.inj hL
      obtain ⟨u, rfl, hplain⟩ := mem_comment_iff.mp hw
      exact .comment hplain
  | 2, hL =>
      obtain rfl := Option.some.inj hL
      refine shape_of_regex (r := .concat (.concat (.concat (.concat (.concat (.literal '%')
        (.literal 'e')) (.literal 'm')) (.literal 'p')) (.literal 't')) (.literal 'y')) rfl rfl
        rfl ?_ hw 0
      simp only [Regex.Mentions]
      rintro c (((((rfl | rfl) | rfl) | rfl) | rfl) | rfl) <;> exact ⟨by decide, by decide⟩
  | 3, hL =>
      obtain rfl := Option.some.inj hL
      refine shape_of_regex (r := .concat (.literal '-') (.literal '>')) rfl rfl
        rfl ?_ hw 1
      rintro c (rfl | rfl) <;> exact ⟨by decide, by decide⟩
  | 4, hL =>
      obtain rfl := Option.some.inj hL
      refine shape_of_regex (r := .literal '|') rfl rfl rfl ?_ hw 2
      rintro c rfl
      exact ⟨by decide, by decide⟩
  | 5, hL =>
      obtain rfl := Option.some.inj hL
      refine shape_of_regex (r := .literal ';') rfl rfl rfl ?_ hw 3
      rintro c rfl
      exact ⟨by decide, by decide⟩
  | 6, hL =>
      obtain rfl := Option.some.inj hL
      refine shape_of_regex (r := .concat (.oneOf [⟨'A', 'Z'⟩, ⟨'a', 'z'⟩, ⟨'_', '_'⟩])
        (.star (.oneOf [⟨'A', 'Z'⟩, ⟨'a', 'z'⟩, ⟨'0', '9'⟩, ⟨'_', '_'⟩, ⟨'\'', '\''⟩]))) rfl rfl
        rfl ?_ hw 4
      intro c hc
      simp [Regex.Mentions, contains_iff] at hc
      simp only [IsGraphic]
      omega
  | 7, hL =>
      obtain rfl := Option.some.inj hL
      refine shape_of_regex (r := .concat (.concat (.literal '\'') (.plus (.oneOf [⟨'!', '&'⟩,
        ⟨'(', '~'⟩]))) (.literal '\'')) rfl rfl rfl ?_ hw 5
      rintro c ((rfl | hc) | rfl)
      · exact ⟨by decide, by decide⟩
      · simp [Regex.Mentions, contains_iff] at hc
        simp only [IsGraphic]
        omega
      · exact ⟨by decide, by decide⟩

theorem Shape.ne_nil {index : Nat} {w : List Char} (h : Shape index w) : w ≠ [] := by
  cases h with
  | spacing hne => exact hne
  | comment => exact List.cons_ne_nil _ _
  | other => exact List.cons_ne_nil _ _

/-- What begins with a blank is blank. -/
theorem Shape.spacing_of_head {index : Nat} {c : Char} {w : List Char} (h : Shape index (c :: w))
    (hc : isSpacing c = true) : index = 0 ∧ ∀ d ∈ c :: w, isSpacing d = true := by
  cases h with
  | spacing _ hw => exact ⟨rfl, hw⟩
  | comment => exact absurd hc (by decide)
  | other _ hw =>
      rw [(hw c List.mem_cons_self).isSpacing_eq_false] at hc
      cases hc

/-- What does not begin with a blank is plain. -/
theorem Shape.plain_of_head {index : Nat} {c : Char} {w : List Char} (h : Shape index (c :: w))
    (hc : isSpacing c = false) : index ≠ 0 ∧ ∀ d ∈ c :: w, isPlain d = true := by
  cases h with
  | spacing _ hw =>
      rw [hw c List.mem_cons_self] at hc
      cases hc
  | comment hw => exact ⟨Nat.one_ne_zero, List.forall_mem_cons.mpr ⟨by decide, hw⟩⟩
  | other _ hw => exact ⟨Nat.succ_ne_zero _, fun d hd => (hw d hd).isPlain⟩

/-- A prefix of characters of one kind ends where the text stops being of that kind. -/
theorem prefix_of_forall {p : Char → Bool} {v u rest : List Char} (hv : v <+: u ++ rest)
    (hall : ∀ c ∈ v, p c = true) (hrest : ∀ c, rest.head? = some c → p c = false) : v <+: u := by
  rcases List.prefix_or_prefix_of_prefix hv (List.prefix_append u rest) with h | ⟨t, rfl⟩
  · exact h
  · cases t with
    | nil => exact ⟨[], by simp⟩
    | cons c t =>
        obtain ⟨z, rfl⟩ := (List.prefix_append_right_inj u).mp hv
        have hc := hall c (List.mem_append_right u List.mem_cons_self)
        rw [hrest c rfl] at hc
        cases hc

theorem head?_dropWhile (p : Char → Bool) (text : List Char) :
    ∀ c, (text.dropWhile p).head? = some c → p c = false := by
  intro c hc
  have hhead := text.head?_dropWhile_not p
  rw [hc] at hhead
  exact hhead

section

variable {c : Char} {v u rest : List Char}

/-- A match that begins with a blank does not go beyond the blanks. -/
theorem prefix_of_spacing (hv : v <+: c :: (u ++ rest))
    (hmatching : (Lexer.matching languages v).Nonempty) (hc : isSpacing c = true)
    (hrest : ∀ d, rest.head? = some d → isSpacing d = false) : v <+: c :: u := by
  obtain ⟨index, hindex⟩ := hmatching
  have hshape := shape_of_mem_matching hindex
  obtain ⟨t, rfl, -⟩ := (List.prefix_cons_iff.mp hv).resolve_left hshape.ne_nil
  exact prefix_of_forall hv (hshape.spacing_of_head hc).2 hrest

/-- Any other match does not go beyond the plain characters. -/
theorem prefix_of_plain (hv : v <+: c :: (u ++ rest))
    (hmatching : (Lexer.matching languages v).Nonempty) (hc : isSpacing c = false)
    (hrest : ∀ d, rest.head? = some d → isPlain d = false) : v <+: c :: u := by
  obtain ⟨index, hindex⟩ := hmatching
  have hshape := shape_of_mem_matching hindex
  obtain ⟨t, rfl, -⟩ := (List.prefix_cons_iff.mp hv).resolve_left hshape.ne_nil
  exact prefix_of_forall hv (hshape.plain_of_head hc).2 hrest

end

section

variable {rules : List (LexerRule TerminalId)} (hrules : tokenRules = .ok rules)
  {before after : List Char}

include hrules

theorem languages_eq : (rules.map LexerRule.meaning).map Prod.fst = languages := by
  rw [LexerRule.meaning_ofPatterns hrules]
  rfl

/-- Blanks and comments are passed over. -/
theorem kind_eq_none {index : Nat} (h : index < 2) :
    (Lexer.ofRules rules).rules[index]?.bind LexerRule.kind = none := by
  obtain ⟨L, hL⟩ : ∃ L, (rules.map LexerRule.meaning)[index]? = some (L, none) := by
    rw [LexerRule.meaning_ofPatterns hrules]
    match index, h with
    | 0, _ => exact ⟨_, rfl⟩
    | 1, _ => exact ⟨_, rfl⟩
  exact Lexer.kind_ofRules hL

/-- A match that begins with a blank takes all blanks that follow. -/
theorem longestMatch_spacing {c : Char} {u rest : List Char}
    (hspacing : ∀ d ∈ c :: u, isSpacing d = true)
    (hrest : ∀ d, rest.head? = some d → isSpacing d = false) :
    (Lexer.ofRules rules).longestMatch (c :: u ++ rest) = some ((c :: u).length, 0) := by
  apply Lexer.longestMatch_eq_some
  rw [languages_eq hrules]
  refine ⟨List.prefix_append _ rest, List.cons_ne_nil c u, ⟨⟨_, rfl, ?_⟩,
    fun _ _ => Nat.zero_le _⟩, fun v hv hmatching => ?_⟩
  · exact mem_spacing_iff.mpr ⟨List.cons_ne_nil c u, hspacing⟩
  · exact (prefix_of_spacing hv hmatching (hspacing c List.mem_cons_self) hrest).length_le

/-- A comment takes all plain characters that follow. -/
theorem longestMatch_comment {u rest : List Char} (hplain : ∀ c ∈ u, isPlain c = true)
    (hrest : ∀ c, rest.head? = some c → isPlain c = false) :
    (Lexer.ofRules rules).longestMatch ('#' :: u ++ rest) = some (('#' :: u).length, 1) := by
  apply Lexer.longestMatch_eq_some
  rw [languages_eq hrules]
  have hsign : isSpacing '#' = false := by decide
  refine ⟨List.prefix_append _ rest, List.cons_ne_nil _ u, ⟨⟨_, rfl, ?_⟩, fun i hi => ?_⟩,
    fun v hv hmatching => (prefix_of_plain hv hmatching hsign hrest).length_le⟩
  · exact mem_comment_iff.mpr ⟨u, rfl, hplain⟩
  · exact Nat.one_le_iff_ne_zero.mpr ((shape_of_mem_matching hi).plain_of_head hsign).1

theorem unplacedScan_of_skipped {w rest : List Char} {index : Nat} (h : index < 2)
    (hmatch : (Lexer.ofRules rules).longestMatch (w ++ rest) = some (w.length, index)) :
    (Lexer.ofRules rules).unplacedScan (w ++ rest) = (Lexer.ofRules rules).unplacedScan rest := by
  rw [Lexer.unplacedScan_of_some hmatch, kind_eq_none hrules h]

/-- Blanks at the beginning of a text leave no token.  They may be taken together with the blanks
that follow, so both sides are compared with the text behind these. -/
theorem unplacedScan_spacing {w : List Char} (hw : ∀ c ∈ w, isSpacing c = true)
    (rest : List Char) :
    (Lexer.ofRules rules).unplacedScan (w ++ rest) = (Lexer.ofRules rules).unplacedScan rest := by
  have hrun : ∀ v, (∀ c ∈ v, isSpacing c = true) →
      (Lexer.ofRules rules).unplacedScan (v ++ rest.dropWhile isSpacing) =
        (Lexer.ofRules rules).unplacedScan (rest.dropWhile isSpacing) := by
    intro v hv
    cases v with
    | nil => rfl
    | cons c u =>
        exact unplacedScan_of_skipped hrules Nat.zero_lt_two
          (longestMatch_spacing hrules hv (head?_dropWhile isSpacing rest))
  have htake : ∀ c ∈ rest.takeWhile isSpacing, isSpacing c = true := fun c hc =>
    List.mem_takeWhile_imp hc
  have hsplit := rest.takeWhile_append_dropWhile (p := isSpacing)
  calc (Lexer.ofRules rules).unplacedScan (w ++ rest)
      = (Lexer.ofRules rules).unplacedScan
          (w ++ rest.takeWhile isSpacing ++ rest.dropWhile isSpacing) := by
        rw [List.append_assoc, hsplit]
    _ = (Lexer.ofRules rules).unplacedScan (rest.dropWhile isSpacing) :=
        hrun _ (List.forall_mem_append.mpr ⟨hw, htake⟩)
    _ = (Lexer.ofRules rules).unplacedScan
          (rest.takeWhile isSpacing ++ rest.dropWhile isSpacing) := (hrun _ htake).symm
    _ = (Lexer.ofRules rules).unplacedScan rest := by rw [hsplit]

/-- A comment at the beginning of a text leaves no token. -/
theorem unplacedScan_comment {u rest : List Char} (hplain : ∀ c ∈ u, isPlain c = true)
    (hrest : ∀ c, rest.head? = some c → isPlain c = false) :
    (Lexer.ofRules rules).unplacedScan ('#' :: (u ++ rest)) =
      (Lexer.ofRules rules).unplacedScan rest :=
  unplacedScan_of_skipped hrules Nat.one_lt_two (longestMatch_comment hrules hplain hrest)

/-- A match in front of plain characters is the same whatever stands behind these, if it is not of
blanks. -/
theorem longestMatch_congr {c : Char} {u v rest rest' : List Char} {index : Nat}
    (h : (Lexer.ofRules rules).longestMatch (c :: u ++ (v ++ rest)) = some ((c :: u).length, index))
    (hc : isSpacing c = false) (hrest : ∀ d, rest'.head? = some d → isPlain d = false) :
    (Lexer.ofRules rules).longestMatch (c :: u ++ (v ++ rest')) =
      some ((c :: u).length, index) := by
  have hmatch := Lexer.longestMatch_of_eq_some h
  apply Lexer.longestMatch_eq_some
  refine ⟨List.prefix_append _ _, hmatch.nonempty, hmatch.first, fun w hw hmatching => ?_⟩
  refine hmatch.longest w ?_ hmatching
  rw [languages_eq hrules] at hmatching
  rw [List.cons_append, ← List.append_assoc] at hw ⊢
  exact (prefix_of_plain hw hmatching hc hrest).trans (List.prefix_append (c :: (u ++ v)) rest)

/-- So is the lack of a match. -/
theorem longestMatch_congr_none {c : Char} {v rest rest' : List Char}
    (h : (Lexer.ofRules rules).longestMatch (c :: (v ++ rest)) = none)
    (hrest : ∀ d, rest'.head? = some d → isPlain d = false) :
    (Lexer.ofRules rules).longestMatch (c :: (v ++ rest')) = none := by
  have hspec := Lexer.longestMatch_spec rules (c :: (v ++ rest))
  rw [h] at hspec
  simp only [languages_eq hrules] at hspec
  apply Lexer.longestMatch_eq_none
  intro w hw hne
  rw [languages_eq hrules]
  by_contra hmatching
  have hmatching := Set.nonempty_iff_ne_empty.mpr hmatching
  cases hc : isSpacing c with
  | true =>
      have hblank := hspec [c] ⟨v ++ rest, rfl⟩ (List.cons_ne_nil c [])
      have hmem : 0 ∈ Lexer.matching languages [c] :=
        ⟨_, rfl, mem_spacing_iff.mpr ⟨List.cons_ne_nil c [], by simpa using hc⟩⟩
      exact Set.notMem_empty 0 (hblank ▸ hmem)
  | false =>
      have hinitial := prefix_of_plain hw hmatching hc hrest
      exact hmatching.ne_empty
        (hspec w (hinitial.trans (List.prefix_append (c :: v) rest)) hne)

/-- What leaves no token can be taken out behind a cut, if what follows is no plain character. -/
theorem unplacedScan_of_cuts (gap : List Char)
    (hcuts : (Lexer.ofRules rules).Cuts before (gap ++ after))
    (hgap : (Lexer.ofRules rules).unplacedScan (gap ++ after) =
      (Lexer.ofRules rules).unplacedScan after)
    (hafter : ∀ c, after.head? = some c → isPlain c = false) :
    (Lexer.ofRules rules).unplacedScan (before ++ (gap ++ after)) =
      (Lexer.ofRules rules).unplacedScan (before ++ after) := by
  generalize hrest : gap ++ after = rest at hcuts
  induction hcuts with
  | here rest => exact hrest ▸ hgap
  | @behind w before rest index hmatch _ ih =>
      subst hrest
      obtain ⟨c, u, rfl⟩ := List.exists_cons_of_ne_nil (Lexer.ne_nil_of_longestMatch hmatch)
      rw [List.append_assoc, List.append_assoc]
      cases hc : isSpacing c with
      | true =>
          -- these blanks may now be taken together with others, but they leave no token anyway
          have hfirst := (Lexer.longestMatch_of_eq_some hmatch).first.1
          rw [languages_eq hrules] at hfirst
          have hspacing := ((shape_of_mem_matching hfirst).spacing_of_head hc).2
          rw [unplacedScan_spacing hrules hspacing, unplacedScan_spacing hrules hspacing, ih rfl]
      | false =>
          rw [Lexer.unplacedScan_of_some hmatch, ih rfl,
            Lexer.unplacedScan_of_some (longestMatch_congr hrules hmatch hc hafter)]
  | @givenUp c before rest hnone _ ih =>
      subst hrest
      rw [List.cons_append, List.cons_append, Lexer.unplacedScan_of_none hnone, ih rfl,
        Lexer.unplacedScan_of_none (longestMatch_congr_none hrules hnone hafter)]

/-- A comment behind a cut can be taken out together with blanks that follow it. -/
theorem unplacedScan_of_cuts_comment {run : List Char} (left : List Char)
    (hcuts : (Lexer.ofRules rules).Cuts before ('#' :: (run ++ (left ++ after))))
    (hplain : ∀ c ∈ run, isPlain c = true)
    (hhead : ∀ c, (left ++ after).head? = some c → isPlain c = false)
    (hspacing : ∀ c ∈ left, isSpacing c = true)
    (hafter : ∀ c, after.head? = some c → isPlain c = false) :
    (Lexer.ofRules rules).unplacedScan (before ++ '#' :: (run ++ (left ++ after))) =
      (Lexer.ofRules rules).unplacedScan (before ++ after) := by
  have hgap := (unplacedScan_comment hrules hplain hhead).trans
    (unplacedScan_spacing hrules hspacing after)
  rw [← List.append_assoc] at hcuts hgap ⊢
  exact unplacedScan_of_cuts hrules ('#' :: (run ++ left)) hcuts hgap hafter

/-- A character that is neither plain nor a blank is an invalid token. -/
theorem exists_invalid {c : Char} {text : List Char} (hc : c ∈ text) (hplain : isPlain c = false)
    (hspacing : isSpacing c = false) :
    ∃ t ∈ (Lexer.ofRules rules).scan text, t.kind = .invalid := by
  apply (Lexer.scans_scanFrom rules .start text).exists_invalid hc
  rintro v ⟨index, hindex⟩ hmem
  rw [languages_eq hrules] at hindex
  have hall : isPlain c = true ∨ isSpacing c = true := by
    cases shape_of_mem_matching hindex with
    | spacing _ hv => exact Or.inr (hv c hmem)
    | comment hv =>
        rcases List.mem_cons.mp hmem with rfl | hmem
        · exact Or.inl (by decide)
        · exact Or.inl (hv c hmem)
    | other _ hv => exact Or.inl (hv c hmem).isPlain
  simp [hplain, hspacing] at hall

end

end Format

end ParserForge

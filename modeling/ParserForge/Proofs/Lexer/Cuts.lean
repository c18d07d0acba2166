import Mathlib
import ParserForge.Proofs.Lexer.MaximalMunch

/-!
The places where the lexer cuts a text.  A text that is cut in two is scanned up to the cut and,
from there on, like a text of its own.  So what stands behind a cut may be put in place of something
else with the same tokens, as long as no match before the cut can tell the two apart.
-/

namespace ParserForge

namespace Token

variable {κ : Type}

/-- The token without its place. -/
def unplaced (t : Token κ) : Token κ := { t with place := .start }

@[simp] theorem terminal_unplaced (t : Token κ) : t.unplaced.terminal = t.terminal := rfl

@[simp] theorem isValid_unplaced (t : Token κ) : t.unplaced.isValid = t.isValid := rfl

end Token

namespace Lexer

variable {κ : Type}

/-- The scan of the text in two parts, the second of which begins with a token, a match that is
passed over, or an invalid character. -/
inductive Cuts (lexer : Lexer κ) : List Char → List Char → Prop where
  | here (rest : List Char) : Cuts lexer [] rest
  | behind {w before rest : List Char} {index : Nat} :
      lexer.longestMatch (w ++ (before ++ rest)) = some (w.length, index) →
        Cuts lexer before rest → Cuts lexer (w ++ before) rest
  | givenUp {c : Char} {before rest : List Char} :
      lexer.longestMatch (c :: (before ++ rest)) = none →
        Cuts lexer before rest → Cuts lexer (c :: before) rest

/-- The tokens of a text without their places. -/
def unplacedScan (lexer : Lexer κ) (text : List Char) : List (Token κ) :=
  (lexer.scan text).map Token.unplaced

theorem ne_nil_of_longestMatch {lexer : Lexer κ} {text w : List Char} {index : Nat}
    (h : lexer.longestMatch text = some (w.length, index)) : w ≠ [] := by
  have hspec := longestFrom_spec lexer.automaton 0 text
  rw [longestMatch] at h
  rw [h] at hspec
  obtain ⟨v, hlength, hv⟩ := hspec
  exact List.length_pos_iff.mp (hlength ▸ List.length_pos_iff.mpr hv.nonempty)

/-- The place where a text starts decides on nothing but the places of its tokens. -/
theorem map_unplaced_scanFrom (lexer : Lexer κ) (p q : Position) (covered : Nat)
    (text : List Char) : (lexer.scanFrom p covered text).map Token.unplaced =
      (lexer.scanFrom q covered text).map Token.unplaced := by
  induction text generalizing p q covered with
  | nil => cases covered <;> rfl
  | cons c text ih =>
      cases covered with
      | succ covered => exact ih (p.advance c) (q.advance c) covered
      | zero =>
          simp only [scanFrom]
          split
          · rw [List.map_cons, List.map_cons, ih (p.advance c) (q.advance c)]
            rfl
          · split
            · exact ih (p.advance c) (q.advance c) _
            · rw [List.map_cons, List.map_cons, ih (p.advance c) (q.advance c)]
              rfl

theorem unplacedScan_of_some {lexer : Lexer κ} {w rest : List Char} {index : Nat}
    (h : lexer.longestMatch (w ++ rest) = some (w.length, index)) :
    lexer.unplacedScan (w ++ rest) =
      match lexer.rules[index]?.bind LexerRule.kind with
      | none => lexer.unplacedScan rest
      | some kind => ⟨.terminal kind, w, .start⟩ :: lexer.unplacedScan rest := by
  have hrest := lexer.map_unplaced_scanFrom (Position.start.advanceAll w) .start 0 rest
  rw [unplacedScan, scan, scanFrom_of_some h (ne_nil_of_longestMatch h)]
  cases lexer.rules[index]?.bind LexerRule.kind with
  | none => exact hrest
  | some kind => exact congrArg (_ :: ·) hrest

theorem unplacedScan_of_none {lexer : Lexer κ} {c : Char} {rest : List Char}
    (h : lexer.longestMatch (c :: rest) = none) :
    lexer.unplacedScan (c :: rest) = ⟨.invalid, [c], .start⟩ :: lexer.unplacedScan rest := by
  have hrest := lexer.map_unplaced_scanFrom (Position.start.advance c) .start 0 rest
  rw [unplacedScan, scan, scanFrom_of_none h, List.map_cons, hrest]
  rfl

/-- The longest match of a text as a word. -/
theorem longestMatch_of_eq_some {rules : List (LexerRule κ)} {w rest : List Char} {index : Nat}
    (h : (ofRules rules).longestMatch (w ++ rest) = some (w.length, index)) :
    LongestMatch ((rules.map LexerRule.meaning).map Prod.fst) (w ++ rest) w index := by
  have hspec := longestMatch_spec rules (w ++ rest)
  rw [h] at hspec
  obtain ⟨v, hlength, hv⟩ := hspec
  have hprefix := List.prefix_of_prefix_length_le hv.initial (List.prefix_append w rest)
    (Nat.le_of_eq hlength)
  exact hprefix.eq_of_length hlength ▸ hv

/-- A character that no match contains is found invalid. -/
theorem Scans.exists_invalid {rules : List (Language Char × Option κ)} {place : Position}
    {text : List Char} {ts : List (Token κ)} (h : Scans rules place text ts) {c : Char}
    (hc : c ∈ text) (hno : ∀ v, (matching (rules.map Prod.fst) v).Nonempty → c ∉ v) :
    ∃ t ∈ ts, t.kind = .invalid := by
  induction h with
  | ending place => exact absurd hc List.not_mem_nil
  | token hmatch _ _ ih =>
      rcases List.mem_append.mp hc with hc | hc
      · exact absurd hc (hno _ ⟨_, hmatch.first.1⟩)
      · obtain ⟨t, ht, hkind⟩ := ih hc
        exact ⟨t, List.mem_cons_of_mem _ ht, hkind⟩
  | skip hmatch _ _ ih =>
      rcases List.mem_append.mp hc with hc | hc
      · exact absurd hc (hno _ ⟨_, hmatch.first.1⟩)
      · exact ih hc
  | invalid _ _ _ => exact ⟨_, List.mem_cons_self, rfl⟩

end Lexer

end ParserForge

import Mathlib
import ParserForge.Proofs.Lexer.Cursor

/-!
Where tokens stand.  A place counts the bytes before it, the line feeds before it, and the
characters behind the latest of these.  The tokens of a text stand one behind the other, and the
bytes between them have been skipped.
-/

namespace ParserForge

open String (utf8Len)

/-- A place is determined by the text before it. -/
theorem Position.advanceAll_start (before : List Char) :
    Position.start.advanceAll before =
      ⟨utf8Len before, 1 + before.count '\n', 1 + (before.rtakeWhile (· ≠ '\n')).length⟩ := by
  induction before using List.reverseRecOn with
  | nil => rfl
  | append_singleton before c ih =>
      have happend : Position.start.advanceAll (before ++ [c]) =
          (Position.start.advanceAll before).advance c := List.foldl_concat ..
      rw [happend, ih, advance, List.rtakeWhile_concat, String.utf8Len_append, List.count_append]
      by_cases hc : c = '\n'
      · subst hc
        simp
        omega
      · simp [hc]
        omega

/-- A token stands in a text where its span says, which is empty at the end of the text only, and
its line and column are counted from the beginning. -/
structure SpanToken.Stands {κ : Type} (t : SpanToken κ) (text : List Char) : Prop where
  lexeme : Text.slice? text t.start t.stop = some t.lexeme
  ending : t.kind = .ending → t.start = utf8Len text ∧ t.stop = utf8Len text
  nonempty : t.kind ≠ .ending → t.start < t.stop
  place : ∃ before, Text.slice? text 0 t.start = some before ∧
    t.line = 1 + before.count '\n' ∧ t.column = 1 + (before.rtakeWhile (· ≠ '\n')).length

section

variable {κ : Type} (kind : TokenKind κ) (before w : List Char)

/-- The word as a token behind the text `before`. -/
def Token.behind : Token κ := ⟨kind, w, Position.start.advanceAll before⟩

theorem Token.offset_behind : (behind kind before w).place.offset = utf8Len before := by
  rw [behind, Position.advanceAll_start]

theorem Token.stop_behind : (behind kind before w).stop = utf8Len (before ++ w) := by
  rw [stop, Position.offset_advanceAll, offset_behind, String.utf8Len_append]
  rfl

variable {kind before w}

/-- A word at its place in a text stands there, if it is the end of the text or not empty. -/
theorem Token.stands_behind {rest : List Char} (hending : kind = .ending → w = [] ∧ rest = [])
    (hne : kind ≠ .ending → w ≠ []) :
    (behind kind before w).spanned.Stands (before ++ (w ++ rest)) := by
  have hstart : (behind kind before w).spanned.start = utf8Len before := offset_behind ..
  have hstop : (behind kind before w).spanned.stop = utf8Len before + utf8Len w := by
    rw [← String.utf8Len_append]
    exact stop_behind ..
  refine ⟨?_, fun h => ?_, fun h => ?_, before, ?_, ?_, ?_⟩
  · rw [hstart, hstop]
    exact Text.slice?_eq_some_iff.mpr ⟨before, rest, (List.append_assoc _ _ _).symm, rfl, rfl⟩
  · obtain ⟨rfl, rfl⟩ := hending h
    rw [hstart, hstop]
    simp
  · have hpos := Nat.pos_of_ne_zero (mt String.utf8Len_eq_zero.mp (hne h))
    omega
  · rw [hstart]
    exact Text.slice?_eq_some_iff.mpr ⟨[], w ++ rest, rfl, rfl, Nat.zero_add _⟩
  · rw [spanned, behind, Position.advanceAll_start]
  · rw [spanned, behind, Position.advanceAll_start]

end

namespace Lexer

variable {κ : Type}

/-- The byte belongs to a match of a rule without a kind. -/
def Skipped (rules : List (LexerRule κ)) (text : List Char) (b : Nat) : Prop :=
  ∃ before w after index rule, text = before ++ (w ++ after) ∧
    LongestMatch ((rules.map LexerRule.meaning).map Prod.fst) (w ++ after) w index ∧
    rules[index]? = some rule ∧ rule.kind = none ∧ utf8Len before ≤ b ∧ b < utf8Len (before ++ w)

/-- The tokens stand in the text one behind the other, all of them behind `before`, and what is not
theirs of the rest has been skipped. -/
structure Laid (rules : List (LexerRule κ)) (before rest : List Char) (ts : List (Token κ)) :
    Prop where
  stands : ∀ t ∈ ts, t.spanned.Stands (before ++ rest)
  behind : ∀ t ∈ ts, utf8Len before ≤ t.place.offset
  ordered : ts.Pairwise fun t u => t.place.offset < u.place.offset ∧ t.stop ≤ u.place.offset
  covered : ∀ b, utf8Len before ≤ b → b < utf8Len (before ++ rest) →
    (∃ t ∈ ts, t.place.offset ≤ b ∧ b < t.stop) ∨ Skipped rules (before ++ rest) b

section

variable {rules : List (LexerRule κ)} {before w rest : List Char} {ts : List (Token κ)}

theorem laid_ending (rules : List (LexerRule κ)) (before : List Char) :
    Laid rules before [] [.behind .ending before []] where
  stands := List.forall_mem_singleton.mpr
    (Token.stands_behind (fun _ => ⟨rfl, rfl⟩) fun h => absurd rfl h)
  behind := List.forall_mem_singleton.mpr (Token.offset_behind ..).ge
  ordered := List.pairwise_singleton ..
  covered := by
    intro b hle hlt
    rw [List.append_nil] at hlt
    omega

theorem Laid.emitted {kind : TokenKind κ} (hne : w ≠ []) (hkind : kind ≠ .ending)
    (h : Laid rules (before ++ w) rest ts) :
    Laid rules before (w ++ rest) (.behind kind before w :: ts) where
  stands := by
    have hstands := h.stands
    rw [List.append_assoc] at hstands
    exact List.forall_mem_cons.mpr
      ⟨Token.stands_behind (fun heq => absurd heq hkind) fun _ => hne, hstands⟩
  behind := by
    refine List.forall_mem_cons.mpr ⟨(Token.offset_behind ..).ge, fun t ht => ?_⟩
    have hle := h.behind t ht
    rw [String.utf8Len_append] at hle
    exact Nat.le_of_add_right_le hle
  ordered := by
    refine List.pairwise_cons.mpr ⟨fun u hu => ?_, h.ordered⟩
    have hpos := Nat.pos_of_ne_zero (mt String.utf8Len_eq_zero.mp hne)
    have hle := h.behind u hu
    rw [Token.offset_behind, Token.stop_behind]
    refine ⟨?_, hle⟩
    rw [String.utf8Len_append] at hle
    omega
  covered := by
    intro b hle hlt
    by_cases hb : b < utf8Len (before ++ w)
    · exact Or.inl ⟨_, List.mem_cons_self, (Token.offset_behind ..).trans_le hle,
        hb.trans_eq (Token.stop_behind ..).symm⟩
    · have hcovered := h.covered b (Nat.le_of_not_lt hb)
      rw [List.append_assoc] at hcovered
      exact (hcovered hlt).imp_left fun ⟨t, ht, hspan⟩ => ⟨t, List.mem_cons_of_mem _ ht, hspan⟩

theorem Laid.skipped {index : Nat} {L : Language Char}
    (hmatch : LongestMatch ((rules.map LexerRule.meaning).map Prod.fst) (w ++ rest) w index)
    (hrule : (rules.map LexerRule.meaning)[index]? = some (L, none))
    (h : Laid rules (before ++ w) rest ts) : Laid rules before (w ++ rest) ts where
  stands := by
    have hstands := h.stands
    rwa [List.append_assoc] at hstands
  behind := by
    intro t ht
    have hle := h.behind t ht
    rw [String.utf8Len_append] at hle
    exact Nat.le_of_add_right_le hle
  ordered := h.ordered
  covered := by
    intro b hle hlt
    by_cases hb : b < utf8Len (before ++ w)
    · obtain ⟨rule, hindex, hkind⟩ := exists_rule hrule
      exact Or.inr ⟨before, w, rest, index, rule, rfl, hmatch, hindex, hkind, hle, hb⟩
    · have hcovered := h.covered b (Nat.le_of_not_lt hb)
      rw [List.append_assoc] at hcovered
      exact hcovered hlt

/-- The reference scan of what stands behind `before` lays its tokens there. -/
theorem Scans.laid
    (h : Scans (rules.map LexerRule.meaning) (Position.start.advanceAll before) rest ts) :
    Laid rules before rest ts := by
  have happend : ∀ before w, Position.start.advanceAll (before ++ w) =
      (Position.start.advanceAll before).advanceAll w := fun before w => List.foldl_append
  generalize hplace : Position.start.advanceAll before = place at h
  induction h generalizing before with
  | ending place => exact hplace ▸ laid_ending rules before
  | @token place w rest index L kind ts hmatch hrule _ ih =>
      subst hplace
      exact (ih (happend before w)).emitted hmatch.nonempty nofun
  | @skip place w rest index L ts hmatch hrule _ ih =>
      subst hplace
      exact (ih (happend before w)).skipped hmatch hrule
  | @invalid place c rest ts _ _ ih =>
      subst hplace
      exact (ih (happend before [c])).emitted (List.cons_ne_nil c []) nofun

end

/-- Reading in place gives out the tokens of a text with their spans: each stands where its span
says, on the line and in the column that are counted from the beginning, they stand one behind the
other, and every byte that belongs to none of them belongs to a match that is skipped. -/
theorem tokensWithin_start (rules : List (LexerRule κ)) (text : List Char) :
    ∃ ts, (ofRules rules).tokensWithin text (text.length + 2) (.ofPlace .start false) = some ts ∧
      ts = ((ofRules rules).scan text).map Token.spanned ∧
      (∀ t ∈ ts, t.Stands text) ∧
      ts.Pairwise (fun t u => t.start < u.start ∧ t.stop ≤ u.start) ∧
      ∀ b < utf8Len text, (∃ t ∈ ts, t.start ≤ b ∧ b < t.stop) ∨ Skipped rules text b := by
  have hscans := scans_scanFrom rules .start text
  have hlaid : Laid rules [] text ((ofRules rules).scan text) := Scans.laid hscans
  have hrun : (ofRules rules).tokensWithin ([] ++ text) (text.length + 2) (.ofPlace .start false) =
      some (((ofRules rules).scan text).map Token.spanned) :=
    tokensWithin_of_scans hscans rfl (Nat.le_refl _)
  refine ⟨_, hrun, rfl, List.forall_mem_map.mpr hlaid.stands,
    List.pairwise_map.mpr hlaid.ordered, fun b hb => ?_⟩
  refine (hlaid.covered b (Nat.zero_le b) hb).imp_left ?_
  rintro ⟨t, ht, hspan⟩
  exact ⟨t.spanned, List.mem_map_of_mem ht, hspan⟩

end Lexer

end ParserForge

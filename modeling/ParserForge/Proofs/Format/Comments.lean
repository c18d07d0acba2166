import Mathlib
import ParserForge.Proofs.Format.Definable
import ParserForge.Proofs.Format.Layout

/-!
Comments.  A comment runs from its sign to the first character that is neither printable in one byte
nor a tab.  In a text of other characters and line ends that is the end of the line, and the grammar
of the text is the one that it has without the comment.  Any other character is refused, inside a
comment as anywhere else, apart from the carriage return, which is a blank.
-/

namespace ParserForge

namespace Format

theorem mapError_eq_ok_iff {ε ε' α : Type} {x : Except ε α} {f : ε → ε'} {a : α} :
    x.mapError f = .ok a ↔ x = .ok a := by
  cases x <;> simp [Except.mapError]

theorem splitOnP_map_unplaced {p : Token TerminalId → Bool} (hp : ∀ t, p t.unplaced = p t)
    (ts : List (Token TerminalId)) :
    (ts.map Token.unplaced).splitOnP p = (ts.splitOnP p).map (List.map Token.unplaced) := by
  induction ts with
  | nil => rfl
  | cons t ts ih =>
      rw [List.map_cons, List.splitOnP_cons_eq_if_modifyHead,
        List.splitOnP_cons_eq_if_modifyHead, hp, ih]
      split
      · rfl
      · cases ts.splitOnP p <;> rfl

theorem bodyOf_map_unplaced (ts : List (Token TerminalId)) :
    bodyOf (ts.map Token.unplaced) = bodyOf ts :=
  List.filterMap_map

theorem ruleOf_map_unplaced (ts : List (Token TerminalId)) :
    ruleOf (ts.map Token.unplaced) = ruleOf ts := by
  have hhead : (ts.map Token.unplaced).head?.map Token.lexeme = ts.head?.map Token.lexeme := by
    cases ts <;> rfl
  simp only [ruleOf, bodiesOf, hhead, ← List.map_drop,
    splitOnP_map_unplaced (p := isBar) fun _ => rfl,
    List.map_map, Function.comp_def, bodyOf_map_unplaced]

/-- The rules that tokens spell do not depend on their places. -/
theorem rulesOf_map_unplaced (ts : List (Token TerminalId)) :
    rulesOf (ts.map Token.unplaced) = rulesOf ts := by
  simp only [rulesOf, ← List.map_dropLast,
    splitOnP_map_unplaced (p := isSemicolon) fun _ => rfl,
    List.map_map, Function.comp_def, ruleOf_map_unplaced]

section

variable {r : Reader} (hreader : reader = .ok r) {text text' : List Char}

include hreader

/-- Whether a text is read, and as which rules, depends on its tokens without their places. -/
theorem read_eq_ok_iff {rs : List RuleDef} : r.read text = .ok rs ↔
    (∀ t ∈ r.lexer.unplacedScan text, t.isValid = true) ∧
      kinds (r.lexer.unplacedScan text) ∈ textForm ∧
        rulesOf (r.lexer.unplacedScan text).dropLast = rs := by
  obtain ⟨rules, hrules, hlexer, htable⟩ := reader_cases hreader
  rw [Lexer.unplacedScan, List.forall_mem_map]
  cases hfind : (r.lexer.scan text).find? fun t => !t.isValid with
  | some t =>
      have hinvalid : t.isValid = false := by simpa using List.find?_some hfind
      have hread : r.read text = .error (.refused t.place (.character t.lexeme)) := by
        simp only [Reader.read, hfind]
      rw [hread]
      refine iff_of_false (fun h => ?_) fun h => ?_
      · cases h
      · rw [← t.isValid_unplaced, h.1 t (List.mem_of_find?_eq_some hfind)] at hinvalid
        cases hinvalid
  | none =>
      have hvalid : ∀ t ∈ r.lexer.scan text, t.unplaced.isValid = true := by
        simpa using List.find?_eq_none.mp hfind
      have hread : r.read text = r.readTokens (r.lexer.scan text) := by
        simp only [Reader.read, hfind]
      rw [hread, and_iff_right hvalid]
      rw [hlexer] at hfind ⊢
      obtain ⟨input, last, hscan, hlast, hinput⟩ := scan_proper hrules hfind
      have hend : last.terminal = none := by rw [Token.terminal, hlast]
      have hkinds : kinds ((input ++ [last]).map Token.unplaced) = kinds input := by
        simp [kinds, Function.comp_def, hend]
      rw [hscan, hkinds, ← List.map_dropLast, List.dropLast_concat, rulesOf_map_unplaced]
      by_cases hform : kinds input ∈ textForm
      · rw [readTokens_of_mem htable hinput hlast hform, and_iff_right hform, Except.ok.injEq]
      · obtain ⟨_, _, _, -, -, -, hrefused⟩ := readTokens_of_notMem htable hinput hlast hform
        rw [hrefused]
        refine iff_of_false (fun h => ?_) fun h => hform h.1
        cases h

theorem parse_eq_ok_iff {g : Grammar} :
    parse text = .ok g ↔ ∃ rules, r.read text = .ok rules ∧ define rules = .ok g := by
  delta parse
  split
  · next e he => cases hreader.symm.trans he
  · next r' hr' =>
      obtain rfl : r = r' := Except.ok.inj (hreader.symm.trans hr')
      cases r.read text with
      | error e => simp
      | ok rules => simp [mapError_eq_ok_iff]

/-- Texts with the same tokens apart from their places have the same grammar. -/
theorem parse_congr (h : r.lexer.unplacedScan text = r.lexer.unplacedScan text') (g : Grammar) :
    parse text = .ok g ↔ parse text' = .ok g := by
  simp only [parse_eq_ok_iff hreader, read_eq_ok_iff hreader, h]

/-- A text with an invalid token has none. -/
theorem parse_eq_error_of_invalid (h : ∃ t ∈ r.lexer.scan text, t.kind = .invalid) :
    ∃ e, parse text = .error e := by
  obtain ⟨t, ht, hkind⟩ := h
  cases hparse : parse text with
  | error e => exact ⟨e, rfl⟩
  | ok g =>
      obtain ⟨rules, hread, -⟩ := (parse_eq_ok_iff hreader).mp hparse
      have hvalid := ((read_eq_ok_iff hreader).mp hread).1 _ (List.mem_map_of_mem ht)
      rw [Token.isValid_unplaced, Token.isValid, hkind] at hvalid
      cases hvalid

end

/-- Take a sign of comments at which the scan of a text begins anew, and let the comment go on to
the end of its line.  The text has the grammar that it has without the sign and the plain characters
behind it.  So it has the grammar that it has without the whole comment if no character of that is
left but carriage returns, and it has no grammar if there is any other character that is not
plain. -/
theorem parse_comment {r : Reader} (hreader : reader = .ok r) {before comment after : List Char}
    (hcuts : r.lexer.Cuts before ('#' :: (comment ++ after))) (hline : '\n' ∉ comment)
    (hafter : after = [] ∨ after.head? = some '\n') :
    (∀ g, parse (before ++ '#' :: (comment ++ after)) = .ok g ↔
      parse (before ++ (comment.dropWhile isPlain ++ after)) = .ok g) ∧
    ((∀ c ∈ comment.dropWhile isPlain, c = '\r') →
      ∀ g, parse (before ++ '#' :: (comment ++ after)) = .ok g ↔
        parse (before ++ after) = .ok g) ∧
    ((∃ c ∈ comment, isPlain c = false ∧ c ≠ '\r') →
      ∃ e, parse (before ++ '#' :: (comment ++ after)) = .error e) := by
  obtain ⟨rules, hrules, hlexer, -⟩ := reader_cases hreader
  have hend : ∀ c, after.head? = some c → isPlain c = false := by
    intro c hc
    rcases hafter with rfl | hnewline
    · cases hc
    · obtain rfl := Option.some.inj (hnewline.symm.trans hc)
      decide
  have hleft := head?_dropWhile isPlain comment
  have hplain : ∀ c ∈ comment.takeWhile isPlain, isPlain c = true := fun c hc =>
    List.mem_takeWhile_imp hc
  have hsplit := comment.takeWhile_append_dropWhile (p := isPlain)
  generalize comment.takeWhile isPlain = run, comment.dropWhile isPlain = left at *
  subst hsplit
  have hhead : ∀ c, (left ++ after).head? = some c → isPlain c = false := by
    cases left with
    | nil => exact hend
    | cons => exact hleft
  rw [hlexer, List.append_assoc] at hcuts
  rw [List.append_assoc]
  refine ⟨fun g => parse_congr hreader ?_ g, fun hreturns g => parse_congr hreader ?_ g, ?_⟩
  · rw [hlexer]
    exact unplacedScan_of_cuts_comment hrules [] hcuts hplain hhead
      (fun _ hc => absurd hc List.not_mem_nil) hhead
  · have hspacing : ∀ c ∈ left, isSpacing c = true := fun c hc => hreturns c hc ▸ rfl
    rw [hlexer]
    exact unplacedScan_of_cuts_comment hrules left hcuts hplain hhead hspacing hend
  · rintro ⟨c, hc, hno, hreturn⟩
    apply parse_eq_error_of_invalid hreader
    rw [hlexer]
    refine exists_invalid hrules (c := c) ?_ hno ?_
    · rw [← List.append_assoc run]
      exact List.mem_append_right before (List.mem_cons_of_mem _ (List.mem_append_left after hc))
    · rw [Bool.eq_false_iff, Ne, isSpacing_iff]
      rintro (rfl | rfl | hc' | rfl)
      · cases hno
      · cases hno
      · exact hreturn hc'
      · exact hline hc

namespace OneRule

def text : List Char := "S->a;".toList

def tokens : List (Token TerminalId) :=
  [⟨.terminal Rule.ident, ['S'], ⟨0, 1, 1⟩⟩, ⟨.terminal Rule.arrow, ['-', '>'], ⟨1, 1, 2⟩⟩,
    ⟨.terminal Rule.ident, ['a'], ⟨3, 1, 4⟩⟩, ⟨.terminal Rule.semicolon, [';'], ⟨4, 1, 5⟩⟩]

/-- A comment in front of a carriage return. -/
def comment : List Char := [' ', '|', '\r']

theorem scan_text {rules : List (LexerRule TerminalId)} (h : tokenRules = .ok rules) :
    (Lexer.ofRules rules).scan text = tokens ++ [⟨.ending, [], ⟨5, 1, 6⟩⟩] := by
  obtain rfl := Except.ok.inj h
  rw [Lexer.scan, Lexer.scanFrom_ofRules]
  decide +kernel

theorem kinds_tokens_mem : kinds tokens ∈ textForm := by
  have halternative : [Rule.ident] ++ [] ∈ alternativeForm :=
    Or.inl (Language.append_mem_mul (Or.inl rfl) (Language.nil_mem_kstar _))
  have hbodies : [Rule.ident] ++ [] ++ [] ∈ alternativesForm :=
    Language.append_mem_mul halternative (Language.nil_mem_kstar _)
  have hrule : [Rule.ident] ++ [Rule.arrow] ++ _ ++ [Rule.semicolon] ∈ ruleForm :=
    Language.append_mem_mul
      (Language.append_mem_mul (Language.append_mem_mul rfl rfl) hbodies) rfl
  exact Language.append_mem_mul hrule (Language.nil_mem_kstar _)

theorem exists_parse {r : Reader} (hreader : reader = .ok r) : ∃ g, parse text = .ok g := by
  obtain ⟨r', hreader', hread⟩ := exists_read (fun _ => scan_text) (by decide) kinds_tokens_mem
  obtain rfl : r = r' := Except.ok.inj (hreader.symm.trans hreader')
  have hdefine : define (rulesOf tokens) = .ok (grammarOf (rulesOf tokens)) := by decide +kernel
  exact ⟨_, (parse_eq_ok_iff hreader).mpr ⟨_, hread, hdefine⟩⟩

theorem cuts {rules : List (LexerRule TerminalId)} (h : tokenRules = .ok rules) :
    (Lexer.ofRules rules).Cuts text ('#' :: (comment ++ [])) := by
  obtain rfl := Except.ok.inj h
  refine @Lexer.Cuts.behind _ _ ['S'] "->a;".toList _ 6 ?_
    (@Lexer.Cuts.behind _ _ ['-', '>'] "a;".toList _ 3 ?_
      (@Lexer.Cuts.behind _ _ ['a'] [';'] _ 6 ?_
        (@Lexer.Cuts.behind _ _ [';'] [] _ 5 ?_ (.here _))))
  all_goals
    rw [Lexer.longestMatch_ofRules]
    decide +kernel

end OneRule

theorem parse_comment_text : ∃ r, reader = .ok r ∧
    r.lexer.Cuts OneRule.text ('#' :: (OneRule.comment ++ [])) ∧
      ∃ g, parse (OneRule.text ++ '#' :: (OneRule.comment ++ [])) = .ok g := by
  obtain ⟨r, hreader⟩ := exists_reader
  obtain ⟨rules, hrules, hlexer, -⟩ := reader_cases hreader
  have hcuts := OneRule.cuts hrules
  rw [← hlexer] at hcuts
  obtain ⟨g, hg⟩ := OneRule.exists_parse hreader
  obtain ⟨-, hwithout, -⟩ := parse_comment hreader hcuts (by decide) (Or.inl rfl)
  refine ⟨r, hreader, hcuts, g, (hwithout (List.forall_mem_singleton.mpr rfl) g).mpr ?_⟩
  rwa [List.append_nil]

/-- Deleting a comment up to the end of its line may turn a text that is refused into the text of a
grammar. -/
theorem parse_without_accent : ∃ r, reader = .ok r ∧
    r.lexer.Cuts [] ('#' :: (" é".toList ++ '\n' :: OneRule.text)) ∧
      (∃ e, parse ('#' :: (" é".toList ++ '\n' :: OneRule.text)) = .error e) ∧
        ∃ g, parse ('\n' :: OneRule.text) = .ok g := by
  obtain ⟨r, hreader⟩ := exists_reader
  obtain ⟨rules, hrules, hlexer, -⟩ := reader_cases hreader
  obtain ⟨g, hg⟩ := OneRule.exists_parse hreader
  refine ⟨r, hreader, .here _, ?_, g, ?_⟩
  · apply parse_eq_error_of_invalid hreader
    rw [hlexer]
    exact exists_invalid hrules (c := 'é') (by decide) (by decide) (by decide)
  · have hsame : r.lexer.unplacedScan ('\n' :: OneRule.text) =
        r.lexer.unplacedScan OneRule.text := by
      rw [hlexer]
      exact unplacedScan_spacing hrules (w := ['\n']) (List.forall_mem_singleton.mpr rfl) _
    exact (parse_congr hreader hsame g).mpr hg

end Format

end ParserForge

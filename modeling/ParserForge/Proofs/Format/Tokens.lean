import Mathlib
import ParserForge.Proofs.Format.Values
import ParserForge.Proofs.Lexer.MaximalMunch

/-!
The tokens of a text.  Their kinds are terminals of the format, and a lexeme begins with a quote if
it is one of a name between quotes, so it tells what its kind tells.
-/

namespace ParserForge.Format

variable {rules : List (LexerRule TerminalId)} {t : Token TerminalId} {w : List Char}

/-- Names begin with a letter or an underscore. -/
theorem head?_of_mem_ident (h : w ∈ Regex.patternLanguage "[A-Za-z_][A-Za-z0-9_']*".toList) :
    w.head? ≠ some '\'' := by
  rw [Regex.patternLanguage_of_parse (r := .concat (.oneOf [⟨'A', 'Z'⟩, ⟨'a', 'z'⟩, ⟨'_', '_'⟩])
    (.star (.oneOf [⟨'A', 'Z'⟩, ⟨'a', 'z'⟩, ⟨'0', '9'⟩, ⟨'_', '_'⟩, ⟨'\'', '\''⟩]))) rfl] at h
  obtain ⟨_, ⟨c, rfl, hc⟩, rest, _, rfl⟩ := Language.mem_mul.mp h
  intro hhead
  obtain rfl : c = '\'' := Option.some.inj hhead
  revert hc
  decide

/-- Names between quotes stand between quotes. -/
theorem exists_of_mem_quoted (h : w ∈ Regex.patternLanguage "'[!-&(-~]+'".toList) :
    ∃ name, w = '\'' :: (name ++ ['\'']) := by
  rw [Regex.patternLanguage_of_parse (r := .concat (.concat (.literal '\'')
    (.plus (.oneOf [⟨'!', '&'⟩, ⟨'(', '~'⟩]))) (.literal '\'')) rfl] at h
  obtain ⟨_, hfirst, _, rfl, rfl⟩ := Language.mem_mul.mp h
  obtain ⟨_, rfl, name, _, rfl⟩ := Language.mem_mul.mp hfirst
  exact ⟨name, rfl⟩

/-- What the rules for tokens guarantee of a kind and of the lexemes of that kind. -/
theorem lexeme_of_rule (h : tokenRules = .ok rules) {L : Language Char} {kind : TerminalId}
    (hrule : (L, some kind) ∈ rules.map LexerRule.meaning) (hw : w ∈ L) :
    (kind = Rule.ident ∧ w.head? ≠ some '\'') ∨
      (kind = Rule.quoted ∧ ∃ name, w = '\'' :: (name ++ ['\''])) ∨
        kind ∈ [Rule.arrow, Rule.bar, Rule.semicolon, Rule.empty] := by
  rw [LexerRule.meaning_ofPatterns h] at hrule
  simp only [List.map_cons, List.map_nil, List.mem_cons, Prod.mk.injEq, reduceCtorEq, and_false,
    Option.some.injEq, List.not_mem_nil, or_false, false_or] at hrule
  rcases hrule with ⟨_, rfl⟩ | ⟨_, rfl⟩ | ⟨_, rfl⟩ | ⟨_, rfl⟩ | ⟨rfl, rfl⟩ | ⟨rfl, rfl⟩
  · exact Or.inr (Or.inr (by decide))
  · exact Or.inr (Or.inr (by decide))
  · exact Or.inr (Or.inr (by decide))
  · exact Or.inr (Or.inr (by decide))
  · exact Or.inl ⟨rfl, head?_of_mem_ident hw⟩
  · exact Or.inr (Or.inl ⟨rfl, exists_of_mem_quoted hw⟩)

/-- The token is of a kind of the format, and if that is one of symbols, its lexeme tells which
symbol it stands for. -/
structure Proper (t : Token TerminalId) : Prop where
  kind : ∃ k, t.kind = .terminal k ∧ metaGrammar.IsUserTerminal k
  symbol : ∀ k, t.terminal = some k → k = Rule.ident ∨ k = Rule.quoted →
    symbolRef? t = some (symbolOf t.lexeme)

theorem Proper.exists_terminal (h : Proper t) :
    ∃ k, t.terminal = some k ∧ metaGrammar.IsUserTerminal k := by
  obtain ⟨k, hk, huser⟩ := h.kind
  exact ⟨k, by rw [Token.terminal, hk], huser⟩

theorem proper_of_rule (h : tokenRules = .ok rules) {L : Language Char} {kind : TerminalId}
    (hrule : (L, some kind) ∈ rules.map LexerRule.meaning) (hkind : t.kind = .terminal kind)
    (hlexeme : t.lexeme ∈ L) : Proper t := by
  have hterminal : t.terminal = some kind := by rw [Token.terminal, hkind]
  rcases lexeme_of_rule h hrule hlexeme with ⟨rfl, hhead⟩ | ⟨rfl, name, hname⟩ | hother
  · refine ⟨⟨Rule.ident, hkind, by decide, by decide⟩, fun _ _ _ => ?_⟩
    rw [symbolRef?, if_pos hterminal, symbolOf, if_neg hhead]
  · refine ⟨⟨Rule.quoted, hkind, by decide, by decide⟩, fun _ _ _ => ?_⟩
    have hhead : t.lexeme.head? = some '\'' := by rw [hname]; rfl
    rw [symbolRef?, if_neg (by rw [hterminal]; decide), if_pos hterminal, symbolOf, if_pos hhead]
  · have hall : ∀ k ∈ [Rule.arrow, Rule.bar, Rule.semicolon, Rule.empty],
        (2 ≤ k ∧ k < 8) ∧ ¬(k = Rule.ident ∨ k = Rule.quoted) := by decide
    obtain ⟨huser, hno⟩ := hall kind hother
    refine ⟨⟨kind, hkind, huser⟩, fun k hk hcases => ?_⟩
    rw [hterminal, Option.some.injEq] at hk
    rw [← hk] at hcases
    exact absurd hcases hno

/-- The tokens of a text are those of the format, some of which may be invalid, and the end. -/
theorem scan_cases (h : tokenRules = .ok rules) (text : List Char) :
    ∃ input last, (Lexer.ofRules rules).scan text = input ++ [last] ∧ last.kind = .ending ∧
      ∀ t ∈ input, t.kind = .invalid ∨ Proper t := by
  obtain ⟨input, last, heq, hlast, hinput⟩ := (Lexer.scans_scanFrom rules .start text).tokens
  refine ⟨input, last, heq, hlast, fun t ht => ?_⟩
  rcases hinput t ht with hinvalid | ⟨L, kind, hrule, hkind, hlexeme⟩
  · exact Or.inl hinvalid
  · exact Or.inr (proper_of_rule h hrule hkind hlexeme)

/-- Without an invalid one, they are all of the format up to the end. -/
theorem scan_proper (h : tokenRules = .ok rules) {text : List Char}
    (hvalid : ((Lexer.ofRules rules).scan text).find? (fun t => !t.isValid) = none) :
    ∃ input last, (Lexer.ofRules rules).scan text = input ++ [last] ∧ last.kind = .ending ∧
      ∀ t ∈ input, Proper t := by
  obtain ⟨input, last, heq, hlast, hinput⟩ := scan_cases h text
  refine ⟨input, last, heq, hlast, fun t ht => (hinput t ht).resolve_left fun hinvalid => ?_⟩
  have hmem : t ∈ (Lexer.ofRules rules).scan text := by
    rw [heq]
    exact List.mem_append_left _ ht
  have hno := List.find?_eq_none.mp hvalid t hmem
  rw [Token.isValid, hinvalid] at hno
  exact hno rfl

end ParserForge.Format

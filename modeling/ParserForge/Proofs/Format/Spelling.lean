import Mathlib
import ParserForge.Proofs.Format.Reading
import ParserForge.Proofs.Grammar.Declaring

/-!
The names of the rules that a text spells.  They consist of printable characters other than blanks,
since the patterns of the format mention no other character, and only a name between quotes may
begin with the sign of the reserved names.
-/

namespace ParserForge

namespace Regex

open Computability

/-- Whether the character is one that the expression mentions. -/
def Mentions : Regex → Char → Prop
  | empty, _ => False
  | literal d, c => c = d
  | oneOf ranges, c => ∃ r ∈ ranges, r.contains c = true
  | concat a b, c | alt a b, c => a.Mentions c ∨ b.Mentions c
  | star a, c | plus a, c | optional a, c => a.Mentions c

theorem mentions_of_mem_kstar {a : Regex}
    (h : ∀ w ∈ a.language, ∀ c ∈ w, a.Mentions c) {w : List Char} (hw : w ∈ a.language∗) :
    ∀ c ∈ w, a.Mentions c := by
  obtain ⟨ws, rfl, hws⟩ := Language.mem_kstar.mp hw
  intro c hc
  obtain ⟨v, hv, hc⟩ := List.mem_flatten.mp hc
  exact h v (hws v hv) c hc

/-- A word that an expression matches consists of characters that it mentions. -/
theorem mentions_of_mem (r : Regex) : ∀ w ∈ r.language, ∀ c ∈ w, r.Mentions c := by
  induction r with
  | empty =>
      rintro _ rfl c hc
      exact absurd hc List.not_mem_nil
  | literal d =>
      rintro _ rfl c hc
      exact List.mem_singleton.mp hc
  | oneOf ranges =>
      rintro _ ⟨d, rfl, hd⟩ c hc
      exact List.mem_singleton.mp hc ▸ hd
  | concat a b iha ihb =>
      intro w hw c hc
      obtain ⟨u, hu, v, hv, rfl⟩ := Language.mem_mul.mp hw
      rcases List.mem_append.mp hc with hc | hc
      · exact Or.inl (iha u hu c hc)
      · exact Or.inr (ihb v hv c hc)
  | alt a b iha ihb =>
      rintro w (hw | hw) c hc
      · exact Or.inl (iha w hw c hc)
      · exact Or.inr (ihb w hw c hc)
  | star a iha =>
      intro w hw
      exact mentions_of_mem_kstar iha hw
  | plus a iha =>
      intro w hw c hc
      obtain ⟨u, hu, v, hv, rfl⟩ := Language.mem_mul.mp hw
      rcases List.mem_append.mp hc with hc | hc
      · exact iha u hu c hc
      · exact mentions_of_mem_kstar iha hv c hc
  | optional a iha =>
      rintro w (hw | rfl) c hc
      · exact iha w hw c hc
      · exact absurd hc List.not_mem_nil

end Regex

namespace Format

open Definition (IsName)

/-- The name of a symbol could be declared, unless it begins with the sign of the reserved names,
which it may do between quotes. -/
structure SymbolRef.Spelled (s : SymbolRef) : Prop where
  nonempty : s.name.toList ≠ []
  unblank : s.name.toList.any Text.isBlank = false
  unreserved : s.quoted = false → s.name.toList.head? ≠ some '$'

/-- The names of a rule. -/
structure RuleDef.Spelled (r : RuleDef) : Prop where
  head : IsName r.head
  symbols : ∀ body ∈ r.alternatives, ∀ s ∈ body, s.Spelled

/-- Printable characters of one byte. -/
def IsGraphic (c : Char) : Prop := 0x21 ≤ c.toNat ∧ c.toNat ≤ 0x7e

theorem IsGraphic.isBlank_eq_false {c : Char} (h : IsGraphic c) : Text.isBlank c = false := by
  obtain ⟨hlow, hhigh⟩ := h
  simp only [Text.isBlank, Bool.or_eq_false_iff, Bool.and_eq_false_iff, decide_eq_false_iff_not,
    beq_eq_false_iff_ne]
  omega

theorem any_isBlank_eq_false {w : List Char} (h : ∀ c ∈ w, IsGraphic c) :
    w.any Text.isBlank = false := by
  rw [List.any_eq_false]
  intro c hc
  rw [(h c hc).isBlank_eq_false]
  exact Bool.false_ne_true

theorem contains_iff {r : CharRange} {c : Char} :
    r.contains c = true ↔ r.lo.toNat ≤ c.toNat ∧ c.toNat ≤ r.hi.toNat := by
  simp only [CharRange.contains, Bool.and_eq_true, decide_eq_true_eq]
  exact Iff.rfl

/-- A name begins with a letter or an underscore. -/
theorem isName_of_mem_ident {w : List Char}
    (h : w ∈ Regex.patternLanguage "[A-Za-z_][A-Za-z0-9_']*".toList) :
    IsName (String.ofList w) := by
  rw [Regex.patternLanguage_of_parse (r := .concat (.oneOf [⟨'A', 'Z'⟩, ⟨'a', 'z'⟩, ⟨'_', '_'⟩])
    (.star (.oneOf [⟨'A', 'Z'⟩, ⟨'a', 'z'⟩, ⟨'0', '9'⟩, ⟨'_', '_'⟩, ⟨'\'', '\''⟩]))) rfl] at h
  have hgraphic : ∀ c ∈ w, IsGraphic c := by
    intro c hc
    have hmentions := Regex.mentions_of_mem _ w h c hc
    simp [Regex.Mentions, contains_iff] at hmentions
    simp only [IsGraphic]
    omega
  obtain ⟨_, ⟨c, rfl, hc⟩, rest, _, rfl⟩ := Language.mem_mul.mp h
  refine ⟨by simp, ?_, ?_⟩
  · intro hhead
    obtain rfl : c = '$' := by simpa using hhead
    revert hc
    decide
  · rw [String.toList_ofList]
    exact any_isBlank_eq_false hgraphic

/-- What stands between quotes is not empty. -/
theorem exists_name_of_mem_quoted {w : List Char}
    (h : w ∈ Regex.patternLanguage "'[!-&(-~]+'".toList) :
    ∃ name, w = '\'' :: (name ++ ['\'']) ∧ name ≠ [] ∧ ∀ c ∈ name, IsGraphic c := by
  rw [Regex.patternLanguage_of_parse (r := .concat (.concat (.literal '\'')
    (.plus (.oneOf [⟨'!', '&'⟩, ⟨'(', '~'⟩]))) (.literal '\'')) rfl] at h
  obtain ⟨_, hfirst, _, rfl, rfl⟩ := Language.mem_mul.mp h
  obtain ⟨_, rfl, name, hname, rfl⟩ := Language.mem_mul.mp hfirst
  refine ⟨name, rfl, ?_, ?_⟩
  · obtain ⟨_, ⟨c, rfl, _⟩, rest, _, rfl⟩ := Language.mem_mul.mp hname
    exact List.cons_ne_nil c rest
  · intro c hc
    have hmentions := Regex.mentions_of_mem _ name hname c hc
    simp [Regex.Mentions, contains_iff] at hmentions
    simp only [IsGraphic]
    omega

/-- The symbol that the token stands for, if it stands for one, is spelled with a name, and so is
the head. -/
structure Named (t : Token TerminalId) : Prop where
  head : t.terminal = some Rule.ident → IsName (String.ofList t.lexeme)
  symbol : t.terminal = some Rule.ident ∨ t.terminal = some Rule.quoted →
    (symbolOf t.lexeme).Spelled

/-- Names and names between quotes are the tokens of two of the patterns. -/
theorem pattern_of_rule {rules : List (LexerRule TerminalId)} (h : tokenRules = .ok rules)
    {L : Language Char} {kind : TerminalId} (hrule : (L, some kind) ∈ rules.map LexerRule.meaning) :
    (kind = Rule.ident ∧ L = Regex.patternLanguage "[A-Za-z_][A-Za-z0-9_']*".toList) ∨
      (kind = Rule.quoted ∧ L = Regex.patternLanguage "'[!-&(-~]+'".toList) ∨
        (kind ≠ Rule.ident ∧ kind ≠ Rule.quoted) := by
  rw [LexerRule.meaning_ofPatterns h] at hrule
  simp only [List.map_cons, List.map_nil, List.mem_cons, Prod.mk.injEq, reduceCtorEq, and_false,
    Option.some.injEq, List.not_mem_nil, or_false, false_or] at hrule
  rcases hrule with ⟨_, rfl⟩ | ⟨_, rfl⟩ | ⟨_, rfl⟩ | ⟨_, rfl⟩ | ⟨hL, rfl⟩ | ⟨hL, rfl⟩
  · exact Or.inr (Or.inr (by decide))
  · exact Or.inr (Or.inr (by decide))
  · exact Or.inr (Or.inr (by decide))
  · exact Or.inr (Or.inr (by decide))
  · exact Or.inl ⟨rfl, hL⟩
  · exact Or.inr (Or.inl ⟨rfl, hL⟩)

theorem named_of_rule {rules : List (LexerRule TerminalId)} {t : Token TerminalId}
    (h : tokenRules = .ok rules) {L : Language Char} {kind : TerminalId}
    (hrule : (L, some kind) ∈ rules.map LexerRule.meaning) (hkind : t.kind = .terminal kind)
    (hlexeme : t.lexeme ∈ L) : Named t := by
  have hterminal : t.terminal = some kind := by rw [Token.terminal, hkind]
  rcases pattern_of_rule h hrule with ⟨rfl, rfl⟩ | ⟨rfl, rfl⟩ | ⟨hident, hquoted⟩
  · have hname := isName_of_mem_ident hlexeme
    refine ⟨fun _ => hname, fun _ => ?_⟩
    rw [symbolOf, if_neg (head?_of_mem_ident hlexeme)]
    exact ⟨hname.1, hname.2.2, fun _ => hname.2.1⟩
  · refine ⟨fun hhead => ?_, fun _ => ?_⟩
    · rw [hterminal] at hhead
      cases hhead
    · obtain ⟨name, hname, hne, hgraphic⟩ := exists_name_of_mem_quoted hlexeme
      have hsymbol : symbolOf t.lexeme = ⟨String.ofList name, true⟩ := by
        simp [symbolOf, hname]
      rw [hsymbol]
      refine ⟨by simpa using hne, ?_, fun hquoted => ?_⟩
      · rw [String.toList_ofList]
        exact any_isBlank_eq_false hgraphic
      · cases hquoted
  · refine ⟨fun hhead => absurd ?_ hident, fun hsymbol => ?_⟩
    · rwa [hterminal, Option.some.injEq] at hhead
    · rw [hterminal, Option.some.injEq, Option.some.injEq] at hsymbol
      rcases hsymbol with hsymbol | hsymbol
      · exact absurd hsymbol hident
      · exact absurd hsymbol hquoted

/-- The tokens of a text are spelled with names where they have to be. -/
theorem named_of_mem_scan {rules : List (LexerRule TerminalId)} (h : tokenRules = .ok rules)
    {text : List Char} {t : Token TerminalId} (ht : t ∈ (Lexer.ofRules rules).scan text) :
    Named t := by
  have hnone : t.terminal = none → Named t := fun hnone =>
    ⟨fun hhead => absurd (hnone.symm.trans hhead) nofun,
      fun hsymbol => by simp [hnone] at hsymbol⟩
  obtain ⟨before, last, heq, hlast, hbefore⟩ := (Lexer.scans_scanFrom rules .start text).tokens
  rw [Lexer.scan, heq] at ht
  rcases List.mem_append.mp ht with ht | ht
  · rcases hbefore t ht with hinvalid | ⟨L, kind, hrule, hkind, hlexeme⟩
    · exact hnone (by rw [Token.terminal, hinvalid])
    · exact named_of_rule h hrule hkind hlexeme
  · rw [List.mem_singleton.mp ht] at hnone ⊢
    exact hnone (by rw [Token.terminal, hlast])

/-- The values of the parts of a text, by the numbers of `Rule`, are made of names. -/
def NamedNode : Symbol → Node → Prop
  | .terminal k, node => ∃ t, node = .token t ∧ t.terminal = some k ∧ Named t
  | .nonterminal 0, _ => True
  | .nonterminal 2, node => ∃ r, node = .rule r ∧ r.Spelled
  | .nonterminal 3, node =>
      ∃ bodies, node = .alternatives bodies ∧ ∀ body ∈ bodies, ∀ s ∈ body, s.Spelled
  | .nonterminal 4, node => ∃ ss, node = .sequence ss ∧ ∀ s ∈ ss, s.Spelled
  | .nonterminal 5, node => ∃ s, node = .symbol s ∧ s.Spelled
  | .nonterminal _, node => ∃ rs, node = .rules rs ∧ rs ≠ [] ∧ ∀ r ∈ rs, r.Spelled

/-- A rule of the format makes a value of names out of such values. -/
theorem namedNode_rule (r : Rule) {nodes : List Node} (h : List.Forall₂ NamedNode r.body nodes) :
    NamedNode (.nonterminal r.head) (reduce r nodes) := by
  cases r <;> simp only [Rule.body, List.forall₂_cons_left_iff, List.forall₂_nil_left_iff] at h
  case rulesMany =>
    obtain ⟨_, _, ⟨rs, rfl, hne, hrs⟩, ⟨_, _, ⟨r, rfl, hr⟩, rfl, rfl⟩, rfl⟩ := h
    refine ⟨rs ++ [r], rfl, by simp, ?_⟩
    simpa [or_imp, forall_and] using ⟨hrs, hr⟩
  case rulesOne =>
    obtain ⟨_, _, ⟨r, rfl, hr⟩, rfl, rfl⟩ := h
    exact ⟨[r], rfl, by simp, List.forall_mem_singleton.mpr hr⟩
  case rule =>
    obtain ⟨_, _, ⟨head, rfl, hhead, hnamed⟩, ⟨_, _, _, ⟨_, _, ⟨bodies, rfl, hbodies⟩,
      ⟨_, _, _, rfl, rfl⟩, rfl⟩, rfl⟩, rfl⟩ := h
    exact ⟨_, rfl, hnamed.head hhead, hbodies⟩
  case alternativesMany =>
    obtain ⟨_, _, ⟨bodies, rfl, hbodies⟩,
      ⟨_, _, _, ⟨_, _, ⟨ss, rfl, hss⟩, rfl, rfl⟩, rfl⟩, rfl⟩ := h
    refine ⟨bodies ++ [ss], rfl, ?_⟩
    simpa [or_imp, forall_and] using ⟨hbodies, hss⟩
  case alternativesOne =>
    obtain ⟨_, _, ⟨ss, rfl, hss⟩, rfl, rfl⟩ := h
    exact ⟨[ss], rfl, List.forall_mem_singleton.mpr hss⟩
  case sequenceMany =>
    obtain ⟨_, _, ⟨ss, rfl, hss⟩, ⟨_, _, ⟨s, rfl, hs⟩, rfl, rfl⟩, rfl⟩ := h
    refine ⟨ss ++ [s], rfl, ?_⟩
    simpa [or_imp, forall_and] using ⟨hss, hs⟩
  case sequenceOne =>
    obtain ⟨_, _, ⟨s, rfl, hs⟩, rfl, rfl⟩ := h
    exact ⟨[s], rfl, List.forall_mem_singleton.mpr hs⟩
  case sequenceEmpty => exact ⟨[], rfl, by simp⟩
  case symbolNamed =>
    obtain ⟨_, _, ⟨t, rfl, ht, hnamed⟩, rfl, rfl⟩ := h
    exact ⟨_, rfl, hnamed.symbol (Or.inl ht)⟩
  case symbolQuoted =>
    obtain ⟨_, _, ⟨t, rfl, ht, hnamed⟩, rfl, rfl⟩ := h
    exact ⟨_, rfl, hnamed.symbol (Or.inr ht)⟩

theorem exists_reader : ∃ r, reader = .ok r := by
  obtain ⟨table, htable⟩ := exists_table
  obtain ⟨rules, hrules⟩ := exists_tokenRules
  exact ⟨_, reader_eq hrules htable⟩

/-- The parts of the reader that there is. -/
theorem reader_cases {r : Reader} (h : reader = .ok r) : ∃ rules, tokenRules = .ok rules ∧
    r.lexer = .ofRules rules ∧ ParseTable.generate metaGrammar .lr1 = .ok r.table := by
  obtain ⟨table, htable⟩ := exists_table
  obtain ⟨rules, hrules⟩ := exists_tokenRules
  rw [reader_eq hrules htable] at h
  obtain rfl := Except.ok.inj h
  exact ⟨rules, hrules, rfl, htable⟩

/-- A text that is read has no invalid token, and its tokens are parsed and replayed. -/
theorem Reader.exists_derivation {r : Reader} {text : List Char} {rs : List RuleDef}
    (h : r.read text = .ok rs) :
    (r.lexer.scan text).find? (fun t => !t.isValid) = none ∧
      ∃ d, r.table.parse? (kinds ((r.lexer.scan text).filter fun t => t.terminal.isSome)) =
          some (.ok d) ∧
        d.replay ((r.lexer.scan text).filter fun t => t.terminal.isSome) Node.token reduceBy =
          .ok (.rules rs) := by
  simp only [read, readTokens] at h
  split at h
  · cases h
  · next hvalid =>
      refine ⟨hvalid, ?_⟩
      split at h
      · cases h
      · split at h <;> cases h
      · next d hd =>
          refine ⟨d, hd, ?_⟩
          split at h
          · cases h
          · next hreplay => exact Except.ok.inj h ▸ hreplay
          · cases h

/-- The rules that a text spells are one or several, and they are spelled with names. -/
theorem spelled_of_read {r : Reader} (hreader : reader = .ok r) {text : List Char}
    {rs : List RuleDef} (h : r.read text = .ok rs) : rs ≠ [] ∧ ∀ x ∈ rs, x.Spelled := by
  obtain ⟨rules, hrules, hlexer, htable⟩ := reader_cases hreader
  obtain ⟨hvalid, d, hd, hreplay⟩ := r.exists_derivation h
  rw [hlexer] at hvalid
  obtain ⟨input, last, hscan, hlast, hinput⟩ := scan_proper hrules hvalid
  have hnamed : ∀ t ∈ input, Named t := fun t ht =>
    named_of_mem_scan hrules (hscan ▸ List.mem_append_left [last] ht)
  rw [hlexer, hscan, filter_terminal hinput hlast] at hd hreplay
  have htoken : ∀ t ∈ input, NamedNode (.terminal (t.terminal.getD 0)) (.token t) := by
    intro t ht
    obtain ⟨k, hk, _⟩ := (hinput t ht).exists_terminal
    rw [hk]
    exact ⟨t, rfl, hk, hnamed t ht⟩
  obtain ⟨value, hvalue, hnode⟩ := replay_induction htable hinput (P := fun X _ => NamedNode X)
    (fun _ _ => trivial)
    (fun x _ hparts => namedNode_rule x (List.forall₂_map_right_iff.mpr hparts)) htoken hd
  obtain rfl := Except.ok.inj (hvalue.symm.trans hreplay)
  obtain ⟨_, hrs, hspelled⟩ := hnode
  cases hrs
  exact hspelled

end Format

end ParserForge

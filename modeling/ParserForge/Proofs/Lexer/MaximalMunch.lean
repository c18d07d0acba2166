import Mathlib
import ParserForge.Proofs.Lexer.Building
import ParserForge.Proofs.Lexer.Matching

/-!
Maximal munch.  The tokens of a text are those of a reference scan that knows the rules by their
languages only: at each place it takes the longest nonempty prefix of the rest that some rule
matches, for the first rule that matches it, and gives up one character where no rule matches.
-/

namespace ParserForge

namespace Lexer

/-- The word is the longest nonempty prefix of the text that belongs to some language, and the
first language that it belongs to is that at `index`. -/
structure LongestMatch (languages : List (Language Char)) (text w : List Char) (index : Nat) :
    Prop where
  initial : w <+: text
  nonempty : w ≠ []
  first : IsLeast (matching languages w) index
  longest : ∀ v, v <+: text → (matching languages v).Nonempty → v.length ≤ w.length

theorem LongestMatch.unique {languages : List (Language Char)} {text v w : List Char} {i j : Nat}
    (hv : LongestMatch languages text v i) (hw : LongestMatch languages text w j) :
    v = w ∧ i = j := by
  have hle := hw.longest v hv.initial ⟨i, hv.first.1⟩
  have hge := hv.longest w hw.initial ⟨j, hw.first.1⟩
  have hinitial := List.prefix_of_prefix_length_le hv.initial hw.initial hle
  obtain rfl := hinitial.eq_of_length (Nat.le_antisymm hle hge)
  exact ⟨rfl, hv.first.unique hw.first⟩

variable {κ : Type}

/-- The reference scan of a text that starts at the given place.  A rule is a language and the
kind of its tokens, and a rule without a kind passes its matches over. -/
inductive Scans (rules : List (Language Char × Option κ)) :
    Position → List Char → List (Token κ) → Prop where
  | ending (place : Position) : Scans rules place [] [⟨.ending, [], place⟩]
  | token {place : Position} {w rest : List Char} {index : Nat} {L : Language Char} {kind : κ}
      {ts : List (Token κ)} :
      LongestMatch (rules.map Prod.fst) (w ++ rest) w index → rules[index]? = some (L, some kind) →
        Scans rules (place.advanceAll w) rest ts →
          Scans rules place (w ++ rest) (⟨.terminal kind, w, place⟩ :: ts)
  | skip {place : Position} {w rest : List Char} {index : Nat} {L : Language Char}
      {ts : List (Token κ)} :
      LongestMatch (rules.map Prod.fst) (w ++ rest) w index → rules[index]? = some (L, none) →
        Scans rules (place.advanceAll w) rest ts → Scans rules place (w ++ rest) ts
  | invalid {place : Position} {c : Char} {rest : List Char} {ts : List (Token κ)} :
      (∀ v, v <+: c :: rest → v ≠ [] → matching (rules.map Prod.fst) v = ∅) →
        Scans rules (place.advance c) rest ts →
          Scans rules place (c :: rest) (⟨.invalid, [c], place⟩ :: ts)

/-- The last token is the end of the text.  Those before it are invalid, or words of the language of
a rule with their kind. -/
theorem Scans.tokens {rules : List (Language Char × Option κ)} {place : Position}
    {text : List Char} {ts : List (Token κ)} (h : Scans rules place text ts) :
    ∃ before last, ts = before ++ [last] ∧ last.kind = .ending ∧
      ∀ t ∈ before, t.kind = .invalid ∨
        ∃ L kind, (L, some kind) ∈ rules ∧ t.kind = .terminal kind ∧ t.lexeme ∈ L := by
  induction h with
  | ending place => exact ⟨[], _, rfl, rfl, fun _ ht => absurd ht List.not_mem_nil⟩
  | @token _ w _ index L kind _ hmatch hrule _ ih =>
      obtain ⟨before, last, rfl, hlast, hbefore⟩ := ih
      refine ⟨_ :: before, last, rfl, hlast, List.forall_mem_cons.mpr ⟨Or.inr ?_, hbefore⟩⟩
      obtain ⟨L', hL', hw⟩ := hmatch.first.1
      rw [List.getElem?_map, hrule] at hL'
      obtain rfl : L = L' := Option.some.inj hL'
      exact ⟨L, kind, List.mem_of_getElem? hrule, rfl, hw⟩
  | skip _ _ _ ih => exact ih
  | invalid _ _ ih =>
      obtain ⟨before, last, rfl, hlast, hbefore⟩ := ih
      exact ⟨_ :: before, last, rfl, hlast, List.forall_mem_cons.mpr ⟨Or.inl rfl, hbefore⟩⟩

end Lexer

namespace LexerRule

variable {κ : Type}

/-- What the reference scan knows of a rule. -/
def meaning (rule : LexerRule κ) : Language Char × Option κ := (rule.regex.language, rule.kind)

theorem meaning_append {rules extended : List (LexerRule κ)} {pattern : List Char}
    {kind : Option κ} (h : append rules pattern kind = .ok extended) :
    extended.map meaning = rules.map meaning ++ [(Regex.patternLanguage pattern, kind)] := by
  unfold append at h
  split at h
  · cases h
  · next regex hparse =>
      split at h
      · cases h
      · obtain rfl := Except.ok.inj h
        rw [List.map_append, Regex.patternLanguage_of_parse hparse]
        rfl

/-- The rules of a list of patterns have the languages and the kinds of the list. -/
theorem meaning_ofPatterns {patterns : List (List Char × Option κ)} {rules : List (LexerRule κ)}
    (h : ofPatterns patterns = .ok rules) :
    rules.map meaning = patterns.map fun p => (Regex.patternLanguage p.1, p.2) := by
  suffices hfold : ∀ before, patterns.foldlM (fun rules p => append rules p.1 p.2) before =
      .ok rules → rules.map meaning =
        before.map meaning ++ patterns.map fun p => (Regex.patternLanguage p.1, p.2) from
    hfold [] h
  intro before hfold
  clear h
  induction patterns generalizing before with
  | nil =>
      obtain rfl := Except.ok.inj hfold
      simp
  | cons p patterns ih =>
      rw [List.foldlM_cons] at hfold
      cases hp : append before p.1 p.2 with
      | error e =>
          rw [hp] at hfold
          cases hfold
      | ok extended =>
          rw [hp] at hfold
          rw [ih extended hfold, meaning_append hp, List.append_assoc]
          rfl

end LexerRule

namespace Lexer

variable {κ : Type}

theorem mark_ofRules (rules : List (LexerRule κ)) (w : List Char) :
    match (ofRules rules).automaton.mark 0 w with
    | some i => IsLeast (matching ((rules.map LexerRule.meaning).map Prod.fst) w) i
    | none => matching ((rules.map LexerRule.meaning).map Prod.fst) w = ∅ := by
  have hlanguages : (rules.map LexerRule.meaning).map Prod.fst =
      (rules.map LexerRule.regex).map Regex.language := by
    simp [LexerRule.meaning]
  rw [hlanguages]
  exact mark_nfa _ w

/-- The lexer finds the longest match of the languages of its rules. -/
theorem longestMatch_spec (rules : List (LexerRule κ)) (text : List Char) :
    match (ofRules rules).longestMatch text with
    | some (length, index) => ∃ w, w.length = length ∧
        LongestMatch ((rules.map LexerRule.meaning).map Prod.fst) text w index
    | none => ∀ v, v <+: text → v ≠ [] →
        matching ((rules.map LexerRule.meaning).map Prod.fst) v = ∅ := by
  have hspec := longestFrom_spec (ofRules rules).automaton 0 text
  have hmark := mark_ofRules rules
  rw [longestMatch]
  split
  · next length index hlongest =>
      rw [hlongest] at hspec
      obtain ⟨w, hlength, hw⟩ := hspec
      refine ⟨w, hlength, hw.initial, hw.nonempty, ?_, ?_⟩
      · have hfirst := hmark w
        rwa [hw.mark_eq] at hfirst
      · intro v hv hmatching
        by_contra hlt
        have hempty := hmark v
        rw [hw.unmarked v hv (Nat.not_le.mp hlt)] at hempty
        exact hmatching.ne_empty hempty
  · next hnone =>
      rw [hnone] at hspec
      intro v hv hne
      have hempty := hmark v
      rwa [hspec v hv hne] at hempty

theorem longestMatch_eq_some {rules : List (LexerRule κ)} {text w : List Char} {index : Nat}
    (h : LongestMatch ((rules.map LexerRule.meaning).map Prod.fst) text w index) :
    (ofRules rules).longestMatch text = some (w.length, index) := by
  have hspec := longestMatch_spec rules text
  split at hspec
  · next length index' hlongest =>
      obtain ⟨v, rfl, hv⟩ := hspec
      obtain ⟨rfl, rfl⟩ := h.unique hv
      exact hlongest
  · next hnone =>
      have hempty := hspec w h.initial h.nonempty
      exact absurd h.first.1 (hempty ▸ Set.notMem_empty index)

theorem longestMatch_eq_none {rules : List (LexerRule κ)} {text : List Char}
    (h : ∀ v, v <+: text → v ≠ [] →
      matching ((rules.map LexerRule.meaning).map Prod.fst) v = ∅) :
    (ofRules rules).longestMatch text = none := by
  have hspec := longestMatch_spec rules text
  split at hspec
  · next length index hlongest =>
      obtain ⟨w, _, hw⟩ := hspec
      have hempty := h w hw.initial hw.nonempty
      exact absurd hw.first.1 (hempty ▸ Set.notMem_empty index)
  · next hnone => exact hnone

/-- The characters of a match that has been dealt with are passed over. -/
theorem scanFrom_covered (lexer : Lexer κ) (place : Position) (w rest : List Char) :
    lexer.scanFrom place w.length (w ++ rest) =
      lexer.scanFrom (place.advanceAll w) 0 rest := by
  induction w generalizing place with
  | nil => rfl
  | cons c w ih => exact ih (place.advance c)

/-- A match is taken as a whole. -/
theorem scanFrom_of_some {lexer : Lexer κ} {w rest : List Char} {index : Nat}
    (h : lexer.longestMatch (w ++ rest) = some (w.length, index)) (hne : w ≠ [])
    (place : Position) :
    lexer.scanFrom place 0 (w ++ rest) =
      match lexer.rules[index]?.bind LexerRule.kind with
      | none => lexer.scanFrom (place.advanceAll w) 0 rest
      | some kind =>
          ⟨.terminal kind, w, place⟩ :: lexer.scanFrom (place.advanceAll w) 0 rest := by
  cases w with
  | nil => exact absurd rfl hne
  | cons c w =>
      have hrest := scanFrom_covered lexer (place.advance c) w rest
      rw [List.cons_append] at h ⊢
      simp only [scanFrom, h, List.length_cons, Nat.add_sub_cancel, hrest, List.take_succ_cons,
        List.take_left']
      rfl

theorem scanFrom_of_none {lexer : Lexer κ} {c : Char} {rest : List Char}
    (h : lexer.longestMatch (c :: rest) = none) (place : Position) :
    lexer.scanFrom place 0 (c :: rest) =
      ⟨.invalid, [c], place⟩ :: lexer.scanFrom (place.advance c) 0 rest := by
  simp only [scanFrom, h]

theorem kind_ofRules {rules : List (LexerRule κ)} {index : Nat} {L : Language Char}
    {kind : Option κ} (h : (rules.map LexerRule.meaning)[index]? = some (L, kind)) :
    (ofRules rules).rules[index]?.bind LexerRule.kind = kind := by
  rw [List.getElem?_map] at h
  obtain ⟨rule, hrule, hmeaning⟩ := Option.map_eq_some_iff.mp h
  rw [ofRules, hrule, Option.bind_some]
  exact congrArg Prod.snd hmeaning

/-- The lexer follows the reference scan.  The induction is on the length of the text, since a
match takes several characters at once. -/
theorem scans_scanFrom (rules : List (LexerRule κ)) (place : Position) (text : List Char) :
    Scans (rules.map LexerRule.meaning) place text ((ofRules rules).scanFrom place 0 text) := by
  induction hn : text.length using Nat.strong_induction_on generalizing place text with
  | _ n ih =>
      subst hn
      have hspec := longestMatch_spec rules text
      cases text with
      | nil => exact .ending place
      | cons c rest =>
          split at hspec
          · next length index hlongest =>
              obtain ⟨w, rfl, hw⟩ := hspec
              obtain ⟨after, htext⟩ := hw.initial
              have hshorter : after.length < (c :: rest).length := by
                rw [← htext, List.length_append]
                have := List.length_pos_iff.mpr hw.nonempty
                omega
              have hrest := ih after.length hshorter (place.advanceAll w) after rfl
              rw [← htext] at hw hlongest ⊢
              rw [scanFrom_of_some hlongest hw.nonempty]
              obtain ⟨L, hL, _⟩ := hw.first.1
              rw [List.getElem?_map] at hL
              obtain ⟨⟨_, kind⟩, hrule, rfl⟩ := Option.map_eq_some_iff.mp hL
              rw [kind_ofRules hrule]
              cases kind with
              | none => exact .skip hw hrule hrest
              | some kind => exact .token hw hrule hrest
          · next hnone =>
              rw [scanFrom_of_none hnone]
              exact .invalid hspec (ih rest.length (Nat.lt_succ_self _) (place.advance c) rest rfl)

/-- The reference scan has one outcome, the tokens of the lexer. -/
theorem scanFrom_eq {rules : List (LexerRule κ)} {place : Position} {text : List Char}
    {ts : List (Token κ)} (h : Scans (rules.map LexerRule.meaning) place text ts) :
    (ofRules rules).scanFrom place 0 text = ts := by
  induction h with
  | ending place => rfl
  | token hmatch hrule _ ih =>
      rw [scanFrom_of_some (longestMatch_eq_some hmatch) hmatch.nonempty, kind_ofRules hrule, ih]
  | skip hmatch hrule _ ih =>
      rw [scanFrom_of_some (longestMatch_eq_some hmatch) hmatch.nonempty, kind_ofRules hrule, ih]
  | invalid hnone _ ih => rw [scanFrom_of_none (longestMatch_eq_none hnone), ih]

end Lexer

namespace Words

/-- Words, of which one is reserved, numbers that may have a fraction, and blanks to be passed
over. -/
def patterns : List (List Char × Option Nat) :=
  [("if".toList, some 0), ("[a-z]+".toList, some 1), ("[0-9]+(.[0-9]+)?".toList, some 2),
    (" ".toList, none)]

def digits : Regex := .plus (.oneOf [⟨'0', '9'⟩])

def rules : List (LexerRule Nat) :=
  [⟨"if".toList, .concat (.literal 'i') (.literal 'f'), some 0⟩,
    ⟨"[a-z]+".toList, .plus (.oneOf [⟨'a', 'z'⟩]), some 1⟩,
    ⟨"[0-9]+(.[0-9]+)?".toList, .concat digits (.optional (.concat (.literal '.') digits)), some 2⟩,
    ⟨" ".toList, .literal ' ', none⟩]

/-- The reserved word is taken for the earlier of two rules, and the number for the part of it
before the dot, which nothing completes. -/
def tokens : List (Token Nat) :=
  [⟨.terminal 0, ['i', 'f'], ⟨0, 1, 1⟩⟩, ⟨.terminal 1, ['i', 'f', 'x'], ⟨3, 1, 4⟩⟩,
    ⟨.terminal 2, ['1', '2'], ⟨7, 1, 8⟩⟩, ⟨.invalid, ['.'], ⟨9, 1, 10⟩⟩, ⟨.ending, [], ⟨10, 1, 11⟩⟩]

theorem ofPatterns_patterns : LexerRule.ofPatterns patterns = .ok rules := rfl

theorem scan_rules : (Lexer.ofRules rules).scan "if ifx 12.".toList = tokens := by
  rw [Lexer.ofRules, Nfa.determinize_eq]
  decide +kernel

end Words

namespace Lexer

variable {κ : Type}

/-- Maximal munch: the rules of a list of patterns make a lexer, and the tokens of a text are those
of the reference scan for the languages of the patterns. -/
theorem scan_eq_iff {patterns : List (List Char × Option κ)} {rules : List (LexerRule κ)}
    (h : LexerRule.ofPatterns patterns = .ok rules) (text : List Char) (ts : List (Token κ)) :
    ofRules? rules = some (ofRules rules) ∧ ((ofRules rules).scan text = ts ↔
      Scans (patterns.map fun p => (Regex.patternLanguage p.1, p.2)) .start text ts) := by
  refine ⟨ofRules?_eq rules, ?_⟩
  rw [← LexerRule.meaning_ofPatterns h, scan]
  constructor
  · rintro rfl
    exact scans_scanFrom rules .start text
  · exact scanFrom_eq

theorem scan_eq_iff_words : LexerRule.ofPatterns Words.patterns = .ok Words.rules ∧
    Scans (Words.patterns.map fun p => (Regex.patternLanguage p.1, p.2)) .start
      "if ifx 12.".toList Words.tokens :=
  ⟨Words.ofPatterns_patterns, (scan_eq_iff Words.ofPatterns_patterns _ _).2.mp Words.scan_rules⟩

end Lexer

end ParserForge

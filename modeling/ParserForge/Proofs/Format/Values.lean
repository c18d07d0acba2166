import Mathlib
import ParserForge.Format.Reader
import ParserForge.Proofs.Format.Form

/-!
The rules that tokens spell, read off the tokens without a parse: semicolons and bars are the places
to cut at.  What the reader makes of the parts of a text bottom-up is the same, rule by rule of the
format.
-/

namespace ParserForge.Format

/-- The symbol that a token of a body stands for. -/
def symbolRef? (t : Token TerminalId) : Option SymbolRef :=
  if t.terminal = some Rule.ident then some ⟨String.ofList t.lexeme, false⟩
  else if t.terminal = some Rule.quoted then
    some ⟨String.ofList (t.lexeme.drop 1).dropLast, true⟩
  else none

def isBar (t : Token TerminalId) : Bool := t.terminal == some Rule.bar

def isSemicolon (t : Token TerminalId) : Bool := t.terminal == some Rule.semicolon

/-- The symbols of a body.  The mark of the empty body is none. -/
def bodyOf (ts : List (Token TerminalId)) : List SymbolRef := ts.filterMap symbolRef?

/-- The bodies between bars. -/
def bodiesOf (ts : List (Token TerminalId)) : List (List SymbolRef) :=
  (ts.splitOnP isBar).map bodyOf

/-- The rule of a head, an arrow and bodies. -/
def ruleOf (ts : List (Token TerminalId)) : RuleDef :=
  ⟨String.ofList ((ts.head?.map Token.lexeme).getD []), bodiesOf (ts.drop 2)⟩

/-- The rules that are each ended by a semicolon. -/
def rulesOf (ts : List (Token TerminalId)) : List RuleDef :=
  (ts.dropLast.splitOnP isSemicolon).map ruleOf

/-- What the parts of a text stand for, by the numbers of `Rule`.  A part below a rule has no
semicolon, and a part below its bodies has no bar. -/
def Reads : Symbol → List (Token TerminalId) → Node → Prop
  | .terminal k, ts, node => ∃ t, ts = [t] ∧ t.terminal = some k ∧ node = .token t ∧
      (k = Rule.ident ∨ k = Rule.quoted → symbolRef? t = some (symbolOf t.lexeme))
  | .nonterminal 0, _, _ => True
  | .nonterminal 2, ts, node => ∃ parts semicolon, ts = parts ++ [semicolon] ∧
      isSemicolon semicolon = true ∧ (∀ t ∈ parts, isSemicolon t = false) ∧
      node = .rule (ruleOf parts)
  | .nonterminal 3, ts, node =>
      (∀ t ∈ ts, isSemicolon t = false) ∧ node = .alternatives (bodiesOf ts)
  | .nonterminal 4, ts, node =>
      (∀ t ∈ ts, isSemicolon t = false ∧ isBar t = false) ∧ node = .sequence (bodyOf ts)
  | .nonterminal 5, ts, node => ∃ t s, ts = [t] ∧ symbolRef? t = some s ∧ node = .symbol s
  | .nonterminal _, ts, node => ∃ parts semicolon, ts = parts ++ [semicolon] ∧
      isSemicolon semicolon = true ∧ node = .rules ((parts.splitOnP isSemicolon).map ruleOf)

theorem isSemicolon_of_symbolRef? {t : Token TerminalId} {s : SymbolRef}
    (h : symbolRef? t = some s) : isSemicolon t = false ∧ isBar t = false := by
  unfold symbolRef? at h
  split at h
  · next hkind => simp [isSemicolon, isBar, hkind, Rule.ident, Rule.semicolon, Rule.bar]
  · split at h
    · next hkind => simp [isSemicolon, isBar, hkind, Rule.quoted, Rule.semicolon, Rule.bar]
    · cases h

/-- A bar adds the body behind it to the bodies before it. -/
theorem bodiesOf_append (ts : List (Token TerminalId)) {us : List (Token TerminalId)}
    {bar : Token TerminalId} (hbar : isBar bar = true) (hus : ∀ t ∈ us, isBar t = false) :
    bodiesOf (ts ++ bar :: us) = bodiesOf ts ++ [bodyOf us] := by
  rw [bodiesOf, List.splitOnP_append_cons _ _ hbar, List.splitOnP_eq_singleton hus, List.map_append]
  rfl

/-- A rule of the format makes of what its parts stand for what the whole stands for. -/
theorem reads_rule (r : Rule) {parts : List (List (Token TerminalId) × Node)}
    (h : List.Forall₂ (fun X part => Reads X part.1 part.2) r.body parts) :
    Reads (.nonterminal r.head) (parts.flatMap Prod.fst) (reduce r (parts.map Prod.snd)) := by
  cases r <;> simp only [Rule.body, List.forall₂_cons_left_iff, List.forall₂_nil_left_iff,
    Prod.exists] at h
  case rulesMany =>
    obtain ⟨_, _, _, ⟨ts, last, rfl, hlast, rfl⟩, ⟨_, _, _,
      ⟨us, semicolon, rfl, hsemicolon, hus, rfl⟩, rfl, rfl⟩, rfl⟩ := h
    refine ⟨ts ++ last :: us, semicolon, by simp, hsemicolon, ?_⟩
    rw [List.splitOnP_append_cons _ _ hlast, List.splitOnP_eq_singleton hus, List.map_append]
    rfl
  case rulesOne =>
    obtain ⟨_, _, _, ⟨us, semicolon, rfl, hsemicolon, hus, rfl⟩, rfl, rfl⟩ := h
    refine ⟨us, semicolon, by simp, hsemicolon, ?_⟩
    rw [List.splitOnP_eq_singleton hus]
    rfl
  case rule =>
    obtain ⟨_, _, _, ⟨head, rfl, hhead, rfl, _⟩, ⟨_, _, _, ⟨arrow, rfl, harrow, rfl, _⟩,
      ⟨ts, _, _, ⟨hts, rfl⟩, ⟨_, _, _, ⟨semicolon, rfl, hsemicolon, rfl, _⟩, rfl, rfl⟩,
        rfl⟩, rfl⟩, rfl⟩ := h
    refine ⟨head :: arrow :: ts, semicolon, by simp, by simp [isSemicolon, hsemicolon], ?_, rfl⟩
    simp only [List.forall_mem_cons]
    refine ⟨?_, ?_, hts⟩
    · simp [isSemicolon, hhead, Rule.ident, Rule.semicolon]
    · simp [isSemicolon, harrow, Rule.arrow, Rule.semicolon]
  case alternativesMany =>
    obtain ⟨ts, _, _, ⟨hts, rfl⟩, ⟨_, _, _, ⟨bar, rfl, hbar, rfl, _⟩,
      ⟨us, _, _, ⟨hus, rfl⟩, rfl, rfl⟩, rfl⟩, rfl⟩ := h
    have hlevel : isSemicolon bar = false := by
      simp [isSemicolon, hbar, Rule.bar, Rule.semicolon]
    refine ⟨?_, ?_⟩
    · simpa [or_imp, forall_and, hlevel] using ⟨hts, fun t ht => (hus t ht).1⟩
    · have hbodies := bodiesOf_append ts (by simp [isBar, hbar] : isBar bar = true)
        fun t ht => (hus t ht).2
      simp [reduce, hbodies]
  case alternativesOne =>
    obtain ⟨ts, _, _, ⟨hts, rfl⟩, rfl, rfl⟩ := h
    refine ⟨by simpa using fun t ht => (hts t ht).1, ?_⟩
    simp [reduce, bodiesOf, List.splitOnP_eq_singleton fun t ht => (hts t ht).2]
  case sequenceMany =>
    obtain ⟨ts, _, _, ⟨hts, rfl⟩, ⟨_, _, _, ⟨t, s, rfl, hs, rfl⟩, rfl, rfl⟩, rfl⟩ := h
    refine ⟨?_, by simp [reduce, bodyOf, hs]⟩
    simpa [or_imp, forall_and, isSemicolon_of_symbolRef? hs] using
      ⟨fun t ht => (hts t ht).1, fun t ht => (hts t ht).2⟩
  case sequenceOne =>
    obtain ⟨_, _, _, ⟨t, s, rfl, hs, rfl⟩, rfl, rfl⟩ := h
    exact ⟨by simpa using isSemicolon_of_symbolRef? hs, by simp [reduce, bodyOf, hs]⟩
  case sequenceEmpty =>
    obtain ⟨_, _, _, ⟨t, rfl, ht, rfl, _⟩, rfl, rfl⟩ := h
    refine ⟨?_, ?_⟩
    · simp [isSemicolon, isBar, ht, Rule.empty, Rule.semicolon, Rule.bar]
    · simp [reduce, bodyOf, symbolRef?, ht, Rule.empty, Rule.ident, Rule.quoted]
  case symbolNamed =>
    obtain ⟨_, _, _, ⟨t, rfl, _, rfl, hs⟩, rfl, rfl⟩ := h
    exact ⟨t, symbolOf t.lexeme, rfl, hs (Or.inl rfl), rfl⟩
  case symbolQuoted =>
    obtain ⟨_, _, _, ⟨t, rfl, _, rfl, hs⟩, rfl, rfl⟩ := h
    exact ⟨t, symbolOf t.lexeme, rfl, hs (Or.inr rfl), rfl⟩

end ParserForge.Format

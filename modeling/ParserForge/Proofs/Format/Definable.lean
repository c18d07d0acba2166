import Mathlib
import ParserForge.Proofs.Format.Passes
import ParserForge.Proofs.Format.Spelling
import ParserForge.Proofs.Lexer.Simulation

/-!
From rules to a grammar.  What rules state is put in terms of names, apart from the numbers that are
given out for them: which of the symbols are nonterminals, and which productions there are.  Rules
that are read from a text define a grammar unless a name is used in two ways or reserved, or a
production is stated twice or too long, and the grammar has just what they state.
-/

namespace ParserForge

/-- A symbol by its name. -/
structure NamedSymbol where
  isNonterminal : Bool
  name : String
deriving DecidableEq

namespace Grammar

/-- The symbol that has the number, by its name. -/
def named? (g : Grammar) : Symbol → Option NamedSymbol
  | .terminal t => g.terminals[t]?.map (⟨false, ·⟩)
  | .nonterminal n => g.nonterminals[n]?.map (⟨true, ·⟩)

/-- A production in names. -/
def inNames (g : Grammar) (p : Production) : Option String × List (Option NamedSymbol) :=
  (g.nonterminals[p.head]?, p.body.map g.named?)

end Grammar

namespace Format

/-- What is meant by a symbol: a nonterminal if it is a head and not quoted, or else a terminal. -/
def meaning (rules : List RuleDef) (s : SymbolRef) : NamedSymbol :=
  ⟨!s.quoted && (rules.map RuleDef.head).contains s.name, s.name⟩

/-- The head and the body of every alternative, in order. -/
def statedProductions (rules : List RuleDef) : List (String × List NamedSymbol) :=
  rules.flatMap fun r => r.alternatives.map fun body => (r.head, body.map (meaning rules))

/-- No name is used for a terminal and a nonterminal, no terminal has a reserved name, no production
is stated twice, and none is longer than a body may be. -/
structure Definable (rules : List RuleDef) : Prop where
  quoted : ∀ s ∈ symbols rules, s.quoted = true → s.name ∉ rules.map RuleDef.head
  unreserved : ∀ s ∈ symbols rules, (meaning rules s).isNonterminal = false →
    s.name.toList.head? ≠ some '$'
  distinct : (statedProductions rules).Nodup
  lengths : ∀ r ∈ rules, ∀ body ∈ r.alternatives, body.length ≤ 65535

/-- The symbols of the grammar are the heads and the terminals, each at its first occurrence.  Its
productions are those that are stated, behind that of the root. -/
structure Declares (rules : List RuleDef) (g : Grammar) : Prop where
  nonterminals : g.nonterminals = "$start" :: (rules.map RuleDef.head).eraseDups
  terminals : g.terminals = "$eoi" :: "$epsilon" ::
    (((symbols rules).filter fun s => !(meaning rules s).isNonterminal).map
      SymbolRef.name).eraseDups
  productions : g.productions.map g.inNames =
    (some "$start", [rules.head?.map fun r => ⟨true, r.head⟩]) ::
      (statedProductions rules).map fun p => (some p.1, p.2.map some)
  start : g.nonterminals[g.start]? = rules.head?.map RuleDef.head

/-- A symbol by its number among the heads or among the terminals. -/
def numbered (heads terminals : List String) (s : NamedSymbol) : Symbol :=
  if s.isNonterminal then .nonterminal (heads.idxOf s.name + 1)
  else .terminal (terminals.idxOf s.name + 2)

/-- The productions that rules stand for, in numbers. -/
def productions (rules : List RuleDef) : List Production :=
  (statedProductions rules).map fun p =>
    ⟨(heads rules).idxOf p.1 + 1,
      p.2.map (numbered (heads rules) (terminalNames (heads rules) rules))⟩

/-- The symbols that rules stand for. -/
def names (rules : List RuleDef) : Definition :=
  ⟨"$eoi" :: "$epsilon" :: terminalNames (heads rules) rules, "$start" :: heads rules, [], none⟩

/-- The grammar that rules stand for, when they have a first head. -/
def grammarOf (rules : List RuleDef) : Grammar :=
  ⟨(names rules).terminals, (names rules).nonterminals,
    ⟨.root, [.nonterminal 1]⟩ :: productions rules, 1⟩

section

variable {rules : List RuleDef} {g : Grammar}

theorem isNonterminal_meaning (s : SymbolRef) :
    isNonterminal (heads rules) s = (meaning rules s).isNonterminal := by
  simp [isNonterminal, meaning, heads]

theorem resolve_eq (rules : List RuleDef) (terminals : List String) :
    resolve (heads rules) terminals = fun s =>
      numbered (heads rules) terminals (meaning rules s) := by
  funext s
  rw [resolve, numbered, isNonterminal_meaning]
  rfl

theorem declarations_eq (rules : List RuleDef) : declarations rules =
    (heads rules).map .nonterminal ++ (terminalNames (heads rules) rules).map .terminal ++
      (productions rules).map fun p => .production p.head p.body := by
  simp only [declarations, productions, statedProductions, List.map_flatMap, List.map_map,
    Function.comp_def, resolve_eq]

/-- The names in use before the first declaration are no names that could be declared. -/
theorem checkName_empty_iff {name : String} :
    Definition.empty.checkName name = .ok () ↔ Definition.IsName name := by
  rw [Definition.checkName_eq_ok_iff, and_iff_left_iff_imp]
  rintro ⟨_, hunreserved, _⟩
  have hreserved : ∀ n ∈ ["$eoi", "$epsilon", "$start"], n.toList.head? = some '$' := by decide
  have hno : name ∉ ["$eoi", "$epsilon", "$start"] := fun h => hunreserved (hreserved name h)
  simpa [Definition.declares, Definition.empty, and_assoc] using hno

/-- A terminal can be declared behind the heads if it is not one of them. -/
theorem checkName_heads_iff {name : String} {hs : List String} :
    Definition.checkName { Definition.empty with
      nonterminals := Definition.empty.nonterminals ++ hs } name = .ok () ↔
        Definition.IsName name ∧ name ∉ hs := by
  have hempty := @checkName_empty_iff name
  rw [Definition.checkName_eq_ok_iff] at hempty ⊢
  rw [Definition.entersNames_nonterminal.declares, Bool.or_eq_false_iff, ← and_assoc, hempty]
  simp

/-- Whether the name has been declared for the symbol. -/
def IsDeclared (rules : List RuleDef) (s : NamedSymbol) : Prop :=
  s.name ∈ if s.isNonterminal then heads rules else terminalNames (heads rules) rules

theorem isDeclared_meaning {s : SymbolRef} (h : s ∈ symbols rules) :
    IsDeclared rules (meaning rules s) := by
  rw [IsDeclared, ← isNonterminal_meaning]
  cases hs : isNonterminal (heads rules) s with
  | true =>
      have hhead : s.name ∈ heads rules := by
        simpa using (Bool.and_eq_true_iff.mp hs).2
      exact hhead
  | false => exact name_mem_terminalNames h hs

/-- What is stated mentions declared names only. -/
theorem isDeclared_of_mem_stated {p : String × List NamedSymbol}
    (h : p ∈ statedProductions rules) :
    p.1 ∈ heads rules ∧ ∀ s ∈ p.2, IsDeclared rules s := by
  obtain ⟨r, hr, hp⟩ := List.mem_flatMap.mp h
  obtain ⟨body, hbody, rfl⟩ := List.mem_map.mp hp
  refine ⟨mem_heads.mpr ⟨r, hr, rfl⟩, fun x hx => ?_⟩
  obtain ⟨s, hs, rfl⟩ := List.mem_map.mp hx
  exact isDeclared_meaning (mem_symbols.mpr ⟨r, hr, body, hbody, hs⟩)

/-- The numbers stand for the names that they were given out for. -/
theorem named?_numbered {s : NamedSymbol} (h : IsDeclared rules s) :
    (grammarOf rules).named? (numbered (heads rules) (terminalNames (heads rules) rules) s) =
      some s := by
  obtain ⟨isNonterminal, name⟩ := s
  cases isNonterminal with
  | true =>
      have hname := List.getElem?_idxOf (show name ∈ heads rules from h)
      simp [numbered, Grammar.named?, grammarOf, names, hname]
  | false =>
      have hname := List.getElem?_idxOf (show name ∈ terminalNames (heads rules) rules from h)
      simp [numbered, Grammar.named?, grammarOf, names, hname]

/-- The productions in numbers are those that are stated in names. -/
theorem map_inNames_productions (rules : List RuleDef) :
    (productions rules).map (grammarOf rules).inNames =
      (statedProductions rules).map fun p => (some p.1, p.2.map some) := by
  rw [productions, List.map_map]
  apply List.map_congr_left
  intro p hp
  obtain ⟨hhead, hbody⟩ := isDeclared_of_mem_stated hp
  have hname := List.getElem?_idxOf hhead
  simp only [Function.comp_apply, Grammar.inNames, List.map_map, Prod.mk.injEq]
  refine ⟨?_, List.map_congr_left fun s hs => named?_numbered (hbody s hs)⟩
  simp [grammarOf, names, hname]

/-- A production is stated twice in numbers if and only if it is in names. -/
theorem nodup_productions_iff : (productions rules).Nodup ↔ (statedProductions rules).Nodup := by
  constructor
  · exact List.Nodup.of_map _
  · intro h
    apply List.Nodup.of_map (grammarOf rules).inNames
    rw [map_inNames_productions]
    refine h.map fun p q hpq => ?_
    obtain ⟨hhead, hbody⟩ := Prod.mk.inj hpq
    exact Prod.ext (Option.some.inj hhead)
      (List.map_injective_iff.mpr (Option.some_injective _) hbody)

/-- Once all names are declared, a production is admitted unless it is too long. -/
theorem admits_iff {d : Definition} (hterminals : d.terminals = (names rules).terminals)
    (hnonterminals : d.nonterminals = (names rules).nonterminals) {p : Production}
    (h : p ∈ productions rules) : d.Admits p ↔ p.body.length ≤ Definition.maxBody := by
  obtain ⟨q, hq, rfl⟩ := List.mem_map.mp h
  obtain ⟨hhead, hbody⟩ := isDeclared_of_mem_stated hq
  have hnonterminal : ∀ name ∈ heads rules,
      d.hasNonterminal ((heads rules).idxOf name + 1) = true := by
    intro name hname
    have hlt := List.idxOf_lt_length_of_mem hname
    rw [Definition.hasNonterminal_iff, hnonterminals]
    exact ⟨Nat.succ_ne_zero _, Nat.succ_lt_succ hlt⟩
  refine ⟨fun hadmits => hadmits.length, fun hlength => ⟨hnonterminal q.1 hhead, hlength, ?_⟩⟩
  intro s hs
  obtain ⟨⟨isNonterminal, name⟩, hmem, rfl⟩ := List.mem_map.mp hs
  have hname := hbody _ hmem
  cases isNonterminal with
  | true => exact hnonterminal name hname
  | false =>
      have hlt := List.idxOf_lt_length_of_mem
        (show name ∈ terminalNames (heads rules) rules from hname)
      refine Definition.hasSymbol_terminal_iff.mpr ⟨Nat.le_add_left 2 _, ?_⟩
      rw [hterminals]
      exact Nat.succ_lt_succ (Nat.succ_lt_succ hlt)

theorem heads_ne_nil (hne : rules ≠ []) : heads rules ≠ [] := by
  obtain ⟨r, hr⟩ := List.exists_mem_of_ne_nil rules hne
  exact List.ne_nil_of_mem (mem_heads.mpr ⟨r, hr, rfl⟩)

/-- The declarations of the symbols and of the productions lead to a grammar when all of them are
accepted. -/
theorem declareAll_declarations_iff {d : Definition} :
    Definition.empty.declareAll (declarations rules) = .ok d ↔
      (∀ name ∈ heads rules, Definition.IsName name) ∧
        (∀ name ∈ terminalNames (heads rules) rules,
          Definition.IsName name ∧ name ∉ heads rules) ∧
            (∀ p ∈ productions rules, p.body.length ≤ Definition.maxBody) ∧
              (productions rules).Nodup ∧
                d = { names rules with productions := productions rules } := by
  have hadmits : ∀ d : Definition, d.terminals = (names rules).terminals →
      d.nonterminals = (names rules).nonterminals →
        ((∀ p ∈ productions rules, d.Admits p) ↔
          ∀ p ∈ productions rules, p.body.length ≤ Definition.maxBody) :=
    fun d ht hn => forall₂_congr fun p hp => admits_iff ht hn hp
  rw [declarations_eq, Definition.declareAll_append, Definition.declareAll_append]
  simp only [Definition.bind_eq_ok_iff, Definition.entersNames_nonterminal.declareAll_eq_ok_iff,
    Definition.entersNames_terminal.declareAll_eq_ok_iff,
    Definition.declareAll_productions_eq_ok_iff]
  constructor
  · rintro ⟨_, ⟨_, ⟨-, hheads, rfl⟩, -, hterminals, rfl⟩, hproductions, hnodup, -, rfl⟩
    refine ⟨?_, ?_, ?_, hnodup, rfl⟩
    · exact fun name hname => checkName_empty_iff.mp (hheads name hname)
    · exact fun name hname => checkName_heads_iff.mp (hterminals name hname)
    · exact (hadmits _ rfl rfl).mp hproductions
  · rintro ⟨hheads, hterminals, hlengths, hnodup, rfl⟩
    refine ⟨_, ⟨_, ⟨nodup_eraseDups _, ?_, rfl⟩, nodup_eraseDups _, ?_, rfl⟩, ?_, hnodup, ?_, rfl⟩
    · exact fun name hname => checkName_empty_iff.mpr (hheads name hname)
    · exact fun name hname => checkName_heads_iff.mpr (hterminals name hname)
    · exact (hadmits _ rfl rfl).mpr hlengths
    · exact fun _ _ => List.not_mem_nil

/-- With a first head there is a start symbol. -/
theorem finish_names (hne : rules ≠ []) :
    Definition.finish { names rules with productions := productions rules } =
      .ok (grammarOf rules) := by
  have hlt : 1 < (names rules).nonterminals.length :=
    Nat.succ_lt_succ (List.length_pos_iff.mpr (heads_ne_nil hne))
  have hstart : Definition.startSymbol { names rules with productions := productions rules } =
      some 1 := if_pos hlt
  rw [Definition.finish, hstart]
  rfl

/-- Rules with a first head define a grammar if all their names and productions can be declared. -/
theorem define_eq_ok_iff (hne : rules ≠ []) : define rules = .ok g ↔
    (∀ name ∈ heads rules, Definition.IsName name) ∧
      (∀ name ∈ terminalNames (heads rules) rules,
        Definition.IsName name ∧ name ∉ heads rules) ∧
          (∀ p ∈ productions rules, p.body.length ≤ Definition.maxBody) ∧
            (productions rules).Nodup ∧ g = grammarOf rules := by
  rw [define_eq_bind, Definition.bind_eq_ok_iff]
  simp only [declareAll_declarations_iff]
  constructor
  · rintro ⟨_, ⟨hheads, hterminals, hlengths, hnodup, rfl⟩, hfinish⟩
    rw [finish_names hne] at hfinish
    exact ⟨hheads, hterminals, hlengths, hnodup, (Except.ok.inj hfinish).symm⟩
  · rintro ⟨hheads, hterminals, hlengths, hnodup, rfl⟩
    exact ⟨_, ⟨hheads, hterminals, hlengths, hnodup, rfl⟩, finish_names hne⟩

theorem mem_terminalNames {name : String} : name ∈ terminalNames (heads rules) rules ↔
    ∃ s ∈ symbols rules, isNonterminal (heads rules) s = false ∧ s.name = name := by
  simp [terminalNames, and_assoc]

/-- What is spelled with a name can be declared as a terminal unless it is a head or reserved. -/
theorem isName_terminals_iff (hspelled : ∀ s ∈ symbols rules, s.Spelled) :
    (∀ name ∈ terminalNames (heads rules) rules,
      Definition.IsName name ∧ name ∉ heads rules) ↔
        (∀ s ∈ symbols rules, s.quoted = true → s.name ∉ heads rules) ∧
          ∀ s ∈ symbols rules, isNonterminal (heads rules) s = false →
            s.name.toList.head? ≠ some '$' := by
  constructor
  · intro h
    refine ⟨fun s hs hquoted => ?_, fun s hs hno => ?_⟩
    · have hno : isNonterminal (heads rules) s = false := by simp [isNonterminal, hquoted]
      exact (h s.name (mem_terminalNames.mpr ⟨s, hs, hno, rfl⟩)).2
    · exact (h s.name (mem_terminalNames.mpr ⟨s, hs, hno, rfl⟩)).1.2.1
  · rintro ⟨hquoted, hunreserved⟩ name hname
    obtain ⟨s, hs, hno, rfl⟩ := mem_terminalNames.mp hname
    have hs' := hspelled s hs
    refine ⟨⟨hs'.nonempty, hunreserved s hs hno, hs'.unblank⟩, ?_⟩
    cases hquote : s.quoted with
    | true => exact hquoted s hs hquote
    | false => simpa [isNonterminal, hquote] using hno

theorem lengths_iff : (∀ p ∈ productions rules, p.body.length ≤ Definition.maxBody) ↔
    ∀ r ∈ rules, ∀ body ∈ r.alternatives, body.length ≤ 65535 := by
  simp only [productions, statedProductions, List.forall_mem_map, List.forall_mem_flatMap,
    List.length_map, Definition.maxBody]

/-- The conditions in names, for rules that are spelled with names. -/
theorem definable_iff (hspelled : ∀ r ∈ rules, r.Spelled) : Definable rules ↔
    (∀ name ∈ heads rules, Definition.IsName name) ∧
      (∀ name ∈ terminalNames (heads rules) rules,
        Definition.IsName name ∧ name ∉ heads rules) ∧
          (∀ p ∈ productions rules, p.body.length ≤ Definition.maxBody) ∧
            (productions rules).Nodup := by
  have hheads : ∀ name ∈ heads rules, Definition.IsName name := by
    intro name hname
    obtain ⟨r, hr, rfl⟩ := mem_heads.mp hname
    exact (hspelled r hr).head
  have hsymbols : ∀ s ∈ symbols rules, s.Spelled := by
    intro s hs
    obtain ⟨r, hr, body, hbody, hs⟩ := mem_symbols.mp hs
    exact (hspelled r hr).symbols body hbody s hs
  have hmem : ∀ name, name ∈ heads rules ↔ name ∈ rules.map RuleDef.head := fun _ =>
    List.mem_eraseDups
  rw [isName_terminals_iff hsymbols, lengths_iff, nodup_productions_iff]
  simp only [hmem, isNonterminal_meaning] at hheads ⊢
  constructor
  · exact fun h => ⟨hheads, ⟨h.quoted, h.unreserved⟩, h.lengths, h.distinct⟩
  · rintro ⟨_, ⟨hquoted, hunreserved⟩, hlengths, hdistinct⟩
    exact ⟨hquoted, hunreserved, hdistinct, hlengths⟩

/-- The grammar that rules stand for has what they state. -/
theorem declares_grammarOf (hne : rules ≠ []) : Declares rules (grammarOf rules) where
  nonterminals := rfl
  terminals := by
    simp only [← isNonterminal_meaning]
    rfl
  productions := by
    rw [← map_inNames_productions]
    obtain ⟨r, rs, rfl⟩ := List.exists_cons_of_ne_nil hne
    simp [grammarOf, Grammar.inNames, Grammar.named?, names, heads, List.eraseDups_cons,
      NonterminalId.root]
  start := by
    obtain ⟨r, rs, rfl⟩ := List.exists_cons_of_ne_nil hne
    simp [grammarOf, names, heads, List.eraseDups_cons]

end

/-- Rules that are read from a text never make the passes miss a name.  They define a grammar if and
only if they are definable, and it has what they state. -/
theorem define_read {r : Reader} {text : List Char} {rules : List RuleDef}
    (hreader : reader = .ok r) (hread : r.read text = .ok rules) :
    definePasses rules = some (define rules) ∧
      ((∃ g, define rules = .ok g) ↔ Definable rules) ∧
        ∀ g, define rules = .ok g → Declares rules g := by
  obtain ⟨hne, hspelled⟩ := spelled_of_read hreader hread
  refine ⟨definePasses_eq rules, ?_, fun g hg => ?_⟩
  · rw [definable_iff hspelled]
    constructor
    · rintro ⟨g, hg⟩
      obtain ⟨hheads, hterminals, hlengths, hnodup, -⟩ := (define_eq_ok_iff hne).mp hg
      exact ⟨hheads, hterminals, hlengths, hnodup⟩
    · rintro ⟨hheads, hterminals, hlengths, hnodup⟩
      exact ⟨_, (define_eq_ok_iff hne).mpr ⟨hheads, hterminals, hlengths, hnodup, rfl⟩⟩
  · obtain ⟨-, -, -, -, rfl⟩ := (define_eq_ok_iff hne).mp hg
    exact declares_grammarOf hne

/-- A text whose tokens have the form of the format is read as the rules that they spell. -/
theorem exists_read {text : List Char} {input : List (Token TerminalId)} {last : Token TerminalId}
    (hscan : ∀ rules, tokenRules = .ok rules →
      (Lexer.ofRules rules).scan text = input ++ [last])
    (hvalid : ∀ t ∈ input ++ [last], t.isValid = true) (hform : kinds input ∈ textForm) :
    ∃ r, reader = .ok r ∧ r.read text = .ok (rulesOf input) := by
  obtain ⟨r, hr⟩ := exists_reader
  obtain ⟨rules, hrules, hlexer, htable⟩ := reader_cases hr
  have hfind : ((Lexer.ofRules rules).scan text).find? (fun t => !t.isValid) = none := by
    rw [hscan rules hrules, List.find?_eq_none]
    intro t ht
    simp [hvalid t ht]
  obtain ⟨input', last', hscan', hlast, hinput⟩ := scan_proper hrules hfind
  obtain ⟨rfl, hend⟩ := List.append_inj' ((hscan rules hrules).symm.trans hscan') rfl
  refine ⟨r, hr, ?_⟩
  rw [Reader.read, hlexer, hfind, hscan']
  exact readTokens_of_mem htable hinput hlast hform

namespace Repeated

/-- A head with two bodies, one of which mentions it, and the other one of which is empty. -/
def text : List Char := "S -> 'a' S | %empty;".toList

def tokens : List (Token TerminalId) :=
  [⟨.terminal Rule.ident, ['S'], ⟨0, 1, 1⟩⟩, ⟨.terminal Rule.arrow, ['-', '>'], ⟨2, 1, 3⟩⟩,
    ⟨.terminal Rule.quoted, ['\'', 'a', '\''], ⟨5, 1, 6⟩⟩,
    ⟨.terminal Rule.ident, ['S'], ⟨9, 1, 10⟩⟩, ⟨.terminal Rule.bar, ['|'], ⟨11, 1, 12⟩⟩,
    ⟨.terminal Rule.empty, "%empty".toList, ⟨13, 1, 14⟩⟩,
    ⟨.terminal Rule.semicolon, [';'], ⟨19, 1, 20⟩⟩]

def rules : List RuleDef := [⟨"S", [[⟨"a", true⟩, ⟨"S", false⟩], []]⟩]

theorem rulesOf_tokens : rulesOf tokens = rules := by decide +kernel

theorem scan_text {lexerRules : List (LexerRule TerminalId)} (h : tokenRules = .ok lexerRules) :
    (Lexer.ofRules lexerRules).scan text = tokens ++ [⟨.ending, [], ⟨20, 1, 21⟩⟩] := by
  obtain rfl := Except.ok.inj h
  rw [Lexer.scan, Lexer.scanFrom_ofRules]
  decide +kernel

open Computability in
theorem kinds_tokens_mem : kinds tokens ∈ textForm := by
  have hfirst : [Rule.quoted] ++ [Rule.ident] ∈ alternativeForm :=
    Or.inl (Language.append_mem_mul (Or.inr rfl) (le_kstar (a := symbolForm) (Or.inl rfl)))
  have hsecond : [Rule.empty] ++ [] ∈ alternativeForm :=
    Or.inr (Language.append_mem_mul rfl (Language.nil_mem_kstar _))
  have hmore : [Rule.bar] ++ ([Rule.empty] ++ []) ∈ ({[Rule.bar]} * alternativeForm)∗ :=
    le_kstar (a := {[Rule.bar]} * alternativeForm) (Language.append_mem_mul rfl hsecond)
  have hbodies : _ ∈ alternativesForm := Language.append_mem_mul hfirst hmore
  have hrule : [Rule.ident] ++ [Rule.arrow] ++ _ ++ [Rule.semicolon] ∈ ruleForm :=
    Language.append_mem_mul
      (Language.append_mem_mul (Language.append_mem_mul rfl rfl) hbodies) rfl
  exact Language.append_mem_mul hrule (Language.nil_mem_kstar _)

theorem definable_rules : Definable rules where
  quoted := by decide
  unreserved := by decide
  distinct := by decide
  lengths := by decide

theorem define_read_text : (∃ r, reader = .ok r ∧ r.read text = .ok rules) ∧
    definePasses rules = some (define rules) ∧
      ∃ g, define rules = .ok g ∧ Declares rules g := by
  obtain ⟨r, hreader, hread⟩ := exists_read (fun _ => scan_text) (by decide) kinds_tokens_mem
  rw [rulesOf_tokens] at hread
  obtain ⟨hpasses, hdefined, hdeclares⟩ := define_read hreader hread
  obtain ⟨g, hg⟩ := hdefined.mpr definable_rules
  exact ⟨⟨r, hreader, hread⟩, hpasses, g, hg, hdeclares g hg⟩

end Repeated

end Format

end ParserForge

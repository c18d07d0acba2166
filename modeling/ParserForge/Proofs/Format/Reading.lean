import Mathlib
import ParserForge.Proofs.Format.Tokens
import ParserForge.Proofs.Parsing.ErrorPosition
import ParserForge.Proofs.Parsing.Labels

/-!
The reader accepts its format.  Where the tokens of a text have the form of the format, it gives the
rules that they spell, and otherwise it refuses the first token that no text of that form has there.
The reader itself is a lexer, a table made from a grammar and a replay that has no case left over,
so what is known of these parts applies.
-/

namespace ParserForge.Format

open Grammar

theorem metaGrammar_wellFormed : metaGrammar.WellFormed := wellFormed_of_define grammar_eq

/-- The rule `x -> x ;` has all nonterminals of the format below it. -/
theorem metaGrammar_productive : metaGrammar.Productive := by
  have hsymbol : metaGrammar.Yields [.nonterminal Rule.symbol] [2] [9] :=
    Yields.single (p := 9) (r := ⟨5, [.terminal 2]⟩) rfl (.of_word [2])
  have hsequence : metaGrammar.Yields [.nonterminal Rule.sequence] [2] [9, 7] :=
    Yields.single (p := 7) (r := ⟨4, [.nonterminal 5]⟩) rfl hsymbol
  have halternatives : metaGrammar.Yields [.nonterminal Rule.alternatives] [2] [9, 7, 5] :=
    Yields.single (p := 5) (r := ⟨3, [.nonterminal 4]⟩) rfl hsequence
  have hrule : metaGrammar.Yields [.nonterminal Rule.single] [2, 4, 2, 6] [9, 7, 5, 3] :=
    Yields.single (p := 3) (r := ⟨2, [.terminal 2, .terminal 4, .nonterminal 3, .terminal 6]⟩) rfl
      (.leaf 2 (.leaf 4 (halternatives.append (.of_word [6]))))
  have hrules : metaGrammar.Yields [.nonterminal Rule.rules] [2, 4, 2, 6] [9, 7, 5, 3, 2] :=
    Yields.single (p := 2) (r := ⟨1, [.nonterminal 2]⟩) rfl hrule
  have hroot : metaGrammar.Yields [.nonterminal .root] [2, 4, 2, 6] [9, 7, 5, 3, 2, 0] :=
    Yields.single (p := 0) (r := ⟨0, [.nonterminal 1]⟩) rfl hrules
  intro n hn
  match n, hn with
  | 0, _ => exact ⟨_, hroot.derives⟩
  | 1, _ => exact ⟨_, hrules.derives⟩
  | 2, _ => exact ⟨_, hrule.derives⟩
  | 3, _ => exact ⟨_, halternatives.derives⟩
  | 4, _ => exact ⟨_, hsequence.derives⟩
  | 5, _ => exact ⟨_, hsymbol.derives⟩

/-- The grammar of the format has no conflicts. -/
theorem exists_table : ∃ t, ParseTable.generate metaGrammar .lr1 = .ok t := by
  have hsome : (ParseTable.generate metaGrammar .lr1).toOption.isSome = true := by
    rw [ParseTable.generate_lr1]
    decide +kernel
  cases h : ParseTable.generate metaGrammar .lr1 with
  | error e =>
      rw [h] at hsome
      cases hsome
  | ok t => exact ⟨t, rfl⟩

theorem exists_tokenRules : ∃ rules, tokenRules = .ok rules := ⟨_, rfl⟩

/-- The parts of the reader.  The cases are split without a look at what they are split on, which is
too large to be unfolded. -/
theorem reader_eq {rules : List (LexerRule TerminalId)} {t : ParseTable}
    (hrules : tokenRules = .ok rules) (ht : ParseTable.generate metaGrammar .lr1 = .ok t) :
    reader = .ok ⟨metaGrammar, .ofRules rules, t⟩ := by
  delta reader setUp
  split
  · next e he => cases grammar_eq.symm.trans he
  · next g hg =>
      split
      · next e he => cases hrules.symm.trans he
      · next rules' hrules' =>
          cases hrules.symm.trans hrules'
          split
          · next e he =>
              cases grammar_eq.symm.trans hg
              cases ht.symm.trans he
          · next table htable =>
              cases grammar_eq.symm.trans hg
              cases ht.symm.trans htable
              rfl

/-- The kinds of tokens. -/
def kinds (ts : List (Token TerminalId)) : List TerminalId := ts.filterMap Token.terminal

/-- The kinds are the beginning of a text of the form. -/
def BeginsText (w : List TerminalId) : Prop := ∃ v, w ++ v ∈ textForm

/-- The answer refuses the first token that no text of the form goes on with, which is the end if
the tokens before it begin a text of the form. -/
def RefusesFirst (input : List (Token TerminalId)) (last : Token TerminalId)
    (answer : Except Error (List RuleDef)) : Prop :=
  ∃ i t expected, (input ++ [last])[i]? = some t ∧ BeginsText ((kinds input).take i) ∧
    (i < input.length → ¬ BeginsText ((kinds input).take (i + 1))) ∧
    answer = .error (.refused t.place
      (.unexpected (if i = input.length then .ending else .token t.lexeme) expected))

theorem beginsSentence_iff {w : List TerminalId} :
    metaGrammar.BeginsSentence w ↔ BeginsText w :=
  exists_congr fun _ => sentence_iff

section Input

variable {input : List (Token TerminalId)} {last : Token TerminalId}

theorem kinds_eq_map (hinput : ∀ t ∈ input, Proper t) :
    kinds input = input.map fun t => t.terminal.getD 0 := by
  rw [kinds, ← List.filterMap_eq_map]
  apply List.filterMap_congr
  intro t ht
  obtain ⟨k, hk, _⟩ := (hinput t ht).exists_terminal
  rw [Function.comp_apply, hk, Option.getD_some]

theorem isUserTerminal_kinds (hinput : ∀ t ∈ input, Proper t) :
    ∀ k ∈ kinds input, metaGrammar.IsUserTerminal k := by
  intro k hk
  obtain ⟨t, ht, hterminal⟩ := List.mem_filterMap.mp hk
  obtain ⟨k', hk', huser⟩ := (hinput t ht).exists_terminal
  rw [hk'] at hterminal
  exact Option.some.inj hterminal ▸ huser

theorem isSome_terminal (hinput : ∀ t ∈ input, Proper t) :
    ∀ t ∈ input, t.terminal.isSome = true := by
  intro t ht
  obtain ⟨k, hk, _⟩ := (hinput t ht).exists_terminal
  rw [hk, Option.isSome_some]

/-- The reader parses the tokens before the end. -/
theorem filter_terminal (hinput : ∀ t ∈ input, Proper t) (hlast : last.kind = .ending) :
    (input ++ [last]).filter (fun t => t.terminal.isSome) = input := by
  have hall := List.filter_eq_self.mpr (isSome_terminal hinput)
  have hnone : [last].filter (fun t => t.terminal.isSome) = [] := by
    simp [Token.terminal, hlast]
  rw [List.filter_append, hall, hnone, List.append_nil]

/-- What every rule of the format keeps of the parts and their values is kept by every production of
the grammar. -/
theorem reduceBy_induction {P : Symbol → List (Token TerminalId) → Node → Prop}
    (hroot : ∀ ts node, P (.nonterminal .root) ts node)
    (hrule : ∀ (x : Rule) (parts : List (List (Token TerminalId) × Node)),
      List.Forall₂ (fun X part => P X part.1 part.2) x.body parts →
        P (.nonterminal x.head) (parts.flatMap Prod.fst) (reduce x (parts.map Prod.snd)))
    (p : ProductionId) (r : Production) (hr : metaGrammar.productions[p]? = some r)
    (parts : List (List (Token TerminalId) × Node))
    (hparts : List.Forall₂ (fun X part => P X part.1 part.2) r.body parts) :
    P (.nonterminal r.head) (parts.flatMap Prod.fst) (reduceBy p (parts.map Prod.snd)) := by
  cases p with
  | zero =>
      obtain rfl := Option.some.inj hr
      exact hroot _ _
  | succ p =>
      have hproduction :
          (Rule.all[p]?).map (fun x => (⟨x.head, x.body⟩ : Production)) = some r := by
        rw [← List.getElem?_map]
        exact hr
      obtain ⟨x, hx, rfl⟩ := Option.map_eq_some_iff.mp hproduction
      have hreduce : reduceBy (p + 1) (parts.map Prod.snd) = reduce x (parts.map Prod.snd) := by
        simp only [reduceBy, Rule.ofProduction, hx]
      rw [hreduce]
      exact hrule x parts hparts

/-- A token stands for itself. -/
theorem reads_token {t : Token TerminalId} (ht : Proper t) :
    Reads (.terminal (t.terminal.getD 0)) [t] (.token t) := by
  obtain ⟨k, hk, _⟩ := ht.exists_terminal
  rw [hk]
  exact ⟨t, rfl, hk, rfl, ht.symbol k hk⟩

/-- Where the parse stops there is a token, if need be the end, and the refusal names it. -/
theorem exists_refusal (r : Reader) (hinput : ∀ t ∈ input, Proper t) (hlast : last.kind = .ending)
    {i : Nat} (hi : i ≤ input.length) (q : StateId) :
    ∃ t expected, (input ++ [last])[i]? = some t ∧
      input[i]?.or (input ++ [last]).getLast? = some t ∧
      r.refusal t (.unexpected i q) =
        .unexpected (if i = input.length then .ending else .token t.lexeme) expected := by
  rcases Nat.lt_or_eq_of_le hi with hlt | rfl
  · obtain ⟨k, hk, _⟩ := (hinput _ (List.getElem_mem hlt)).kind
    refine ⟨input[i], (r.table.expected q).map r.grammar.terminalName, ?_, ?_, ?_⟩
    · rw [List.getElem?_append_left hlt, List.getElem?_eq_getElem hlt]
    · rw [List.getElem?_eq_getElem hlt, Option.some_or]
    · rw [if_neg (Nat.ne_of_lt hlt), Reader.refusal, hk]
  · refine ⟨last, (r.table.expected q).map r.grammar.terminalName,
      List.getElem?_concat_length, ?_, ?_⟩
    · rw [List.getElem?_eq_none le_rfl, Option.none_or, List.getLast?_concat]
    · rw [if_pos rfl, Reader.refusal, hlast]

variable {r : Reader} (htable : ParseTable.generate metaGrammar .lr1 = .ok r.table)
  (hinput : ∀ t ∈ input, Proper t) (hlast : last.kind = .ending)

include htable hinput

/-- An accepted parse of the tokens is replayed to a value of which holds what every rule of the
format keeps, if it holds of the tokens. -/
theorem replay_induction {P : Symbol → List (Token TerminalId) → Node → Prop}
    (hroot : ∀ ts node, P (.nonterminal .root) ts node)
    (hrule : ∀ (x : Rule) (parts : List (List (Token TerminalId) × Node)),
      List.Forall₂ (fun X part => P X part.1 part.2) x.body parts →
        P (.nonterminal x.head) (parts.flatMap Prod.fst) (reduce x (parts.map Prod.snd)))
    (htoken : ∀ t ∈ input, P (.terminal (t.terminal.getD 0)) [t] (.token t))
    {d : Derivation ProductionId} (hd : r.table.parse? (kinds input) = some (.ok d)) :
    ∃ value, d.replay input Node.token reduceBy = .ok value ∧
      P (.nonterminal Rule.rules) input value := by
  obtain ⟨c, _, hfaithful, _⟩ := ParseTable.faithful_generate metaGrammar_wellFormed htable
  have huser : ∀ t ∈ input, metaGrammar.IsUserTerminal (t.terminal.getD 0) := by
    intro t ht
    apply isUserTerminal_kinds hinput
    rw [kinds_eq_map hinput]
    exact List.mem_map_of_mem ht
  rw [kinds_eq_map hinput] at hd
  obtain ⟨T, hmatches, hstart, hleaves, rfl⟩ :=
    ParseTable.exists_relabelled_tree metaGrammar_wellFormed hfaithful huser hd
  have hvalue := T.fold_induction (reduceBy_induction hroot hrule) hmatches fun t ht => by
    rw [hleaves] at ht
    exact htoken t ht
  rw [hstart, hleaves] at hvalue
  have hreplay := T.replay_derivation_leaves Node.token reduceBy
  rw [hleaves] at hreplay
  exact ⟨_, hreplay, hvalue⟩

include hlast

/-- Tokens of the form of the format are read as the rules that they spell. -/
theorem readTokens_of_mem (hform : kinds input ∈ textForm) :
    r.readTokens (input ++ [last]) = .ok (rulesOf input) := by
  obtain ⟨c, hc, hfaithful, _⟩ := ParseTable.faithful_generate metaGrammar_wellFormed htable
  obtain ⟨ps, hps⟩ := (sentence_iff.mpr hform).yields
  obtain ⟨d, hd, _⟩ := ParseTable.parse?_of_yields metaGrammar_wellFormed hc hfaithful hps
  obtain ⟨value, hreplay, hreads⟩ := replay_induction htable hinput (P := Reads)
    (fun _ _ => trivial) (fun x _ h => reads_rule x h) (fun t ht => reads_token (hinput t ht)) hd
  obtain ⟨parts, semicolon, rfl, _, rfl⟩ := hreads
  simp only [Reader.readTokens, filter_terminal hinput hlast]
  rw [← kinds, hd]
  simp only [hreplay]
  rw [rulesOf, List.dropLast_concat]

/-- Tokens that do not have that form are refused where they can no longer be continued to it. -/
theorem readTokens_of_notMem (hform : kinds input ∉ textForm) :
    RefusesFirst input last (r.readTokens (input ++ [last])) := by
  obtain ⟨c, hc, hfaithful, _⟩ := ParseTable.faithful_generate metaGrammar_wellFormed htable
  have hno : ¬ metaGrammar.Sentence (kinds input) := fun h => hform (sentence_iff.mp h)
  obtain ⟨i, q, hparse, hi, hbegins, hnot⟩ := ParseTable.exists_unexpected metaGrammar_wellFormed
    hc hfaithful metaGrammar_productive (isUserTerminal_kinds hinput) hno
  have hlength : (kinds input).length = input.length := by
    rw [kinds_eq_map hinput, List.length_map]
  rw [hlength] at hi hnot
  simp only [beginsSentence_iff] at hbegins hnot
  obtain ⟨t, expected, ht, hstop, hrefusal⟩ := exists_refusal r hinput hlast hi q
  refine ⟨i, t, expected, ht, hbegins, hnot, ?_⟩
  simp only [Reader.readTokens, filter_terminal hinput hlast]
  rw [← kinds, hparse]
  simp only [ParseError.index, hstop, hrefusal]

end Input

/-- The reader can be set up, and it answers every text.  A text with an invalid token is refused
at the first of them.  Of any other text, the tokens before the end either have the form of the
format, and the text is read as the rules that they spell, or it is refused at the first token that
no text of that form goes on with. -/
theorem reader_reads : ∃ r, reader = .ok r ∧ ∀ text : List Char,
    match (r.lexer.scan text).find? fun t => !t.isValid with
    | some t => r.read text = .error (.refused t.place (.character t.lexeme))
    | none => ∃ input last, r.lexer.scan text = input ++ [last] ∧ last.kind = .ending ∧
        (∀ t ∈ input, t.terminal.isSome = true) ∧
        ((kinds input ∈ textForm ∧ r.read text = .ok (rulesOf input)) ∨
          (kinds input ∉ textForm ∧ RefusesFirst input last (r.read text))) := by
  obtain ⟨table, htable⟩ := exists_table
  obtain ⟨rules, hrules⟩ := exists_tokenRules
  obtain ⟨r, hr, hlexer, htable⟩ : ∃ r, reader = .ok r ∧ r.lexer = .ofRules rules ∧
      ParseTable.generate metaGrammar .lr1 = .ok r.table :=
    ⟨_, reader_eq hrules htable, rfl, htable⟩
  refine ⟨r, hr, fun text => ?_⟩
  split
  · next t hfind => simp only [Reader.read, hfind]
  · next hfind =>
      have hvalid := hfind
      rw [hlexer] at hvalid
      obtain ⟨input, last, hscan, hlast, hinput⟩ := scan_proper hrules hvalid
      rw [← hlexer] at hscan
      have hread : r.read text = r.readTokens (input ++ [last]) := by
        rw [Reader.read, hfind, hscan]
      refine ⟨input, last, hscan, hlast, isSome_terminal hinput, ?_⟩
      rw [hread]
      by_cases hform : kinds input ∈ textForm
      · exact Or.inl ⟨hform, readTokens_of_mem htable hinput hlast hform⟩
      · exact Or.inr ⟨hform, readTokens_of_notMem htable hinput hlast hform⟩

end ParserForge.Format

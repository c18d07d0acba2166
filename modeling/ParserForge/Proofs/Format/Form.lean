import Mathlib
import ParserForge.Format.Reader
import ParserForge.Proofs.Grammar.Language

/-!
The form of a text, as a regular language over the kinds of its tokens, and the grammar of the
format, which has the same sentences: its rules are closed under the form, and the form is the
least that is closed under them.
-/

namespace ParserForge.Format

open Computability

/-- A name, or a name between quotes. -/
def symbolForm : Language TerminalId := {[Rule.ident]} + {[Rule.quoted]}

/-- Symbols, or the mark of the empty body, behind which symbols may stand as well. -/
def alternativeForm : Language TerminalId :=
  symbolForm * symbolForm∗ + {[Rule.empty]} * symbolForm∗

/-- Alternatives with bars between them. -/
def alternativesForm : Language TerminalId :=
  alternativeForm * ({[Rule.bar]} * alternativeForm)∗

/-- A head, its alternatives and a semicolon. -/
def ruleForm : Language TerminalId :=
  {[Rule.ident]} * {[Rule.arrow]} * alternativesForm * {[Rule.semicolon]}

/-- One rule or several. -/
def textForm : Language TerminalId := ruleForm * ruleForm∗

/-- The grammar that the declarations of the format make. -/
def metaGrammar : Grammar where
  terminals := ["$eoi", "$epsilon", "ident", "quoted", "->", "|", ";", "%empty"]
  nonterminals := ["$start", "Rules", "Rule", "Alternatives", "Sequence", "Symbol"]
  productions := ⟨.root, [.nonterminal Rule.rules]⟩ :: Rule.all.map fun r => ⟨r.head, r.body⟩
  start := Rule.rules

theorem grammar_eq : grammar = .ok metaGrammar := by decide +kernel

/-- The form of the parts that a symbol of the grammar stands for, by the numbers of `Rule`. -/
def form : Symbol → Language TerminalId
  | .terminal t => {[t]}
  | .nonterminal 2 => ruleForm
  | .nonterminal 3 => alternativesForm
  | .nonterminal 4 => alternativeForm
  | .nonterminal 5 => symbolForm
  | .nonterminal _ => textForm

section Kleene

variable {a b : Language TerminalId}

theorem le_mul_kstar : b ≤ b * a∗ := by
  simpa using mul_le_mul' le_rfl (one_le_kstar : 1 ≤ a∗)

theorem mul_kstar_mul_le : b * a∗ * a ≤ b * a∗ := by
  rw [mul_assoc]
  exact mul_le_mul' le_rfl kstar_mul_le_kstar

end Kleene

theorem alternativeForm_eq :
    alternativeForm = (symbolForm + {[Rule.empty]}) * symbolForm∗ := (add_mul _ _ _).symm

/-- The forms are closed under the rules. -/
theorem form_body_le (r : Rule) : (r.body.map form).prod ≤ form (.nonterminal r.head) := by
  cases r with
  | rulesMany =>
      change textForm * (ruleForm * 1) ≤ textForm
      rw [mul_one]
      exact mul_kstar_mul_le
  | rulesOne =>
      change ruleForm * 1 ≤ textForm
      rw [mul_one]
      exact le_mul_kstar
  | rule =>
      change {[Rule.ident]} * ({[Rule.arrow]} * (alternativesForm * ({[Rule.semicolon]} * 1))) ≤
        ruleForm
      rw [mul_one, ← mul_assoc, ← mul_assoc]
      exact le_rfl
  | alternativesMany =>
      change alternativesForm * ({[Rule.bar]} * (alternativeForm * 1)) ≤ alternativesForm
      rw [mul_one]
      exact mul_kstar_mul_le
  | alternativesOne =>
      change alternativeForm * 1 ≤ alternativesForm
      rw [mul_one]
      exact le_mul_kstar
  | sequenceMany =>
      change alternativeForm * (symbolForm * 1) ≤ alternativeForm
      rw [mul_one, alternativeForm_eq]
      exact mul_kstar_mul_le
  | sequenceOne =>
      change symbolForm * 1 ≤ alternativeForm
      rw [mul_one, alternativeForm_eq]
      exact (le_add_of_nonneg_right zero_le).trans le_mul_kstar
  | sequenceEmpty =>
      change {[Rule.empty]} * 1 ≤ alternativeForm
      rw [mul_one, alternativeForm_eq]
      exact (le_add_of_nonneg_left zero_le).trans le_mul_kstar
  | symbolNamed =>
      change {[Rule.ident]} * 1 ≤ symbolForm
      rw [mul_one]
      exact le_add_of_nonneg_right zero_le
  | symbolQuoted =>
      change {[Rule.quoted]} * 1 ≤ symbolForm
      rw [mul_one]
      exact le_add_of_nonneg_left zero_le

/-- The productions of the grammar are that of the root and the rules. -/
theorem mem_productions {r : Production} (h : r ∈ metaGrammar.productions) :
    r = ⟨.root, [.nonterminal Rule.rules]⟩ ∨ ∃ x : Rule, r = ⟨x.head, x.body⟩ := by
  rcases List.mem_cons.mp h with rfl | h
  · exact Or.inl rfl
  · obtain ⟨x, _, rfl⟩ := List.mem_map.mp h
    exact Or.inr ⟨x, rfl⟩

theorem words_le_textForm : metaGrammar.words [.nonterminal Rule.rules] ≤ textForm := by
  have h := metaGrammar.words_le (L := form) (fun t => le_rfl) ?_ [.nonterminal Rule.rules]
  · rw [List.map_singleton, List.prod_singleton] at h
    exact h
  · intro r hr
    rcases mem_productions hr with rfl | ⟨x, rfl⟩
    · change textForm * 1 ≤ textForm
      rw [mul_one]
    · exact form_body_le x

/-! The words of the grammar are closed under its rules, so they contain what has the form. -/

theorem words_rule_le (r : Rule) : (r.body.map fun X => metaGrammar.words [X]).prod ≤
    metaGrammar.words [.nonterminal r.head] := by
  rw [← Grammar.words_eq_prod]
  refine Grammar.words_body_le (r := ⟨r.head, r.body⟩) (List.mem_cons_of_mem _ ?_)
  exact List.mem_map.mpr ⟨r, by cases r <;> decide, rfl⟩

theorem symbolForm_le : symbolForm ≤ metaGrammar.words [.nonterminal Rule.symbol] := by
  apply add_le
  · simpa [Rule.body, Rule.head] using words_rule_le .symbolNamed
  · simpa [Rule.body, Rule.head] using words_rule_le .symbolQuoted

theorem alternativeForm_le :
    alternativeForm ≤ metaGrammar.words [.nonterminal Rule.sequence] := by
  have hone : metaGrammar.words [.nonterminal Rule.symbol] ≤
      metaGrammar.words [.nonterminal Rule.sequence] := by
    simpa [Rule.body, Rule.head] using words_rule_le .sequenceOne
  have hempty : {[Rule.empty]} ≤ metaGrammar.words [.nonterminal Rule.sequence] := by
    simpa [Rule.body, Rule.head] using words_rule_le .sequenceEmpty
  have hmany : metaGrammar.words [.nonterminal Rule.sequence] *
      metaGrammar.words [.nonterminal Rule.symbol] ≤
        metaGrammar.words [.nonterminal Rule.sequence] := by
    simpa [Rule.body, Rule.head] using words_rule_le .sequenceMany
  rw [alternativeForm_eq]
  apply mul_kstar_le
  · exact add_le (symbolForm_le.trans hone) hempty
  · exact (mul_le_mul' le_rfl symbolForm_le).trans hmany

theorem alternativesForm_le :
    alternativesForm ≤ metaGrammar.words [.nonterminal Rule.alternatives] := by
  have hone : metaGrammar.words [.nonterminal Rule.sequence] ≤
      metaGrammar.words [.nonterminal Rule.alternatives] := by
    simpa [Rule.body, Rule.head] using words_rule_le .alternativesOne
  have hmany : metaGrammar.words [.nonterminal Rule.alternatives] *
      ({[Rule.bar]} * metaGrammar.words [.nonterminal Rule.sequence]) ≤
        metaGrammar.words [.nonterminal Rule.alternatives] := by
    simpa [Rule.body, Rule.head] using words_rule_le .alternativesMany
  apply mul_kstar_le
  · exact alternativeForm_le.trans hone
  · exact (mul_le_mul' le_rfl (mul_le_mul' le_rfl alternativeForm_le)).trans hmany

theorem ruleForm_le : ruleForm ≤ metaGrammar.words [.nonterminal Rule.single] := by
  have hrule : {[Rule.ident]} * ({[Rule.arrow]} *
      (metaGrammar.words [.nonterminal Rule.alternatives] * {[Rule.semicolon]})) ≤
        metaGrammar.words [.nonterminal Rule.single] := by
    simpa [Rule.body, Rule.head] using words_rule_le .rule
  rw [ruleForm, mul_assoc, mul_assoc]
  refine le_trans ?_ hrule
  exact mul_le_mul' le_rfl (mul_le_mul' le_rfl (mul_le_mul' alternativesForm_le le_rfl))

theorem textForm_le : textForm ≤ metaGrammar.words [.nonterminal Rule.rules] := by
  have hone : metaGrammar.words [.nonterminal Rule.single] ≤
      metaGrammar.words [.nonterminal Rule.rules] := by
    simpa [Rule.body, Rule.head] using words_rule_le .rulesOne
  have hmany : metaGrammar.words [.nonterminal Rule.rules] *
      metaGrammar.words [.nonterminal Rule.single] ≤
        metaGrammar.words [.nonterminal Rule.rules] := by
    simpa [Rule.body, Rule.head] using words_rule_le .rulesMany
  apply mul_kstar_le
  · exact ruleForm_le.trans hone
  · exact (mul_le_mul' le_rfl ruleForm_le).trans hmany

/-- The sentences of the format are the words of the form. -/
theorem sentence_iff {w : List TerminalId} : metaGrammar.Sentence w ↔ w ∈ textForm := by
  rw [Grammar.sentence_iff]
  exact ⟨fun h => words_le_textForm h, fun h => textForm_le h⟩

end ParserForge.Format

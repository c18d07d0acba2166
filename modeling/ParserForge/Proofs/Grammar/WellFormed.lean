import Mathlib
import ParserForge.Grammar.Definition
import ParserForge.Proofs.Grammar.Derivation

/-!
What the checks of the declarations guarantee of a grammar.
-/

namespace ParserForge

/-- Every nonterminal that a definition mentions, and every symbol of a body, was declared by
name, and no body is longer than places can count. -/
structure Definition.WellFormed (d : Definition) : Prop where
  terminals : 2 ≤ d.terminals.length
  nonterminals : 1 ≤ d.nonterminals.length
  heads : ∀ r ∈ d.productions, d.hasNonterminal r.head = true
  lengths : ∀ r ∈ d.productions, r.body.length ≤ Definition.maxBody
  symbols : ∀ r ∈ d.productions, ∀ s ∈ r.body, d.hasSymbol s = true
  start : ∀ n, d.start = some n → d.hasNonterminal n = true

namespace Grammar

/-- The terminal was declared by name. -/
def IsUserTerminal (g : Grammar) (t : TerminalId) : Prop := 2 ≤ t ∧ t < g.terminals.length

/-- The nonterminal was declared by name. -/
def IsUserNonterminal (g : Grammar) (n : NonterminalId) : Prop :=
  n ≠ .root ∧ n < g.nonterminals.length

/-- The symbol was declared by name. -/
def IsUserSymbol (g : Grammar) : Symbol → Prop
  | .terminal t => g.IsUserTerminal t
  | .nonterminal n => g.IsUserNonterminal n

/-- The first production rewrites the root to the start symbol.  Apart from it, heads and bodies
consist of symbols that were declared by name. -/
structure WellFormed (g : Grammar) : Prop where
  terminals : 2 ≤ g.terminals.length
  nonterminals : 1 ≤ g.nonterminals.length
  accept : g.productions[ProductionId.accept]? = some ⟨.root, [.nonterminal g.start]⟩
  start : g.IsUserNonterminal g.start
  heads : ∀ (p : ProductionId) (r : Production), g.productions[p]? = some r → p ≠ .accept →
    g.IsUserNonterminal r.head
  lengths : ∀ r ∈ g.productions, r.body.length ≤ Definition.maxBody
  symbols : ∀ r ∈ g.productions, ∀ s ∈ r.body, g.IsUserSymbol s

end Grammar

namespace Definition

theorem hasNonterminal_iff {d : Definition} {n : NonterminalId} :
    d.hasNonterminal n = true ↔ n ≠ .root ∧ n < d.nonterminals.length := by
  simp [hasNonterminal]

theorem hasSymbol_terminal_iff {d : Definition} {t : Nat} :
    d.hasSymbol (.terminal t) = true ↔ 2 ≤ t ∧ t < d.terminals.length := by
  have hreserved : (t ≠ 0 ∧ t ≠ 1) ↔ 2 ≤ t := by omega
  simp only [hasSymbol, Bool.and_eq_true, decide_eq_true_eq, ← hreserved]
  rfl

/-- Further declarations keep what has been declared. -/
theorem hasSymbol_mono {d e : Definition} (ht : d.terminals.length ≤ e.terminals.length)
    (hn : d.nonterminals.length ≤ e.nonterminals.length) {s : Symbol}
    (h : d.hasSymbol s = true) : e.hasSymbol s = true := by
  cases s with
  | terminal t =>
      rw [hasSymbol_terminal_iff] at h ⊢
      exact ⟨h.1, Nat.lt_of_lt_of_le h.2 ht⟩
  | nonterminal n =>
      have h := hasNonterminal_iff.mp (h : d.hasNonterminal n = true)
      exact hasNonterminal_iff.mpr ⟨h.1, Nat.lt_of_lt_of_le h.2 hn⟩

theorem empty_wellFormed : empty.WellFormed where
  terminals := by decide
  nonterminals := by decide
  heads := by simp [empty]
  lengths := by simp [empty]
  symbols := by simp [empty]
  start := by simp [empty]

/-- Declaring further symbols keeps a definition well-formed. -/
theorem WellFormed.grow {d e : Definition} (h : d.WellFormed)
    (ht : d.terminals.length ≤ e.terminals.length)
    (hn : d.nonterminals.length ≤ e.nonterminals.length)
    (hp : e.productions = d.productions) (hs : e.start = d.start) : e.WellFormed where
  terminals := Nat.le_trans h.terminals ht
  nonterminals := Nat.le_trans h.nonterminals hn
  heads := by
    rw [hp]
    exact fun r hr => hasSymbol_mono (s := .nonterminal r.head) ht hn (h.heads r hr)
  lengths := by
    rw [hp]
    exact h.lengths
  symbols := by
    rw [hp]
    exact fun r hr s hs => hasSymbol_mono ht hn (h.symbols r hr s hs)
  start := by
    rw [hs]
    exact fun n hn' => hasSymbol_mono (s := .nonterminal n) ht hn (h.start n hn')

theorem addTerminal_wellFormed {d e : Definition} {name : String} {t : TerminalId}
    (h : d.WellFormed) (hadd : d.addTerminal name = .ok (e, t)) : e.WellFormed := by
  unfold addTerminal at hadd
  split at hadd
  · cases hadd
  · cases hadd
    exact h.grow (by simp) (by simp) rfl rfl

theorem addNonterminal_wellFormed {d e : Definition} {name : String} {n : NonterminalId}
    (h : d.WellFormed) (hadd : d.addNonterminal name = .ok (e, n)) : e.WellFormed := by
  unfold addNonterminal at hadd
  split at hadd
  · cases hadd
  · cases hadd
    exact h.grow (by simp) (by simp) rfl rfl

theorem addProduction_wellFormed {d e : Definition} {head : NonterminalId}
    {body : List Symbol} {p : ProductionId} (h : d.WellFormed)
    (hadd : d.addProduction head body = .ok (e, p)) : e.WellFormed := by
  unfold addProduction at hadd
  split at hadd
  · cases hadd
  · next hhead =>
      split at hadd
      · cases hadd
      · next hlength =>
          split at hadd
          · cases hadd
          · next hbody =>
              split at hadd
              · cases hadd
              · cases hadd
                have hsymbols : ∀ s ∈ body, d.hasSymbol s = true := by
                  simpa using hbody
                refine ⟨h.terminals, h.nonterminals, ?_, ?_, ?_, h.start⟩
                · intro r hr
                  rcases List.mem_append.mp hr with hr | hr
                  · exact h.heads r hr
                  · rw [List.mem_singleton.mp hr]
                    simpa [hasNonterminal] using hhead
                · intro r hr
                  rcases List.mem_append.mp hr with hr | hr
                  · exact h.lengths r hr
                  · rw [List.mem_singleton.mp hr]
                    exact Nat.le_of_not_lt hlength
                · intro r hr
                  rcases List.mem_append.mp hr with hr | hr
                  · exact h.symbols r hr
                  · rw [List.mem_singleton.mp hr]
                    exact hsymbols

theorem setStart_wellFormed {d e : Definition} {n : NonterminalId} (h : d.WellFormed)
    (hset : d.setStart n = .ok e) : e.WellFormed := by
  unfold setStart at hset
  split at hset
  · next hn =>
      cases hset
      refine ⟨h.terminals, h.nonterminals, h.heads, h.lengths, h.symbols, ?_⟩
      intro m hm
      cases hm
      exact hn
  · cases hset

/-- One declaration keeps a definition well-formed. -/
theorem declare_wellFormed {d e : Definition} {x : Declaration} {id : Option Nat}
    (h : d.WellFormed) (hdeclare : d.declare x = .ok (e, id)) : e.WellFormed := by
  cases x with
  | terminal name =>
      cases hadd : d.addTerminal name with
      | error _ => simp [declare, hadd, Except.map] at hdeclare
      | ok r =>
          simp only [declare, hadd, Except.map, Except.ok.injEq, Prod.mk.injEq] at hdeclare
          exact hdeclare.1 ▸ addTerminal_wellFormed h hadd
  | nonterminal name =>
      cases hadd : d.addNonterminal name with
      | error _ => simp [declare, hadd, Except.map] at hdeclare
      | ok r =>
          simp only [declare, hadd, Except.map, Except.ok.injEq, Prod.mk.injEq] at hdeclare
          exact hdeclare.1 ▸ addNonterminal_wellFormed h hadd
  | production head body =>
      cases hadd : d.addProduction head body with
      | error _ => simp [declare, hadd, Except.map] at hdeclare
      | ok r =>
          simp only [declare, hadd, Except.map, Except.ok.injEq, Prod.mk.injEq] at hdeclare
          exact hdeclare.1 ▸ addProduction_wellFormed h hadd
  | start n =>
      cases hset : d.setStart n with
      | error _ => simp [declare, hset, Except.map] at hdeclare
      | ok r =>
          simp only [declare, hset, Except.map, Except.ok.injEq, Prod.mk.injEq] at hdeclare
          exact hdeclare.1 ▸ setStart_wellFormed h hset

theorem declareAll_wellFormed {ds : List Declaration} {d e : Definition} (h : d.WellFormed)
    (hdeclare : d.declareAll ds = .ok e) : e.WellFormed := by
  induction ds generalizing d with
  | nil =>
      cases hdeclare
      exact h
  | cons x ds ih =>
      rw [declareAll, List.foldlM_cons] at hdeclare
      cases hx : d.declare x with
      | error _ =>
          rw [hx] at hdeclare
          cases hdeclare
      | ok r =>
          obtain ⟨e, id⟩ := r
          rw [hx] at hdeclare
          exact ih (declare_wellFormed h hx) hdeclare

/-- The start symbol was declared by name, also if it was not chosen. -/
theorem WellFormed.startSymbol {d : Definition} (h : d.WellFormed) {s : NonterminalId}
    (hs : d.startSymbol = some s) : d.hasNonterminal s = true := by
  unfold Definition.startSymbol at hs
  cases hstart : d.start with
  | some n =>
      rw [hstart] at hs
      cases hs
      exact h.start s hstart
  | none =>
      rw [hstart, Option.none_or] at hs
      split at hs
      · next hlt =>
          cases hs
          exact hasNonterminal_iff.mpr ⟨Nat.one_ne_zero, hlt⟩
      · cases hs

/-- What has been declared makes a well-formed grammar. -/
theorem WellFormed.finish {d : Definition} {g : Grammar} (h : d.WellFormed)
    (hfinish : d.finish = .ok g) : g.WellFormed := by
  unfold Definition.finish at hfinish
  split at hfinish
  · cases hfinish
  · next s hs =>
      cases hfinish
      have hstart := hasNonterminal_iff.mp (h.startSymbol hs)
      have hsymbol : ∀ x, d.hasSymbol x = true → Grammar.IsUserSymbol ⟨d.terminals,
          d.nonterminals, ⟨.root, [.nonterminal s]⟩ :: d.productions, s⟩ x := by
        intro x hx
        cases x with
        | terminal t => exact hasSymbol_terminal_iff.mp hx
        | nonterminal n => exact hasNonterminal_iff.mp hx
      refine ⟨h.terminals, h.nonterminals, rfl, hstart, ?_, ?_, ?_⟩
      · intro p r hr hp
        cases p with
        | zero => exact absurd rfl hp
        | succ p =>
            exact hasNonterminal_iff.mp (h.heads r (List.mem_of_getElem? (by simpa using hr)))
      · intro r hr
        rcases List.mem_cons.mp hr with rfl | hr
        · exact Nat.le_of_ble_eq_true rfl
        · exact h.lengths r hr
      · intro r hr x hx
        rcases List.mem_cons.mp hr with rfl | hr
        · rw [List.mem_singleton.mp hx]
          exact hstart
        · exact hsymbol x (h.symbols r hr x hx)

end Definition

namespace Grammar

/-- A grammar that declarations make is well-formed. -/
theorem wellFormed_of_define {ds : List Declaration} {g : Grammar}
    (h : Grammar.define ds = .ok g) : g.WellFormed := by
  unfold Grammar.define at h
  split at h
  · cases h
  · next d hd =>
      exact (Definition.declareAll_wellFormed Definition.empty_wellFormed hd).finish h

end Grammar

end ParserForge

import Mathlib
import ParserForge.Proofs.Grammar.Follow

/-!
Which items are possible after some symbols.  An item is given by its production, the symbols
before its dot and those behind it.  `Viable` follows the predictions alone, `ViableOn` also keeps
a terminal that can stand behind the production; a predicted production gets it from what begins
the rest of the body that predicts it or, if that rest is nullable, from the item that predicts it.
-/

namespace ParserForge

namespace Grammar

/-- After the symbols `γ`, production `p` can have its symbols `α` behind it and `β` before it. -/
inductive Viable (g : Grammar) :
    List Symbol → ProductionId → List Symbol → List Symbol → Prop where
  | start : Viable g [] .accept [] [.nonterminal g.start]
  | advance {γ α β : List Symbol} {p : ProductionId} {X : Symbol} :
      Viable g γ p α (X :: β) → Viable g (γ ++ [X]) p (α ++ [X]) β
  | predict {γ α β : List Symbol} {p q : ProductionId} {r : Production} :
      Viable g γ p α (.nonterminal r.head :: β) → g.productions[q]? = some r →
        Viable g γ q [] r.body

/-- As `Viable`, with a terminal that can stand behind the production. -/
inductive ViableOn (g : Grammar) :
    List Symbol → ProductionId → List Symbol → List Symbol → TerminalId → Prop where
  | start : ViableOn g [] .accept [] [.nonterminal g.start] .eoi
  | advance {γ α β : List Symbol} {p : ProductionId} {X : Symbol} {t : TerminalId} :
      ViableOn g γ p α (X :: β) t → ViableOn g (γ ++ [X]) p (α ++ [X]) β t
  | begins {γ α β : List Symbol} {p q : ProductionId} {r : Production} {t : TerminalId} :
      Viable g γ p α (.nonterminal r.head :: β) → g.productions[q]? = some r →
        g.Begins β t → ViableOn g γ q [] r.body t
  | inherits {γ α β : List Symbol} {p q : ProductionId} {r : Production} {t : TerminalId} :
      ViableOn g γ p α (.nonterminal r.head :: β) t → g.productions[q]? = some r →
        g.Nullable β → ViableOn g γ q [] r.body t

variable {g : Grammar} {γ α β δ : List Symbol} {p q : ProductionId} {r : Production}
  {t : TerminalId}

theorem ViableOn.viable (h : g.ViableOn γ p α β t) : g.Viable γ p α β := by
  induction h with
  | start => exact .start
  | advance _ ih => exact .advance ih
  | begins h hr _ => exact .predict h hr
  | inherits _ hr _ ih => exact .predict ih hr

namespace Viable

/-- The symbols around the dot are the body of the production. -/
theorem production (hg : g.WellFormed) (h : g.Viable γ p α β) :
    ∃ r, g.productions[p]? = some r ∧ r.body = α ++ β := by
  induction h with
  | start => exact ⟨_, hg.accept, rfl⟩
  | advance _ ih =>
      obtain ⟨r, hr, hbody⟩ := ih
      exact ⟨r, hr, by simpa using hbody⟩
  | predict _ hr _ => exact ⟨_, hr, rfl⟩

theorem body_eq (hg : g.WellFormed) (h : g.Viable γ p α β) (hr : g.productions[p]? = some r) :
    r.body = α ++ β := by
  obtain ⟨s, hs, hbody⟩ := h.production hg
  cases hr.symm.trans hs
  exact hbody

/-- The seen part of the body is the end of the symbols, and was expected before them. -/
theorem before (h : g.Viable γ p α β) : ∃ δ, γ = δ ++ α ∧ g.Viable δ p [] (α ++ β) := by
  induction h with
  | start => exact ⟨[], rfl, .start⟩
  | advance _ ih =>
      obtain ⟨δ, rfl, h⟩ := ih
      exact ⟨δ, by simp, by simpa using h⟩
  | @predict γ α β p q r h hr _ => exact ⟨γ, by simp, .predict h hr⟩

theorem isUserSymbol (hg : g.WellFormed) (h : g.Viable γ p α β) :
    ∀ s ∈ α ++ β, g.IsUserSymbol s := by
  obtain ⟨r, hr, hbody⟩ := h.production hg
  rw [← hbody]
  exact hg.symbols r (List.mem_of_getElem? hr)

/-- The start of a production is predicted by an item that expects its head, unless it is the
first production. -/
theorem predicted (h : g.Viable γ p [] β) (hp : p ≠ .accept) (hr : g.productions[p]? = some r) :
    ∃ q α' β', g.Viable γ q α' (.nonterminal r.head :: β') := by
  generalize hα : ([] : List Symbol) = α at h
  cases h with
  | start => exact absurd rfl hp
  | advance => simp at hα
  | predict h hs =>
      cases hr.symm.trans hs
      exact ⟨_, _, _, h⟩

/-- No item expects the head of the first production. -/
theorem ne_accept (hg : g.WellFormed) (h : g.Viable γ p α (.nonterminal r.head :: β))
    (hr : g.productions[q]? = some r) : q ≠ .accept := by
  rintro rfl
  have hhead := h.isUserSymbol hg (.nonterminal r.head) (by simp)
  rw [Option.some.inj (hr.symm.trans hg.accept)] at hhead
  exact hhead.1 rfl

/-- The first production is expected at the very beginning only. -/
theorem eq_nil_of_accept (hg : g.WellFormed) (h : g.Viable γ .accept [] β) : γ = [] := by
  generalize hα : ([] : List Symbol) = α at h
  generalize hp : ProductionId.accept = p at h
  cases h with
  | start => rfl
  | advance => simp at hα
  | predict h hs =>
      exact absurd hp.symm (h.ne_accept hg hs)

theorem eq_of_accept (hg : g.WellFormed) (h : g.Viable γ .accept α β) : γ = α := by
  obtain ⟨δ, rfl, hstart⟩ := h.before
  have hδ : δ = [] := hstart.eq_nil_of_accept hg
  rw [hδ, List.nil_append]

end Viable

namespace ViableOn

/-- The dot moves over the symbols that come next. -/
theorem advance_append (h : g.ViableOn γ p α (δ ++ β) t) :
    g.ViableOn (γ ++ δ) p (α ++ δ) β t := by
  induction δ generalizing γ α with
  | nil => simpa using h
  | cons X δ ih => simpa using ih h.advance

/-- Behind its whole body a production is complete. -/
theorem complete (h : g.ViableOn γ p [] δ t) : g.ViableOn (γ ++ δ) p δ [] t := by
  rw [← List.append_nil δ] at h
  exact h.advance_append

/-- The terminal could stand behind the production before any of its body had been seen. -/
theorem before (h : g.ViableOn γ p α β t) :
    ∃ δ, γ = δ ++ α ∧ g.ViableOn δ p [] (α ++ β) t := by
  induction h with
  | start => exact ⟨[], rfl, .start⟩
  | advance _ ih =>
      obtain ⟨δ, rfl, h⟩ := ih
      exact ⟨δ, by simp, by simpa using h⟩
  | @begins γ α β p q r t h hr hbegins => exact ⟨γ, by simp, .begins h hr hbegins⟩
  | @inherits γ α β p q r t h hr hnull _ => exact ⟨γ, by simp, .inherits h hr hnull⟩

/-- What can stand behind a production is the end of the input or a terminal that was declared by
name. -/
theorem eoi_or_isUserTerminal (hg : g.WellFormed) (h : g.ViableOn γ p α β t) :
    t = .eoi ∨ g.IsUserTerminal t := by
  induction h with
  | start => exact Or.inl rfl
  | advance _ ih => exact ih
  | begins h _ hbegins =>
      refine Or.inr (hbegins.isUserTerminal hg fun s hs => ?_)
      exact h.isUserSymbol hg s (by simp [hs])
  | inherits _ _ _ ih => exact ih

theorem lt_length (hg : g.WellFormed) (h : g.ViableOn γ p α β t) : t < g.terminals.length := by
  rcases h.eoi_or_isUserTerminal hg with rfl | ht
  · exact Nat.lt_of_lt_of_le Nat.two_pos hg.terminals
  · exact ht.2

/-- What can stand behind a production follows its head. -/
theorem mem_follow (hg : g.WellFormed) (h : g.ViableOn γ p α β t) :
    t ∈ (FollowSets.ofGrammar g (.ofGrammar g)).get (g.head p) := by
  induction h with
  | start =>
      rw [head_eq hg.accept]
      exact (FollowSets.sound_ofGrammar hg).root
  | advance _ ih => exact ih
  | begins h hr hbegins =>
      obtain ⟨s, hs, hbody⟩ := h.production hg
      rw [head_eq hr]
      exact FollowSets.mem_get_of_begins hg (List.mem_of_getElem? hs) hbody hbegins
  | inherits h hr hnull ih =>
      obtain ⟨s, hs, hbody⟩ := h.viable.production hg
      rw [head_eq hs] at ih
      rw [head_eq hr]
      exact FollowSets.mem_get_of_nullable hg (List.mem_of_getElem? hs) hbody hnull ih

/-- A production that is predicted before trees can be followed by their first leaf or, if they
have none, by what follows the production that predicts it. -/
theorem predict {w : List TerminalId} {ps : List ProductionId} {v : List TerminalId}
    (h : g.ViableOn γ p α (.nonterminal r.head :: β) (v.head?.getD .eoi))
    (hr : g.productions[q]? = some r) (hβ : g.Yields β w ps) :
    g.ViableOn γ q [] r.body ((w ++ v).head?.getD .eoi) := by
  cases w with
  | nil => exact .inherits h hr ⟨ps, hβ⟩
  | cons u w => exact .begins h.viable hr hβ.begins

end ViableOn

end Grammar

end ParserForge

import Mathlib
import ParserForge.Proofs.Grammar.Reachable
import ParserForge.Proofs.Item.Viable

/-!
Which terminals can come next.  A terminal that can come after a nonterminal can stand behind each
of its productions, and if all reachable nonterminals can start somehow, something can come next
wherever an item is possible.
-/

namespace ParserForge

namespace Grammar

/-- After the symbols, the terminal can begin what an item expects, or stand behind an item that
needs no more symbols. -/
def Next (g : Grammar) (γ : List Symbol) (t : TerminalId) : Prop :=
  ∃ p α β, g.Viable γ p α β ∧ g.Begins β t ∨ g.ViableOn γ p α β t ∧ g.Nullable β

variable {g : Grammar} {γ δ α β : List Symbol} {X : Symbol} {p : ProductionId} {r : Production}
  {t : TerminalId}

theorem Next.lt_length (hg : g.WellFormed) (h : g.Next γ t) : t < g.terminals.length := by
  obtain ⟨p, α, β, ⟨h, hbegins⟩ | ⟨h, _⟩⟩ := h
  · exact (hbegins.isUserTerminal hg fun s hs => h.isUserSymbol hg s (by simp [hs])).2
  · exact h.lt_length hg

theorem Viable.next (h : g.Viable γ p α (.terminal t :: β)) : g.Next γ t :=
  ⟨p, α, _, Or.inl ⟨h, .leaf t β⟩⟩

theorem ViableOn.next (h : g.ViableOn γ p α [] t) : g.Next γ t :=
  ⟨p, α, [], Or.inr ⟨h, nullable_nil⟩⟩

/-- The end of the input can come next after the start symbol. -/
theorem next_eoi : g.Next [.nonterminal g.start] .eoi := ViableOn.start.advance.next

/-- What can begin the rest of an item can begin the rest of one that is not predicted. -/
theorem Viable.exists_before_begins (h : g.Viable γ p α β) (ht : g.Begins β t)
    (hγ : γ = δ ++ [X]) : ∃ q α' β', g.Viable δ q α' (X :: β') ∧ g.Begins β' t := by
  induction h with
  | start => simp at hγ
  | advance h _ =>
      obtain ⟨rfl, rfl⟩ := List.append_singleton_inj.mp hγ
      exact ⟨_, _, _, h, ht⟩
  | predict _ hr ih => exact ih (.node _ hr ht) hγ

/-- What can stand behind an item that needs no more symbols can begin the rest of an item that is
not predicted, or stand behind it. -/
theorem ViableOn.exists_before_nullable (h : g.ViableOn γ p α β t) (hβ : g.Nullable β)
    (hγ : γ = δ ++ [X]) : ∃ q α' β', g.Viable δ q α' (X :: β') ∧ g.Begins β' t ∨
      g.ViableOn δ q α' (X :: β') t ∧ g.Nullable β' := by
  induction h with
  | start => simp at hγ
  | advance h _ =>
      obtain ⟨rfl, rfl⟩ := List.append_singleton_inj.mp hγ
      exact ⟨_, _, _, Or.inr ⟨h, hβ⟩⟩
  | begins h hr hbegins =>
      obtain ⟨q, α', β', hbefore⟩ :=
        h.exists_before_begins (.skip (.of_body hr hβ) hbegins) hγ
      exact ⟨q, α', β', Or.inl hbefore⟩
  | inherits _ hr hnull ih => exact ih (Nullable.append (.of_body hr hβ) hnull) hγ

/-- What can come after a nonterminal can stand behind each of its productions. -/
theorem Next.viableOn (h : g.Next (δ ++ [.nonterminal r.head]) t)
    (hr : g.productions[p]? = some r) : g.ViableOn δ p [] r.body t := by
  obtain ⟨_, _, _, ⟨h, hbegins⟩ | ⟨h, hnull⟩⟩ := h
  · obtain ⟨_, _, _, hbefore, hrest⟩ := h.exists_before_begins hbegins rfl
    exact .begins hbefore hr hrest
  · obtain ⟨_, _, _, ⟨hbefore, hrest⟩ | ⟨hbefore, hrest⟩⟩ := h.exists_before_nullable hnull rfl
    · exact .begins hbefore hr hrest
    · exact .inherits hbefore hr hrest

/-- What an item expects occurs in something that the start symbol derives. -/
theorem Viable.derives (h : g.Viable γ p α β) :
    ∃ δ, g.Derives [.nonterminal g.start] (γ ++ β ++ δ) := by
  induction h with
  | start => exact ⟨[], .refl⟩
  | advance _ ih =>
      obtain ⟨δ, hδ⟩ := ih
      exact ⟨δ, by simpa using hδ⟩
  | @predict γ α β p q r _ hr ih =>
      obtain ⟨δ, hδ⟩ := ih
      refine ⟨β ++ δ, hδ.tail ⟨r, List.mem_of_getElem? hr, γ, β ++ δ, ?_, ?_⟩⟩
      · simp
      · simp

theorem Viable.reachable {n : NonterminalId} (h : g.Viable γ p α β)
    (hn : Symbol.nonterminal n ∈ β) : g.Reachable n := by
  obtain ⟨δ, hδ⟩ := h.derives
  obtain ⟨β₁, β₂, rfl⟩ := List.append_of_mem hn
  exact ⟨γ ++ β₁, β₂ ++ δ, by simpa using hδ⟩

section Starts

variable (hstarts : ∀ n, g.Reachable n → g.Starts n)

include hstarts

theorem Viable.begins_or_nullable (h : g.Viable γ p α β) :
    (∃ t, g.Begins β t) ∨ g.Nullable β :=
  Grammar.begins_or_nullable fun n hn => hstarts n (h.reachable hn)

/-- Something can stand behind every possible item. -/
theorem Viable.exists_viableOn (h : g.Viable γ p α β) : ∃ t, g.ViableOn γ p α β t := by
  induction h with
  | start => exact ⟨_, .start⟩
  | advance _ ih =>
      obtain ⟨t, ht⟩ := ih
      exact ⟨t, ht.advance⟩
  | predict h hr ih =>
      obtain ⟨t, ht⟩ := ih
      have hrest := Grammar.begins_or_nullable fun n hn =>
        hstarts n (h.reachable (List.mem_cons_of_mem _ hn))
      rcases hrest with ⟨u, hu⟩ | hnull
      · exact ⟨u, .begins h hr hu⟩
      · exact ⟨t, .inherits ht hr hnull⟩

/-- Something can come next where an item is possible. -/
theorem Viable.exists_next (h : g.Viable γ p α β) : ∃ t, g.Next γ t := by
  rcases h.begins_or_nullable hstarts with ⟨t, ht⟩ | hnull
  · exact ⟨t, p, α, β, Or.inl ⟨h, ht⟩⟩
  · obtain ⟨t, ht⟩ := h.exists_viableOn hstarts
    exact ⟨t, p, α, β, Or.inr ⟨ht, hnull⟩⟩

end Starts

end Grammar

end ParserForge

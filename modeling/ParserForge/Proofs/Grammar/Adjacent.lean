import Mathlib
import ParserForge.Proofs.Grammar.Beginning
import ParserForge.Proofs.Grammar.Follow

/-!
FOLLOW sets against derivations.  A terminal follows a nonterminal just if the two stand side by
side in something that a nonterminal derives, be it reachable or not, and the end of the input
follows it just if the root derives something that ends with it.  In the one direction the sets never
hold more than that, however far the rounds have come; in the other direction a derivation is
followed step by step, and the production that parts the two symbols puts the terminal into the set.
-/

namespace ParserForge

namespace Grammar

variable {g : Grammar} {α β γ δ ζ ρ : List Symbol} {n : NonterminalId} {r : Production}
  {t : TerminalId} {P : Prop}

/-- A nonterminal of a body keeps its place while the body replaces its head, and what stands
behind it is derived further. -/
theorem Derives.expand_place (h : g.Derives ζ (γ ++ .nonterminal r.head :: δ))
    (hr : r ∈ g.productions) (hbody : r.body = α ++ .nonterminal n :: β)
    (hρ : g.Derives (β ++ δ) ρ) : g.Derives ζ (γ ++ α ++ .nonterminal n :: ρ) := by
  have hstep : g.Rewrites (γ ++ .nonterminal r.head :: δ) (γ ++ r.body ++ δ) :=
    ⟨r, hr, γ, δ, rfl, rfl⟩
  have hrest := hρ.in_context (γ ++ α ++ [.nonterminal n]) []
  refine .trans (h.tail hstep) ?_
  change g.Derives _ _
  simpa [hbody] using hrest

/-- A symbol between two parts stands in the first or in the second. -/
theorem append_eq_append_cons {X : Symbol} (h : α ++ β = γ ++ X :: δ) :
    (∃ ζ, α = γ ++ X :: ζ ∧ δ = ζ ++ β) ∨ ∃ ζ, γ = α ++ ζ ∧ β = ζ ++ X :: δ := by
  rcases List.append_eq_append_iff.mp h with ⟨ζ, hγ, hβ⟩ | ⟨ζ, hα, hrest⟩
  · exact Or.inr ⟨ζ, hγ, hβ⟩
  · cases ζ with
    | nil => exact Or.inr ⟨[], by simpa using hα.symm, by simpa using hrest.symm⟩
    | cons Y ζ =>
        obtain ⟨rfl, rfl⟩ := List.cons.inj hrest
        exact Or.inl ⟨ζ, hα, rfl⟩

/-- Where one symbol after the other may vanish, what begins the whole begins the first part, or the
second one behind a first part that vanishes. -/
theorem begins_or_nullable_append (h : g.Begins (γ ++ δ) t ∨ g.Nullable (γ ++ δ) ∧ P) :
    g.Begins γ t ∨ g.Nullable γ ∧ (g.Begins δ t ∨ g.Nullable δ ∧ P) := by
  rcases h with h | ⟨h, hP⟩
  · rcases h.split with hγ | ⟨hγ, hδ⟩
    · exact Or.inl hγ
    · exact Or.inr ⟨hγ, Or.inl hδ⟩
  · exact Or.inr ⟨h.split.1, Or.inr ⟨h.split.2, hP⟩⟩

/-- A step of a derivation loses nothing of what can begin a sequence, nor that it can vanish. -/
theorem Rewrites.begins_or_nullable (hstep : g.Rewrites γ δ)
    (h : g.Begins δ t ∨ g.Nullable δ ∧ P) : g.Begins γ t ∨ g.Nullable γ ∧ P := by
  refine h.imp hstep.begins fun ⟨hδ, hP⟩ => ⟨?_, hP⟩
  exact nullable_iff.mpr (.head hstep (nullable_iff.mp hδ))

end Grammar

namespace FollowSets

open Grammar

variable {g : Grammar} {s : SetTable} {α β γ δ : List Symbol} {n m : NonterminalId}
  {r : Production} {t : TerminalId}

/-- The sets tell the truth: a member other than the end of the input stands behind the nonterminal
in something that is derived, and if the end is a member, something that the root derives ends
there. -/
structure Truthful (g : Grammar) (s : SetTable) : Prop where
  terminal : ∀ n t, t ∈ s.get n → t ≠ .eoi → ∃ m < g.nonterminals.length, ∃ α β,
    g.Derives [.nonterminal m] (α ++ .nonterminal n :: .terminal t :: β)
  eoi : ∀ n, TerminalId.eoi ∈ s.get n →
    ∃ α, g.Derives [.nonterminal .root] (α ++ [.nonterminal n])
  epsilon : ∀ n, TerminalId.epsilon ∉ s.get n

theorem truthful_initial (hg : g.WellFormed) : Truthful g (initial g) where
  terminal := fun _ _ h hne => absurd ((mem_get_initial hg).mp h).1 hne
  eoi := by
    intro n h
    obtain ⟨_, rfl | rfl⟩ := (mem_get_initial hg).mp h
    · exact ⟨[], .refl⟩
    · exact ⟨[], .single ⟨_, List.mem_of_getElem? hg.accept, [], [], rfl, rfl⟩⟩
  epsilon := fun _ h => absurd ((mem_get_initial hg).mp h).1 (by decide)

/-- What a place in a body adds to the sets is true if they are. -/
theorem truthful_add (hg : g.WellFormed) (hs : Truthful g s) (hr : r ∈ g.productions)
    (hbody : r.body = α ++ .nonterminal n :: β) :
    Truthful g (s.add n (behind (.ofGrammar g) s r.head β)) := by
  have hβ : ∀ X ∈ β, g.IsUserSymbol X := fun X hX => hg.symbols r hr X (by simp [hbody, hX])
  have hcases : ∀ {m t}, t ∈ (s.add n (behind (.ofGrammar g) s r.head β)).get m →
      t ∈ s.get m ∨ m = n ∧ (g.Begins β t ∨ g.Nullable β ∧ t ∈ s.get r.head) := fun h =>
    (SetTable.mem_get_add.mp h).imp_right fun ⟨hm, _, ht⟩ => ⟨hm, (mem_behind_iff hg hβ).mp ht⟩
  refine ⟨fun m t h hne => ?_, fun m h => ?_, fun m h => ?_⟩
  · rcases hcases h with h | ⟨rfl, hbegins | ⟨hnull, h⟩⟩
    · exact hs.terminal m t h hne
    · obtain ⟨δ, hδ⟩ := hbegins.derives
      have hhead : g.Derives [.nonterminal r.head] ([] ++ .nonterminal r.head :: []) := .refl
      refine ⟨r.head, hg.head_lt hr, α, δ, ?_⟩
      simpa using hhead.expand_place hr hbody (by simpa using hδ)
    · obtain ⟨m', hm', γ, δ, hderives⟩ := hs.terminal r.head t h hne
      have hrest := (nullable_iff.mp hnull).append (.refl (a := .terminal t :: δ))
      exact ⟨m', hm', γ ++ α, δ, hderives.expand_place hr hbody hrest⟩
  · rcases hcases h with h | ⟨rfl, hbegins | ⟨hnull, h⟩⟩
    · exact hs.eoi m h
    · exact absurd rfl (hbegins.isUserTerminal hg hβ).ne_eoi
    · obtain ⟨γ, hderives⟩ := hs.eoi r.head h
      exact ⟨γ ++ α, hderives.expand_place hr hbody (by simpa using nullable_iff.mp hnull)⟩
  · rcases hcases h with h | ⟨rfl, hbegins | ⟨_, h⟩⟩
    · exact hs.epsilon m h
    · exact (hbegins.isUserTerminal hg hβ).ne_epsilon rfl
    · exact hs.epsilon r.head h

theorem truthful_ofGrammar (hg : g.WellFormed) :
    Truthful g (ofGrammar g (.ofGrammar g)).table := by
  refine stabilize_induction (fun s hs => ?_) _ (truthful_initial hg)
  exact round_induction (fun s hs r hr α n β hbody => truthful_add hg hs hr hbody) hs

/-- What begins the rest behind a nonterminal, in something that is derived, follows it; and if that
rest can vanish, so does what follows the nonterminal from which all is derived. -/
theorem mem_get_of_derives (hg : g.WellFormed) (h : g.Derives [.nonterminal m] γ)
    (hγ : γ = α ++ .nonterminal n :: δ)
    (ht : g.Begins δ t ∨ g.Nullable δ ∧ t ∈ (ofGrammar g (.ofGrammar g)).get m) :
    t ∈ (ofGrammar g (.ofGrammar g)).get n := by
  induction h generalizing α n δ with
  | refl =>
      obtain ⟨rfl, rfl, rfl⟩ : α = [] ∧ m = n ∧ δ = [] := by
        cases α with
        | nil => simpa [eq_comm] using hγ
        | cons X α => simp at hγ
      rcases ht with hbegins | ⟨_, ht⟩
      · cases hbegins
      · exact ht
  | tail _ hstep ih =>
      obtain ⟨r, hr, γ₁, γ₂, rfl, rfl⟩ := hstep
      -- the nonterminal stands before the replaced head, in its body, or behind it
      rw [List.append_assoc] at hγ
      rcases append_eq_append_cons hγ with ⟨ζ, rfl, rfl⟩ | ⟨ζ, rfl, hrest⟩
      · have hback : g.Rewrites (ζ ++ .nonterminal r.head :: γ₂) (ζ ++ (r.body ++ γ₂)) :=
          ⟨r, hr, ζ, γ₂, rfl, by simp⟩
        exact ih (List.append_assoc α _ _) (hback.begins_or_nullable ht)
      · rcases append_eq_append_cons hrest with ⟨β, hbody, rfl⟩ | ⟨β, rfl, rfl⟩
        · rcases begins_or_nullable_append ht with hbegins | ⟨hnull, ht⟩
          · exact mem_get_of_begins hg hr hbody hbegins
          · exact mem_get_of_nullable hg hr hbody hnull (ih rfl ht)
        · exact ih (α := γ₁ ++ .nonterminal r.head :: β) (by simp) ht

/-- The FOLLOW sets come to rest.  A terminal that inputs can hold is in the set of a nonterminal if
and only if some nonterminal derives a sequence in which it stands right behind, and the end of the
input is there if and only if the root derives a sequence that ends with the nonterminal.  No set
holds the mark for the empty word. -/
theorem follow_exact {ds : List Declaration} (hg : Grammar.define ds = .ok g) :
    RestsAt (round g (.ofGrammar g)) (initial g) (ofGrammar g (.ofGrammar g)).table ∧
    ∀ n < g.nonterminals.length,
      (∀ t, g.IsUserTerminal t → (t ∈ (ofGrammar g (.ofGrammar g)).get n ↔
        ∃ m < g.nonterminals.length, ∃ α β,
          g.Derives [.nonterminal m] (α ++ .nonterminal n :: .terminal t :: β))) ∧
      (TerminalId.eoi ∈ (ofGrammar g (.ofGrammar g)).get n ↔
        ∃ α, g.Derives [.nonterminal .root] (α ++ [.nonterminal n])) ∧
      TerminalId.epsilon ∉ (ofGrammar g (.ofGrammar g)).get n := by
  have hwf := wellFormed_of_define hg
  have htruthful := truthful_ofGrammar hwf
  refine ⟨restsAt_stabilize (round_ofGrammar hwf), fun n _ => ⟨fun t ht => ⟨fun h => ?_, ?_⟩,
    ⟨htruthful.eoi n, ?_⟩, htruthful.epsilon n⟩⟩
  · exact htruthful.terminal n t h ht.ne_eoi
  · rintro ⟨m, _, α, β, hderives⟩
    exact mem_get_of_derives hwf hderives rfl (Or.inl (.leaf t β))
  · rintro ⟨α, hderives⟩
    have hroot := (sound_ofGrammar hwf).root
    exact mem_get_of_derives hwf hderives rfl (Or.inr ⟨nullable_nil, hroot⟩)

theorem follow_exact_nested : Grammar.define Nested.declarations = .ok Nested.grammar ∧
    (1 < Nested.grammar.nonterminals.length ∧ Nested.grammar.IsUserTerminal 3) ∧
    (3 ∈ (ofGrammar Nested.grammar (.ofGrammar Nested.grammar)).get 1 ↔
      ∃ m < Nested.grammar.nonterminals.length, ∃ α β, Nested.grammar.Derives [.nonterminal m]
        (α ++ .nonterminal 1 :: .terminal 3 :: β)) := by
  have hn : 1 < Nested.grammar.nonterminals.length := by decide
  have ht : Nested.grammar.IsUserTerminal 3 := ⟨by decide, by decide⟩
  exact ⟨Nested.define_declarations, ⟨hn, ht⟩,
    ((follow_exact Nested.define_declarations).2 1 hn).1 3 ht⟩

end FollowSets

end ParserForge

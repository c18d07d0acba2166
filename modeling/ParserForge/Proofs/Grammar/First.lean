import Mathlib
import ParserForge.Proofs.Grammar.TerminalSet
import ParserForge.Proofs.Grammar.WellFormed

/-!
FIRST sets are exact.  A terminal is in the FIRST set of a sequence of symbols if what the sequence
derives can begin with it, and the mark for the empty word is there if the sequence is nullable.
-/

namespace ParserForge

namespace Grammar

/-- What the symbols derive can begin with the terminal. -/
inductive Begins (g : Grammar) : List Symbol → TerminalId → Prop where
  | leaf (t : TerminalId) (γ : List Symbol) : Begins g (.terminal t :: γ) t
  | node {p : ProductionId} {r : Production} {t : TerminalId} (γ : List Symbol) :
      g.productions[p]? = some r → Begins g r.body t → Begins g (.nonterminal r.head :: γ) t
  | skip {n : NonterminalId} {γ : List Symbol} {t : TerminalId} :
      g.Nullable [.nonterminal n] → Begins g γ t → Begins g (.nonterminal n :: γ) t

variable {g : Grammar} {γ δ : List Symbol} {t : TerminalId}

theorem Begins.append (h : g.Begins γ t) (δ : List Symbol) : g.Begins (γ ++ δ) t := by
  induction h with
  | leaf t γ => exact .leaf t _
  | node γ hr hbody _ => exact .node _ hr hbody
  | skip hnull _ ih => exact .skip hnull ih

/-- The first leaf of trees begins what their roots derive. -/
theorem Yields.begins {w : List TerminalId} {ps : List ProductionId}
    (h : g.Yields γ (t :: w) ps) : g.Begins γ t := by
  generalize hv : t :: w = v at h
  induction h generalizing w with
  | nil => cases hv
  | leaf u _ _ =>
      cases hv
      exact .leaf t _
  | @node γ u v ps qs p r hr hbody _ ihbody ihrest =>
      cases u with
      | nil => exact .skip ⟨_, .single hr hbody⟩ (ihrest hv)
      | cons x u =>
          cases hv
          exact .node _ hr (ihbody rfl)

theorem Nullable.of_body {p : ProductionId} {r : Production} (hr : g.productions[p]? = some r)
    (h : g.Nullable r.body) : g.Nullable [.nonterminal r.head] := by
  obtain ⟨ps, h⟩ := h
  exact ⟨_, .single hr h⟩

theorem nullable_nil : g.Nullable [] := ⟨[], .nil⟩

/-- Only terminals that were declared by name can begin what their sequences derive. -/
theorem Begins.isUserTerminal (hg : g.WellFormed) (h : g.Begins γ t)
    (hγ : ∀ s ∈ γ, g.IsUserSymbol s) : g.IsUserTerminal t := by
  induction h with
  | leaf t γ => exact hγ _ List.mem_cons_self
  | node γ hr _ ih => exact ih (hg.symbols _ (List.mem_of_getElem? hr))
  | skip _ _ ih => exact ih fun s hs => hγ s (List.mem_cons_of_mem _ hs)

theorem IsUserTerminal.ne_epsilon (h : g.IsUserTerminal t) : t ≠ .epsilon := by
  rintro rfl
  exact absurd h.1 (by decide)

/-- The mark for the empty word is no declared symbol. -/
theorem epsilon_notMem (h : ∀ s ∈ γ, g.IsUserSymbol s) : Symbol.terminal .epsilon ∉ γ :=
  fun hmem => (h _ hmem : g.IsUserTerminal .epsilon).ne_epsilon rfl

theorem IsUserTerminal.ne_eoi (h : g.IsUserTerminal t) : t ≠ .eoi := by
  rintro rfl
  exact absurd h.1 (by decide)

/-- An input in which nothing is next is at its end. -/
theorem eq_nil_of_head_eoi {w : List TerminalId} (h : w.head?.getD .eoi = .eoi)
    (hw : ∀ a ∈ w, g.IsUserTerminal a) : w = [] := by
  cases w with
  | nil => rfl
  | cons a w => exact absurd h (hw a List.mem_cons_self).ne_eoi

theorem WellFormed.head_lt (hg : g.WellFormed) {r : Production} (hr : r ∈ g.productions) :
    r.head < g.nonterminals.length := by
  obtain ⟨p, hp⟩ := List.mem_iff_getElem?.mp hr
  by_cases h : p = ProductionId.accept
  · subst h
    rw [hg.accept] at hp
    cases hp
    exact hg.nonterminals
  · exact (hg.heads p r hp h).2

end Grammar

namespace SetTable

open Grammar

/-- The sets tell the truth: a member of the set of a nonterminal begins what it derives, and the
mark for the empty word says that it is nullable. -/
structure Truthful (g : Grammar) (s : SetTable) : Prop where
  begins : ∀ n t, t ∈ s.get n → t ≠ .epsilon → g.Begins [.nonterminal n] t
  nullable : ∀ n, TerminalId.epsilon ∈ s.get n → g.Nullable [.nonterminal n]

variable {g : Grammar} {s : SetTable} {γ : List Symbol} {t : TerminalId}

theorem nullable_of_epsilon_mem_firstOf (hs : s.Truthful g) (hγ : Symbol.terminal .epsilon ∉ γ)
    (h : TerminalId.epsilon ∈ s.firstOf γ) : g.Nullable γ := by
  induction γ with
  | nil => exact nullable_nil
  | cons x γ ih =>
      cases x with
      | terminal u =>
          rw [firstOf, TerminalSet.mem_singleton] at h
          subst h
          exact absurd List.mem_cons_self hγ
      | nonterminal n =>
          simp only [firstOf] at h
          split at h
          · next hn =>
              simp only [TerminalSet.mem_union, TerminalSet.mem_erase, ne_eq, not_true_eq_false,
                false_and, false_or] at h
              have hrest := ih (fun hmem => hγ (List.mem_cons_of_mem _ hmem)) h
              exact (hs.nullable n hn).append hrest
          · next hn => exact absurd h hn

theorem begins_of_mem_firstOf (hs : s.Truthful g) (h : t ∈ s.firstOf γ) (ht : t ≠ .epsilon) :
    g.Begins γ t := by
  induction γ with
  | nil =>
      rw [firstOf, TerminalSet.mem_singleton] at h
      exact absurd h ht
  | cons x γ ih =>
      cases x with
      | terminal u =>
          rw [firstOf, TerminalSet.mem_singleton] at h
          subst h
          exact .leaf t γ
      | nonterminal n =>
          simp only [firstOf] at h
          split at h
          · next hn =>
              rw [TerminalSet.mem_union, TerminalSet.mem_erase] at h
              rcases h with ⟨_, h⟩ | h
              · exact (hs.begins n t h ht).append γ
              · exact .skip (hs.nullable n hn) (ih h)
          · exact (hs.begins n t h ht).append γ

theorem firstOf_lt {bound : Nat} (hs : ∀ n t, t ∈ s.get n → t < bound) (hε : 1 < bound)
    (hγ : ∀ u, Symbol.terminal u ∈ γ → u < bound) (h : t ∈ s.firstOf γ) : t < bound := by
  induction γ with
  | nil =>
      rw [firstOf, TerminalSet.mem_singleton] at h
      exact h ▸ hε
  | cons x γ ih =>
      have hrest : ∀ u, Symbol.terminal u ∈ γ → u < bound := fun u hu =>
        hγ u (List.mem_cons_of_mem _ hu)
      cases x with
      | terminal u =>
          rw [firstOf, TerminalSet.mem_singleton] at h
          exact h ▸ hγ u List.mem_cons_self
      | nonterminal n =>
          simp only [firstOf] at h
          split at h
          · rw [TerminalSet.mem_union, TerminalSet.mem_erase] at h
            rcases h with ⟨_, h⟩ | h
            · exact hs n t h
            · exact ih hrest h
          · exact hs n t h

/-- The sets are complete: a production adds nothing to the set of its head. -/
def Closed (g : Grammar) (s : SetTable) : Prop :=
  ∀ r ∈ g.productions, ∀ t, t ∈ s.firstOf r.body → t ∈ s.get r.head

theorem epsilon_mem_firstOf (hs : s.Closed g) (h : g.Nullable γ) :
    TerminalId.epsilon ∈ s.firstOf γ := by
  obtain ⟨ps, h⟩ := h
  generalize hw : ([] : List TerminalId) = w at h
  induction h with
  | nil => exact TerminalSet.mem_singleton.mpr rfl
  | leaf => cases hw
  | @node γ u v ps qs p r hr _ _ ihbody ihrest =>
      obtain ⟨rfl, rfl⟩ := List.append_eq_nil_iff.mp hw.symm
      have hhead := hs r (List.mem_of_getElem? hr) _ (ihbody rfl)
      simp only [firstOf, hhead, if_true, TerminalSet.mem_union]
      exact Or.inr (ihrest rfl)

theorem mem_firstOf (hs : s.Closed g) (h : g.Begins γ t) (ht : t ≠ .epsilon) :
    t ∈ s.firstOf γ := by
  induction h with
  | leaf t γ => exact TerminalSet.mem_singleton.mpr rfl
  | @node p r t γ hr _ ih =>
      have hhead := hs r (List.mem_of_getElem? hr) _ (ih ht)
      simp only [firstOf]
      split
      · exact TerminalSet.mem_union.mpr (Or.inl (TerminalSet.mem_erase.mpr ⟨ht, hhead⟩))
      · exact hhead
  | @skip n γ t hnull _ ih =>
      have hn : TerminalId.epsilon ∈ s.get n := by
        have h := epsilon_mem_firstOf hs hnull
        simp only [firstOf] at h
        split at h
        · next hn => exact hn
        · exact h
      simp only [firstOf, hn, if_true]
      exact TerminalSet.mem_union.mpr (Or.inr (ih ht))

end SetTable

namespace FirstSets

open Grammar

variable {g : Grammar}

/-- What holds of the sets after any number of rounds. -/
structure Sound (g : Grammar) (s : SetTable) : Prop where
  length_eq : s.sets.length = g.nonterminals.length
  truthful : s.Truthful g
  bounded : ∀ n t, t ∈ s.get n → t < g.terminals.length

theorem sound_empty (g : Grammar) : Sound g (.empty g.nonterminals.length) where
  length_eq := by simp [SetTable.empty]
  truthful := ⟨fun _ _ h => absurd h SetTable.not_mem_get_empty,
    fun _ h => absurd h SetTable.not_mem_get_empty⟩
  bounded := fun _ _ h => absurd h SetTable.not_mem_get_empty

theorem sound_add (hg : g.WellFormed) {s : SetTable} (hs : Sound g s) {p : ProductionId}
    {r : Production} (hp : g.productions[p]? = some r) :
    Sound g (s.add r.head (s.firstOf r.body)) := by
  have hr : r ∈ g.productions := List.mem_of_getElem? hp
  have hbody := hg.symbols r hr
  refine ⟨by simpa using hs.length_eq, ⟨?_, ?_⟩, ?_⟩
  · intro n t h ht
    rcases SetTable.mem_get_add.mp h with h | ⟨rfl, _, h⟩
    · exact hs.truthful.begins n t h ht
    · exact .node [] hp (SetTable.begins_of_mem_firstOf hs.truthful h ht)
  · intro n h
    rcases SetTable.mem_get_add.mp h with h | ⟨rfl, _, h⟩
    · exact hs.truthful.nullable n h
    · have hmark := epsilon_notMem hbody
      exact .of_body hp (SetTable.nullable_of_epsilon_mem_firstOf hs.truthful hmark h)
  · intro n t h
    rcases SetTable.mem_get_add.mp h with h | ⟨rfl, _, h⟩
    · exact hs.bounded n t h
    · exact SetTable.firstOf_lt hs.bounded hg.terminals
        (fun u hu => (hbody _ hu : g.IsUserTerminal u).2) h

theorem sound_round (hg : g.WellFormed) {s : SetTable} (hs : Sound g s) :
    Sound g (round g s) := by
  refine List.foldlRecOn g.productions _ hs fun s hs r hr => ?_
  obtain ⟨p, hp⟩ := List.mem_iff_getElem?.mp hr
  exact sound_add hg hs hp

theorem le_round (g : Grammar) (s : SetTable) : s.Le (round g s) :=
  SetTable.le_foldl (fun s (r : Production) => s.le_add r.head (s.firstOf r.body)) g.productions s

theorem sound_ofGrammar (hg : g.WellFormed) : Sound g (ofGrammar g).table :=
  stabilize_induction (fun _ h => sound_round hg h) _ (sound_empty g)

/-- The rounds are enough to come to rest. -/
theorem round_ofGrammar (hg : g.WellFormed) :
    round g (ofGrammar g).table = (ofGrammar g).table := by
  refine stabilize_eq (P := Sound g)
    (fun s => (s.pairs g.terminals.length).card) (g.nonterminals.length * g.terminals.length)
    (fun _ h => sound_round hg h) ?_ ?_ _ (sound_empty g) (by simp only [rounds]; omega)
  · intro s hs hne
    exact SetTable.card_pairs_lt (le_round g s) hne (sound_round hg hs).bounded
  · intro s hs
    have := SetTable.card_pairs_le g.terminals.length s
    rwa [hs.length_eq] at this

theorem closed_ofGrammar (hg : g.WellFormed) : (ofGrammar g).table.Closed g := by
  intro r hr t ht
  have hadd := SetTable.step_eq_of_foldl_eq (l := g.productions)
    (fun (s : SetTable) (r : Production) => s.le_add r.head (s.firstOf r.body))
    (round_ofGrammar hg) r hr
  rw [← hadd]
  have hlt : r.head < (ofGrammar g).table.sets.length := by
    rw [(sound_ofGrammar hg).length_eq]
    exact hg.head_lt hr
  exact SetTable.mem_get_add.mpr (Or.inr ⟨rfl, hlt, ht⟩)

/-- `FIRST` of a sequence holds the terminals that what it derives can begin with. -/
theorem mem_ofSequence_iff (hg : g.WellFormed) {γ : List Symbol} {t : TerminalId}
    (ht : t ≠ .epsilon) : t ∈ (ofGrammar g).ofSequence γ ↔ g.Begins γ t :=
  ⟨fun h => SetTable.begins_of_mem_firstOf (sound_ofGrammar hg).truthful h ht,
    fun h => SetTable.mem_firstOf (closed_ofGrammar hg) h ht⟩

/-- `FIRST` of a sequence holds the mark for the empty word if the sequence is nullable. -/
theorem epsilon_mem_ofSequence_iff (hg : g.WellFormed) {γ : List Symbol}
    (hγ : Symbol.terminal .epsilon ∉ γ) :
    TerminalId.epsilon ∈ (ofGrammar g).ofSequence γ ↔ g.Nullable γ :=
  ⟨SetTable.nullable_of_epsilon_mem_firstOf (sound_ofGrammar hg).truthful hγ,
    SetTable.epsilon_mem_firstOf (closed_ofGrammar hg)⟩

/-- The terminals that begin a sequence and, if it is nullable, those of a set.  Both a nonterminal
and a predicted item get from what stands behind them, and from their own, what can follow. -/
theorem mem_begins_or_own_iff (hg : g.WellFormed) {γ : List Symbol}
    (hγ : ∀ s ∈ γ, g.IsUserSymbol s) {own : TerminalSet} {t : TerminalId} :
    (t ∈ if TerminalId.epsilon ∈ (ofGrammar g).ofSequence γ then
        ((ofGrammar g).ofSequence γ).erase .epsilon ∪ own
      else (ofGrammar g).ofSequence γ) ↔ g.Begins γ t ∨ g.Nullable γ ∧ t ∈ own := by
  have hbegins : t ≠ .epsilon ∧ t ∈ (ofGrammar g).ofSequence γ ↔ g.Begins γ t := by
    constructor
    · exact fun ⟨hne, ht⟩ => (mem_ofSequence_iff hg hne).mp ht
    · intro ht
      have hne := (ht.isUserTerminal hg hγ).ne_epsilon
      exact ⟨hne, (mem_ofSequence_iff hg hne).mpr ht⟩
  have hnull := epsilon_mem_ofSequence_iff hg (epsilon_notMem hγ)
  split
  · next hε =>
      rw [TerminalSet.mem_union, TerminalSet.mem_erase, hbegins]
      simp [hnull.mp hε]
  · next hε =>
      rw [← hbegins, ← hnull]
      simp only [hε, false_and, or_false]
      exact ⟨fun ht => ⟨fun h => hε (h ▸ ht), ht⟩, And.right⟩

end FirstSets

end ParserForge

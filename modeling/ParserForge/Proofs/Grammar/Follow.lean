import Mathlib
import ParserForge.Grammar.Follow
import ParserForge.Proofs.Grammar.First

/-!
FOLLOW sets come to rest, and then they are complete: what begins the rest of a body follows the
nonterminal before that rest, and so does what follows the head if the rest is nullable.
-/

namespace ParserForge

namespace FollowSets

open Grammar

variable {g : Grammar} {s : SetTable}

/-- What holds of the sets after any number of rounds. -/
structure Sound (g : Grammar) (s : SetTable) : Prop where
  length_eq : s.sets.length = g.nonterminals.length
  bounded : ∀ n t, t ∈ s.get n → t < g.terminals.length
  root : TerminalId.eoi ∈ s.get .root

/-- The terminals that a place before `rest` in a body of `head` adds to a FOLLOW set. -/
def behind (first : FirstSets) (s : SetTable) (head : NonterminalId) (rest : List Symbol) :
    TerminalSet :=
  let begins := first.ofSequence rest
  if TerminalId.epsilon ∈ begins then begins.erase .epsilon ∪ s.get head else begins

theorem mem_behind_iff (hg : g.WellFormed) {head : NonterminalId} {rest : List Symbol}
    (hrest : ∀ x ∈ rest, g.IsUserSymbol x) {t : TerminalId} :
    t ∈ behind (.ofGrammar g) s head rest ↔
      g.Begins rest t ∨ g.Nullable rest ∧ t ∈ s.get head :=
  FirstSets.mem_begins_or_own_iff hg hrest

theorem fromBody_nonterminal (first : FirstSets) (head n : NonterminalId) (rest : List Symbol)
    (s : SetTable) : fromBody first head (.nonterminal n :: rest) s =
      fromBody first head rest (s.add n (behind first s head rest)) := rfl

theorem le_fromBody (first : FirstSets) (head : NonterminalId) (body : List Symbol)
    (s : SetTable) : s.Le (fromBody first head body s) := by
  induction body generalizing s with
  | nil => exact .refl s
  | cons x body ih =>
      cases x with
      | terminal t => exact ih s
      | nonterminal n =>
          rw [fromBody_nonterminal]
          exact (s.le_add n _).trans (ih _)

/-- If a body adds nothing, the sets of its nonterminals hold what stands behind them. -/
theorem mem_of_fromBody_eq {first : FirstSets} {head : NonterminalId} {body : List Symbol}
    (h : fromBody first head body s = s) {α β : List Symbol} {n : NonterminalId}
    (hbody : body = α ++ .nonterminal n :: β) (hn : n < s.sets.length) {t : TerminalId}
    (ht : t ∈ behind first s head β) : t ∈ s.get n := by
  induction body generalizing α with
  | nil => simp at hbody
  | cons x body ih =>
      have hadd : ∀ m, x = .nonterminal m → s.add m (behind first s head body) = s := by
        rintro m rfl
        rw [fromBody_nonterminal] at h
        refine SetTable.Le.antisymm ?_ (s.le_add m _)
        have := le_fromBody first head body (s.add m (behind first s head body))
        rwa [h] at this
      have hrest : fromBody first head body s = s := by
        cases x with
        | terminal u => exact h
        | nonterminal m =>
            rw [fromBody_nonterminal, hadd m rfl] at h
            exact h
      cases α with
      | nil =>
          obtain ⟨rfl, rfl⟩ := List.cons.inj hbody
          rw [← hadd n rfl]
          exact SetTable.mem_get_add.mpr (Or.inr ⟨rfl, hn, ht⟩)
      | cons y α => exact ih hrest (List.cons.inj hbody).2

theorem sound_add (hg : g.WellFormed) (hs : Sound g s) (head n : NonterminalId)
    {rest : List Symbol} (hrest : ∀ x ∈ rest, g.IsUserSymbol x) :
    Sound g (s.add n (behind (.ofGrammar g) s head rest)) := by
  refine ⟨by simpa using hs.length_eq, ?_, SetTable.mem_get_add.mpr (Or.inl hs.root)⟩
  intro m t h
  rcases SetTable.mem_get_add.mp h with h | ⟨_, _, h⟩
  · exact hs.bounded m t h
  · rcases (mem_behind_iff hg hrest).mp h with hbegins | ⟨_, h⟩
    · exact (hbegins.isUserTerminal hg hrest).2
    · exact hs.bounded head t h

/-- What is kept whenever a place in a body adds to the sets is kept by the whole body. -/
theorem fromBody_induction {P : SetTable → Prop} {first : FirstSets} {head : NonterminalId}
    {body : List Symbol} (hadd : ∀ s, P s → ∀ α n β, body = α ++ .nonterminal n :: β →
      P (s.add n (behind first s head β))) (hs : P s) : P (fromBody first head body s) := by
  induction body generalizing s with
  | nil => exact hs
  | cons X body ih =>
      have hrest : ∀ s, P s → ∀ α n β, body = α ++ .nonterminal n :: β →
          P (s.add n (behind first s head β)) :=
        fun s hs α n β hbody => hadd s hs (X :: α) n β (by rw [hbody, List.cons_append])
      cases X with
      | terminal t => exact ih hrest hs
      | nonterminal n =>
          rw [fromBody_nonterminal]
          exact ih hrest (hadd s hs [] n body rfl)

/-- What is kept whenever a place in a body adds to the sets is kept by a round. -/
theorem round_induction {P : SetTable → Prop} {first : FirstSets}
    (hadd : ∀ s, P s → ∀ r ∈ g.productions, ∀ α n β, r.body = α ++ .nonterminal n :: β →
      P (s.add n (behind first s r.head β))) (hs : P s) : P (round g first s) :=
  List.foldlRecOn g.productions _ hs fun _ hs r hr =>
    fromBody_induction (fun s hs α n β hbody => hadd s hs r hr α n β hbody) hs

theorem sound_round (hg : g.WellFormed) (hs : Sound g s) :
    Sound g (round g (.ofGrammar g) s) := by
  refine round_induction (fun _ hs r hr α n β hbody => ?_) hs
  exact sound_add hg hs r.head n fun X hX => hg.symbols r hr X (by simp [hbody, hX])

theorem mem_get_initial (hg : g.WellFormed) {n : NonterminalId} {t : TerminalId} :
    t ∈ (initial g).get n ↔ t = .eoi ∧ (n = .root ∨ n = g.start) := by
  have hroot : NonterminalId.root < g.nonterminals.length := hg.nonterminals
  have hstart : g.start < g.nonterminals.length := hg.start.2
  simp [initial, SetTable.mem_get_add, hroot, hstart, ← or_and_right, and_comm]

theorem sound_initial (hg : g.WellFormed) : Sound g (initial g) := by
  refine ⟨by simp [initial], ?_, ?_⟩
  · intro n t h
    obtain ⟨rfl, _⟩ := (mem_get_initial hg).mp h
    exact Nat.lt_of_lt_of_le (by decide) hg.terminals
  · exact (mem_get_initial hg).mpr ⟨rfl, Or.inl rfl⟩

theorem le_round (g : Grammar) (first : FirstSets) (s : SetTable) : s.Le (round g first s) :=
  SetTable.le_foldl (fun s (r : Production) => le_fromBody first r.head r.body s) g.productions s

theorem sound_ofGrammar (hg : g.WellFormed) : Sound g (ofGrammar g (.ofGrammar g)).table :=
  stabilize_induction (fun _ h => sound_round hg h) _ (sound_initial hg)

/-- The rounds are enough to come to rest. -/
theorem round_ofGrammar (hg : g.WellFormed) :
    round g (.ofGrammar g) (ofGrammar g (.ofGrammar g)).table =
      (ofGrammar g (.ofGrammar g)).table := by
  refine stabilize_eq (P := Sound g)
    (fun s => (s.pairs g.terminals.length).card) (g.nonterminals.length * g.terminals.length)
    (fun _ h => sound_round hg h) ?_ ?_ _ (sound_initial hg)
    (by simp only [FirstSets.rounds]; omega)
  · intro s hs hne
    exact SetTable.card_pairs_lt (le_round g _ s) hne (sound_round hg hs).bounded
  · intro s hs
    have := SetTable.card_pairs_le g.terminals.length s
    rwa [hs.length_eq] at this

theorem mem_get_of_mem_behind (hg : g.WellFormed) {r : Production} (hr : r ∈ g.productions)
    {α β : List Symbol} {n : NonterminalId} (hbody : r.body = α ++ .nonterminal n :: β)
    {t : TerminalId} (ht : t ∈ behind (.ofGrammar g) (ofGrammar g (.ofGrammar g)).table r.head β) :
    t ∈ (ofGrammar g (.ofGrammar g)).get n := by
  have heq := SetTable.step_eq_of_foldl_eq (l := g.productions)
    (fun s (r : Production) => le_fromBody (.ofGrammar g) r.head r.body s)
    (round_ofGrammar hg) r hr
  have hn : g.IsUserNonterminal n := hg.symbols r hr (.nonterminal n) (by simp [hbody])
  refine mem_of_fromBody_eq heq hbody ?_ ht
  rw [(sound_ofGrammar hg).length_eq]
  exact hn.2

/-- What begins the rest of a body follows the nonterminal before it. -/
theorem mem_get_of_begins (hg : g.WellFormed) {r : Production} (hr : r ∈ g.productions)
    {α β : List Symbol} {n : NonterminalId} (hbody : r.body = α ++ .nonterminal n :: β)
    {t : TerminalId} (ht : g.Begins β t) : t ∈ (ofGrammar g (.ofGrammar g)).get n := by
  have hβ : ∀ X ∈ β, g.IsUserSymbol X := fun X hX => hg.symbols r hr X (by simp [hbody, hX])
  exact mem_get_of_mem_behind hg hr hbody ((mem_behind_iff hg hβ).mpr (Or.inl ht))

/-- What follows the head follows a nonterminal whose rest of the body is nullable. -/
theorem mem_get_of_nullable (hg : g.WellFormed) {r : Production} (hr : r ∈ g.productions)
    {α β : List Symbol} {n : NonterminalId} (hbody : r.body = α ++ .nonterminal n :: β)
    (hnull : g.Nullable β) {t : TerminalId}
    (ht : t ∈ (ofGrammar g (.ofGrammar g)).get r.head) :
    t ∈ (ofGrammar g (.ofGrammar g)).get n := by
  have hβ : ∀ X ∈ β, g.IsUserSymbol X := fun X hX => hg.symbols r hr X (by simp [hbody, hX])
  exact mem_get_of_mem_behind hg hr hbody ((mem_behind_iff hg hβ).mpr (Or.inr ⟨hnull, ht⟩))

end FollowSets

end ParserForge

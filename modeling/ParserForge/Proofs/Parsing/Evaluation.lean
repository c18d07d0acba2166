import Mathlib
import ParserForge.Proofs.Parsing.Lookahead
import ParserForge.Proofs.Parsing.Tree

/-!
A parse followed by a replay folds a parse tree.  The parse builds trees: their roots are what its
stack spells, their leaves what it has taken, and its moves list them.  When it is accepted, one
tree is left.
-/

namespace ParserForge

namespace ParseTree

open Grammar

/-- The symbol at the root. -/
def root (g : Grammar) : ParseTree TerminalId ProductionId → Symbol
  | leaf a => .terminal a
  | node p _ => .nonterminal (g.head p)

/-- Every inner node carries a production of the grammar whose body is the roots of its children,
from left to right. -/
inductive Matches (g : Grammar) : ParseTree TerminalId ProductionId → Prop where
  | leaf (a : TerminalId) : Matches g (.leaf a)
  | node {p : ProductionId} {r : Production} {ts : List (ParseTree TerminalId ProductionId)} :
      g.productions[p]? = some r → ts.map (root g) = r.body → (∀ t ∈ ts, Matches g t) →
        Matches g (.node p ts)

end ParseTree

namespace ParseTable

open Grammar

variable {g : Grammar} {c : Collection} {t : ParseTable} {w : List TerminalId}
  {k k' : Configuration StateId TerminalId ProductionId}
  {ts : List (ParseTree TerminalId ProductionId)}

/-- What a parse of an input has built so far. -/
structure Builds (g : Grammar) (c : Collection) (w : List TerminalId)
    (k : Configuration StateId TerminalId ProductionId)
    (ts : List (ParseTree TerminalId ProductionId)) : Prop where
  spells : c.Spells k.stack (ts.map (ParseTree.root g))
  matching : ∀ T ∈ ts, T.Matches g
  input : w = ts.flatMap ParseTree.leaves ++ k.rest
  steps : k.steps.reverse = ts.flatMap ParseTree.trace
  reductions : k.reductions.reverse = ts.flatMap ParseTree.handles

theorem builds_start (g : Grammar) (c : Collection) (t : ParseTable) (w : List TerminalId) :
    Builds g c w (t.machine.start w) [] where
  spells := .bottom
  matching := by simp
  input := rfl
  steps := rfl
  reductions := rfl

/-- A shift adds a leaf, a reduction makes the last trees the children of a node. -/
theorem Builds.step (hg : g.WellFormed) (ht : t.Faithful g c) (h : Builds g c w k ts)
    (hstep : t.machine.step k = .running k') : ∃ ts', Builds g c w k' ts' := by
  rcases step_running hg ht h.spells hstep with
    ⟨a, rest, s, hrest, hs, rfl⟩ | ⟨p, r, δ, s, _, hr, hroots, _, _, hs, rfl⟩
  · refine ⟨ts ++ [.leaf a], ?_, ?_, ?_, ?_, ?_⟩
    · simpa [ParseTree.root] using hs
    · simpa [or_imp, forall_and] using ⟨h.matching, ParseTree.Matches.leaf a⟩
    · rw [h.input, hrest]
      simp
    · simp [h.steps]
    · simp [h.reductions]
  · obtain ⟨below, children, rfl, hbelow, hbody⟩ := List.map_eq_append_iff.mp hroots
    have harity : r.body.length = children.length := by rw [← hbody, List.length_map]
    obtain ⟨hmatching, hchildren⟩ := List.forall_mem_append.mp h.matching
    refine ⟨below ++ [.node p children], ?_, ?_, ?_, ?_, ?_⟩
    · simpa [ParseTree.root, hbelow, head_eq hr] using hs
    · simpa [or_imp, forall_and] using ⟨hmatching, ParseTree.Matches.node hr hbody hchildren⟩
    · simpa using h.input
    · simp [h.steps, harity]
    · simp [h.reductions]

theorem Builds.goes (hg : g.WellFormed) (ht : t.Faithful g c) (h : Builds g c w k ts)
    (hgoes : t.machine.Goes k k') : ∃ ts', Builds g c w k' ts' := by
  induction hgoes with
  | refl => exact ⟨ts, h⟩
  | tail _ hstep ih =>
      obtain ⟨_, hk⟩ := ih
      exact hk.step hg ht hstep

/-- When a parse is accepted, one tree is left, and the derivation lists it. -/
theorem Builds.accepted {d : Derivation ProductionId} (hg : g.WellFormed) (ht : t.Faithful g c)
    (hw : ∀ a ∈ w, g.IsUserTerminal a) (h : Builds g c w k ts)
    (hstep : t.machine.step k = .accepted d) :
    ∃ T : ParseTree TerminalId ProductionId, T.Matches g ∧
      T.root g = .nonterminal g.start ∧ T.leaves = w ∧ d = T.derivation := by
  obtain ⟨heoi, hroots, rfl⟩ := step_accepted hg ht h.spells hstep
  obtain ⟨T, rfl, hroot⟩ := List.map_eq_singleton_iff.mp hroots
  have hinput : w = T.leaves ++ k.rest := by simpa using h.input
  have hrest : k.rest = [] := eq_nil_of_head_eoi heoi fun a ha =>
    hw a (by rw [hinput]; exact List.mem_append_right _ ha)
  refine ⟨T, h.matching T (List.mem_singleton_self T), hroot, ?_, ?_⟩
  · rw [hinput, hrest, List.append_nil]
  · simp [ParseTree.derivation, h.steps, h.reductions]

/-- An accepted parse has built one tree over its input, and lists it. -/
theorem exists_tree {d : Derivation ProductionId} (hg : g.WellFormed) (ht : t.Faithful g c)
    (hw : ∀ a ∈ w, g.IsUserTerminal a) (h : t.parse? w = some (.ok d)) :
    ∃ T : ParseTree TerminalId ProductionId, T.Matches g ∧
      T.root g = .nonterminal g.start ∧ T.leaves = w ∧ d = T.derivation := by
  obtain ⟨k, hgoes, hstep⟩ := (t.parse?_eq_some_iff_goes w _).mp h
  obtain ⟨ts, hk⟩ := (builds_start g c t w).goes hg ht hgoes
  exact hk.accepted hg ht hw hstep

/-- To replay what a parse of an input has left, over that input, is to fold a parse tree of it,
with actions that may have effects as well as with functions. -/
theorem parse?_replay {ds : List Declaration} {method : Method} {d : Derivation ProductionId}
    (hg : Grammar.define ds = .ok g) (ht : generate g method = .ok t)
    (hw : ∀ a ∈ w, g.IsUserTerminal a) (h : t.parse? w = some (.ok d)) :
    ∃ T : ParseTree TerminalId ProductionId, T.Matches g ∧
      T.root g = .nonterminal g.start ∧ T.leaves = w ∧
      (∀ (m : Type → Type) [Monad m] [LawfulMonad m] (V : Type) (shift : TerminalId → m V)
        (reduce : ProductionId → List V → m V),
        d.replayM w shift reduce = Except.ok <$> T.foldM shift reduce) ∧
      ∀ (V : Type) (shift : TerminalId → V) (reduce : ProductionId → List V → V),
        d.replay w shift reduce = .ok (T.fold shift reduce) := by
  have hwf := wellFormed_of_define hg
  obtain ⟨c, _, hfaithful, _⟩ := faithful_generate hwf ht
  obtain ⟨T, hmatches, hroot, rfl, rfl⟩ := exists_tree hwf hfaithful hw h
  refine ⟨T, hmatches, hroot, rfl, fun m _ _ V shift reduce => ?_, fun V shift reduce => ?_⟩
  · exact T.replayM_derivation_leaves shift reduce
  · exact T.replay_derivation_leaves shift reduce

/-- A letter before the empty word, for actions that count how often they are taken. -/
theorem parse?_replay_letters :
    Letters.table.parse? [2] = some (.ok ⟨[2, 1], [.shift, .reduce 0, .reduce 2, .accept]⟩) ∧
      ∃ T : ParseTree TerminalId ProductionId, T.Matches Letters.grammar ∧
        T.root Letters.grammar = .nonterminal 1 ∧ T.leaves = [2] ∧
        ∀ (V : Type) (shift : TerminalId → StateM Nat V)
          (reduce : ProductionId → List V → StateM Nat V),
          (⟨[2, 1], [.shift, .reduce 0, .reduce 2, .accept]⟩ : Derivation ProductionId).replayM [2]
            shift reduce = Except.ok <$> T.foldM shift reduce := by
  have hw : ∀ a ∈ [2], Letters.grammar.IsUserTerminal a := by
    simp [IsUserTerminal, Letters.grammar]
  have h : Letters.table.parse? [2] =
      some (.ok ⟨[2, 1], [.shift, .reduce 0, .reduce 2, .accept]⟩) := by decide +kernel
  obtain ⟨T, hmatches, hroot, hleaves, hreplay, _⟩ :=
    parse?_replay Letters.define_declarations Letters.generate_lr1 hw h
  exact ⟨h, T, hmatches, hroot, hleaves, hreplay (StateM Nat)⟩

/-- The tree of that parse, which actions that build trees give back. -/
example : (⟨[2, 1], [.shift, .reduce 0, .reduce 2, .accept]⟩ : Derivation ProductionId).replay
    [2] ParseTree.leaf ParseTree.node = .ok (.node 1 [.leaf 2, .node 2 []]) := rfl

end ParseTable

end ParserForge

import Mathlib
import ParserForge.Grammar.Follow
import ParserForge.Proofs.Checked
import ParserForge.Proofs.Grammar.Follow

/-!
FIRST and FOLLOW sets with every set of a nonterminal looked up.  The symbols of all productions
have been declared, so none is missing.
-/

namespace ParserForge

namespace Grammar

/-- Every nonterminal among the symbols has one of the first `k` numbers. -/
def NonterminalsBelow (k : Nat) (γ : List Symbol) : Prop :=
  ∀ n, Symbol.nonterminal n ∈ γ → n < k

theorem WellFormed.nonterminalsBelow {g : Grammar} (hg : g.WellFormed) {r : Production}
    (hr : r ∈ g.productions) : NonterminalsBelow g.nonterminals.length r.body :=
  fun _ hn => (hg.symbols r hr _ hn).2

end Grammar

open Grammar (NonterminalsBelow)

namespace SetTable

/-- As `get`; refused if the nonterminal has no set. -/
def get? (s : SetTable) (n : NonterminalId) : Option TerminalSet := s.sets[n]?

/-- As `add`; refused if the nonterminal has no set. -/
def add? (s : SetTable) (n : NonterminalId) (ts : TerminalSet) : Option SetTable :=
  if n < s.sets.length then some (s.add n ts) else none

theorem get?_eq {s : SetTable} {n : NonterminalId} (h : n < s.sets.length) :
    s.get? n = some (s.get n) := by
  rw [get?, get, List.getElem?_eq_getElem h, Option.getD_some]

theorem add?_eq {s : SetTable} {n : NonterminalId} (h : n < s.sets.length) (ts : TerminalSet) :
    s.add? n ts = some (s.add n ts) := if_pos h

end SetTable

namespace FirstSets

theorem ofSequence?_eq {s : FirstSets} {γ : List Symbol}
    (h : NonterminalsBelow s.table.sets.length γ) : s.ofSequence? γ = some (s.ofSequence γ) := by
  have hdecides : s.decides γ = true := by
    induction γ with
    | nil => rfl
    | cons X γ ih =>
        cases X with
        | terminal t => rfl
        | nonterminal n =>
            have hrest := ih fun m hm => h m (List.mem_cons_of_mem _ hm)
            simp [decides, h n List.mem_cons_self, hrest]
  rw [ofSequence?, hdecides, if_pos rfl]

/-- The terminals behind a place: those that begin the rest of the body and, if the rest derives the
empty word, the terminals behind the whole body, which are looked up for that. -/
def behind? (first : FirstSets) (rest : List Symbol) (own : Option TerminalSet) :
    Option TerminalSet := do
  let begins ← first.ofSequence? rest
  if TerminalId.epsilon ∈ begins then own.map (begins.erase .epsilon ∪ ·) else some begins

theorem behind?_eq {first : FirstSets} {rest : List Symbol}
    (h : NonterminalsBelow first.table.sets.length rest) (own : TerminalSet) :
    first.behind? rest (some own) =
      some (if TerminalId.epsilon ∈ first.ofSequence rest then
        (first.ofSequence rest).erase .epsilon ∪ own else first.ofSequence rest) := by
  rw [behind?, ofSequence?_eq h, Option.bind_eq_bind, Option.bind_some]
  split <;> rfl

/-- As `round`, with the sets of the bodies and of the heads looked up. -/
def round? (g : Grammar) (s : SetTable) : Option SetTable :=
  g.productions.foldlM (fun s p => do s.add? p.head (← (FirstSets.mk s).ofSequence? p.body)) s

/-- As `ofGrammar`, with every set looked up. -/
def ofGrammar? (g : Grammar) : Option FirstSets :=
  (stabilize? (round? g) (rounds g) (.empty g.nonterminals.length)).map .mk

variable {g : Grammar}

theorem length_round (g : Grammar) (s : SetTable) : (round g s).sets.length = s.sets.length :=
  (le_round g s).length_eq.symm

theorem round?_eq (hg : g.WellFormed) {s : SetTable}
    (hs : s.sets.length = g.nonterminals.length) : round? g s = some (round g s) := by
  refine foldlM_eq_some (P := fun s => s.sets.length = g.nonterminals.length) ?_ hs
  intro s hs r hr
  have hbody := hg.nonterminalsBelow hr
  have hhead := hg.head_lt hr
  rw [← hs] at hbody hhead
  refine ⟨?_, by simpa using hs⟩
  rw [ofSequence?_eq (s := ⟨s⟩) hbody]
  exact SetTable.add?_eq hhead _

theorem ofGrammar?_eq (hg : g.WellFormed) : ofGrammar? g = some (ofGrammar g) := by
  have hrounds := stabilize?_eq (P := fun s => s.sets.length = g.nonterminals.length)
    (fun s hs => ⟨round?_eq hg hs, (length_round g s).trans hs⟩) (rounds g)
    (SetTable.length_empty (k := g.nonterminals.length))
  rw [ofGrammar?, hrounds]
  rfl

end FirstSets

namespace FollowSets

/-- As `fromBody`, with every set looked up. -/
def fromBody? (first : FirstSets) (head : NonterminalId) :
    List Symbol → SetTable → Option SetTable
  | [], s => some s
  | .terminal _ :: rest, s => fromBody? first head rest s
  | .nonterminal n :: rest, s => do
      let behind ← first.behind? rest (s.get? head)
      let s ← s.add? n behind
      fromBody? first head rest s

/-- As `round`, with every set looked up. -/
def round? (g : Grammar) (first : FirstSets) (s : SetTable) : Option SetTable :=
  g.productions.foldlM (fun s p => fromBody? first p.head p.body s) s

/-- As `initial`, with the sets of the root and of the start symbol looked up. -/
def initial? (g : Grammar) : Option SetTable := do
  let s ← (SetTable.empty g.nonterminals.length).add? .root (.singleton .eoi)
  s.add? g.start (.singleton .eoi)

/-- As `ofGrammar`, with every set looked up. -/
def ofGrammar? (g : Grammar) (first : FirstSets) : Option FollowSets := do
  let s ← stabilize? (round? g first) (FirstSets.rounds g) (← initial? g)
  return ⟨s⟩

variable {g : Grammar} {first : FirstSets}

theorem fromBody?_eq {k : Nat} (hfirst : first.table.sets.length = k) {head : NonterminalId}
    (hhead : head < k) {body : List Symbol} (hbody : NonterminalsBelow k body) {s : SetTable}
    (hs : s.sets.length = k) : fromBody? first head body s = some (fromBody first head body s) := by
  induction body generalizing s with
  | nil => rfl
  | cons X body ih =>
      have hrest : NonterminalsBelow k body := fun n hn => hbody n (List.mem_cons_of_mem _ hn)
      cases X with
      | terminal t => exact ih hrest hs
      | nonterminal n =>
          have hn : n < s.sets.length := hs ▸ hbody n List.mem_cons_self
          have hbelow : NonterminalsBelow first.table.sets.length body := hfirst ▸ hrest
          have hbehind := FirstSets.behind?_eq hbelow (s.get head)
          rw [fromBody_nonterminal, fromBody?, SetTable.get?_eq (hs ▸ hhead), hbehind]
          simp only [Option.bind_eq_bind, Option.bind_some, SetTable.add?_eq hn]
          exact ih hrest (by simpa using hs)

theorem length_fromBody (first : FirstSets) (head : NonterminalId) (body : List Symbol)
    (s : SetTable) : (fromBody first head body s).sets.length = s.sets.length :=
  (le_fromBody first head body s).length_eq.symm

theorem round?_eq (hg : g.WellFormed) (hfirst : first.table.sets.length = g.nonterminals.length)
    {s : SetTable} (hs : s.sets.length = g.nonterminals.length) :
    round? g first s = some (round g first s) := by
  refine foldlM_eq_some (P := fun s => s.sets.length = g.nonterminals.length) ?_ hs
  intro s hs r hr
  exact ⟨fromBody?_eq hfirst (hg.head_lt hr) (hg.nonterminalsBelow hr) hs,
    (length_fromBody first r.head r.body s).trans hs⟩

theorem initial?_eq (hg : g.WellFormed) : initial? g = some (initial g) := by
  have hroot : NonterminalId.root < (SetTable.empty g.nonterminals.length).sets.length := by
    rw [SetTable.length_empty]
    exact hg.nonterminals
  rw [initial?, SetTable.add?_eq hroot]
  exact SetTable.add?_eq (by simpa using hg.start.2) _

theorem ofGrammar?_eq (hg : g.WellFormed)
    (hfirst : first.table.sets.length = g.nonterminals.length) :
    ofGrammar? g first = some (ofGrammar g first) := by
  have hrounds := stabilize?_eq (P := fun s => s.sets.length = g.nonterminals.length)
    (fun s hs => ⟨round?_eq hg hfirst hs, (le_round g first s).length_eq.symm.trans hs⟩)
    (FirstSets.rounds g) (a := initial g) (by simp [initial])
  rw [ofGrammar?, initial?_eq hg, Option.bind_eq_bind, Option.bind_some, hrounds]
  rfl

end FollowSets

end ParserForge

import Mathlib
import ParserForge.Lexer.Scan
import ParserForge.Proofs.Automaton.Language
import ParserForge.Proofs.Checked
import ParserForge.Proofs.Regex.Building

/-!
Building a lexer step by step.  Behind the start state the expressions are compiled one after the
other.  The exit of each is made accepting and marked, and the start gets a silent edge to its
entry.  No operation is refused, and the automaton in the end is that of the blocks side by side.
-/

namespace ParserForge

namespace Lexer

open NfaBuilder

variable {κ : Type}

/-- Adds an expression with its index, as one more that the start leads to. -/
def addRegex? (start : StateId) (b : NfaBuilder Char Nat) (rule : Regex × Nat) :
    Option (NfaBuilder Char Nat) := do
  let (b, f) ← rule.1.compile? b
  let b ← b.setAccepting? f.exit true
  let b ← b.setTag? f.exit rule.2
  b.addSilent? start f.entry

/-- As `nfa`, state by state and edge by edge. -/
def nfa? (regexes : List Regex) : Option (Nfa Char Nat) := do
  let (b, start) := NfaBuilder.empty.addState
  let b ← regexes.zipIdx.foldlM (addRegex? start) b
  b.build? start

/-- As `ofRules`, with the automaton built and checked. -/
def ofRules? (rules : List (LexerRule κ)) : Option (Lexer κ) := do
  let nfa ← nfa? (rules.map LexerRule.regex)
  let dfa ← nfa.determinize? List.min?
  return ⟨rules, dfa⟩

/-- The number of states of some blocks. -/
def blocksSize (regexes : List Regex) : Nat := (regexes.map Regex.blockSize).sum

@[simp]
theorem length_blocks (index : Nat) (base : StateId) (regexes : List Regex) :
    (blocks index base regexes).length = blocksSize regexes := by
  induction regexes generalizing index base with
  | nil => rfl
  | cons r regexes ih => simp [blocks, blocksSize, ih]

theorem blocks_concat (index : Nat) (base : StateId) (regexes : List Regex) (r : Regex) :
    blocks index base (regexes ++ [r]) = blocks index base regexes ++
      r.block (base + blocksSize regexes)
        { accepting := true, tag := some (index + regexes.length) } := by
  induction regexes generalizing index base with
  | nil => simp [blocks, blocksSize]
  | cons s regexes ih =>
      rw [List.cons_append, blocks, ih, blocks, List.append_assoc]
      simp only [blocksSize, List.map_cons, List.sum_cons, List.length_cons]
      rw [Nat.add_assoc base, Nat.add_right_comm index, Nat.add_assoc index]

theorem entries_concat (base : StateId) (regexes : List Regex) (r : Regex) :
    entries base (regexes ++ [r]) =
      entries base regexes ++ [r.entry (base + blocksSize regexes)] := by
  induction regexes generalizing base with
  | nil => simp [entries, blocksSize]
  | cons s regexes ih => simp [entries, ih, blocksSize, Nat.add_assoc]

/-- The states for the first expressions, the start in front of them. -/
def draft (regexes : List Regex) : NfaBuilder Char Nat :=
  ofList ({ silent := entries 1 regexes } :: blocks 0 1 regexes)

/-- One expression more. -/
theorem addRegex?_draft (regexes : List Regex) (r : Regex) :
    addRegex? 0 (draft regexes) (r, regexes.length) = some (draft (regexes ++ [r])) := by
  let front : List (NfaState Char Nat) := { silent := entries 1 regexes } :: blocks 0 1 regexes
  have hlength : front.length = 1 + blocksSize regexes := by simp [front, Nat.add_comm]
  have haccepting := Regex.update?_exit r hlength [] {} fun s => { s with accepting := true }
  have htag := Regex.update?_exit r hlength [] { accepting := true }
    fun s => { s with tag := some regexes.length }
  have hentry := addSilent?_append [] (blocks 0 1 regexes ++
    r.block (1 + blocksSize regexes) { accepting := true, tag := some regexes.length })
    { silent := entries 1 regexes } (r.entry (1 + blocksSize regexes))
  simp only [front, List.append_nil, List.nil_append, List.length_nil, List.cons_append]
    at hlength haccepting htag hentry
  simp only [addRegex?, draft, Regex.compile?_ofList, Regex.compile_ofList, hlength,
    List.cons_append, setAccepting?, haccepting, setTag?, htag, hentry, Option.bind_eq_bind,
    Option.bind_some, blocks_concat, entries_concat, Nat.zero_add]

/-- The automaton of a lexer, from an empty builder. -/
theorem nfa?_eq (regexes : List Regex) : nfa? regexes = some (nfa regexes) := by
  have hfold : regexes.zipIdx.foldlM (addRegex? 0) (draft (regexes.take 0)) =
      some (draft (regexes.take regexes.length)) := by
    refine foldlM_zipIdx_eq_some (fun k => draft (regexes.take k)) fun k r hr => ?_
    obtain ⟨hk, hget⟩ := List.getElem?_eq_some_iff.mp hr
    have hnext := addRegex?_draft (regexes.take k) r
    rwa [List.length_take_of_le hk.le, ← hget, ← List.take_succ_eq_append_getElem hk, hget] at hnext
  have hstart : (NfaBuilder.empty : NfaBuilder Char Nat).addState = (draft (regexes.take 0), 0) :=
    rfl
  rw [List.take_length] at hfold
  simp only [nfa?, hstart, hfold, Option.bind_eq_bind, Option.bind_some]
  rfl

theorem lt_of_mem_entries {base : StateId} {regexes : List Regex} {q : StateId}
    (hq : q ∈ entries base regexes) : q < base + blocksSize regexes := by
  induction regexes generalizing base with
  | nil => exact absurd hq List.not_mem_nil
  | cons r regexes ih =>
      rw [blocksSize, List.map_cons, List.sum_cons, ← Nat.add_assoc]
      rcases List.mem_cons.mp hq with rfl | hq
      · exact Nat.lt_add_right _ (Regex.entry_mem base r).2
      · exact ih hq

theorem lt_of_mem_blocks {index : Nat} {base : StateId} {regexes : List Regex}
    {s : NfaState Char Nat} (hs : s ∈ blocks index base regexes) {q : StateId}
    (hq : q ∈ s.successors) : q < base + blocksSize regexes := by
  induction regexes generalizing index base with
  | nil => exact absurd hs List.not_mem_nil
  | cons r regexes ih =>
      rw [blocksSize, List.map_cons, List.sum_cons, ← Nat.add_assoc]
      rcases List.mem_append.mp hs with hs | hs
      · rcases Regex.encloses Nat r base _ s hs with rfl | hinner
        · exact absurd hq List.not_mem_nil
        · exact Nat.lt_add_right _ (hinner.successors q hq).2.1
      · exact ih hs

/-- The automaton of a lexer has no stray edges. -/
theorem closed_nfa (regexes : List Regex) : (nfa regexes).Closed := by
  have hsize : (nfa regexes).size = 1 + blocksSize regexes := by
    simp [nfa, Nfa.size, Nat.add_comm]
  constructor
  · rw [hsize]
    exact Nat.lt_of_lt_of_le Nat.one_pos (Nat.le_add_right _ _)
  · intro s hs q hq
    rw [hsize]
    rcases List.mem_cons.mp (List.mem_toArray.mp hs) with rfl | hs
    · exact lt_of_mem_entries (by simpa [NfaState.successors] using hq)
    · exact lt_of_mem_blocks hs hq

/-- Nothing is refused when a lexer is built. -/
theorem ofRules?_eq (rules : List (LexerRule κ)) : ofRules? rules = some (ofRules rules) := by
  simp only [ofRules?, nfa?_eq, (closed_nfa _).determinize?_eq, Option.bind_eq_bind,
    Option.bind_some]
  rfl

end Lexer

end ParserForge

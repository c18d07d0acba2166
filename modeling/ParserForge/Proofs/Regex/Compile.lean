import Mathlib
import ParserForge.Proofs.Automaton.Language
import ParserForge.Proofs.Regex.Block
import ParserForge.Proofs.Regex.Building

/-!
Compiling an expression adds a fragment to an automaton under construction.  The states that were
there before stay as they are, the fragment keeps to itself, and the words on the way through it are
those of the expression.
-/

namespace ParserForge

namespace Regex

variable {τ : Type} {r : Regex} {b : NfaBuilder Char τ} {q : StateId} {s : NfaState Char τ}

theorem size_compile (r : Regex) (b : NfaBuilder Char τ) :
    (r.compile b).1.size = b.size + r.blockSize := by
  simp [compile, NfaBuilder.size]

theorem getElem?_compile_of_lt (r : Regex) (h : q < b.size) :
    (r.compile b).1.states[q]? = b.states[q]? :=
  Array.getElem?_append_left h

theorem getElem?_compile_of_le (r : Regex) (h : b.size ≤ q) :
    (r.compile b).1.states[q]? = (r.block b.size {})[q - b.size]? := by
  rw [compile, Array.getElem?_append_right h, List.getElem?_toArray]
  rfl

theorem holds_compile (r : Regex) (b : NfaBuilder Char τ) (start : StateId) :
    Nfa.Holds ⟨(r.compile b).1.states, start⟩ b.size (r.block b.size {}) := by
  intro i s hs
  have hget := getElem?_compile_of_le r (Nat.le_add_right b.size i)
  rw [Nat.add_sub_cancel_left] at hget
  exact hget.trans hs

/-- All states of the fragment are inner ones, even its exit, which has no edges. -/
theorem inner_of_getElem? (hq : b.size ≤ q) (h : (r.compile b).1.states[q]? = some s) :
    r.Inner b.size s := by
  rw [getElem?_compile_of_le r hq] at h
  rcases encloses τ r b.size {} s (List.mem_of_getElem? h) with rfl | hinner
  · exact inner_silent (List.forall_mem_nil _)
  · exact hinner

/-- If the builder has no stray edges, no edge leads to the entry of the fragment. -/
theorem entry_not_mem_successors (hb : ∀ s ∈ b.states, ∀ t ∈ s.successors, t < b.size)
    (h : (r.compile b).1.states[q]? = some s) : (r.compile b).2.entry ∉ s.successors := by
  intro hentry
  by_cases hq : q < b.size
  · rw [getElem?_compile_of_lt r hq] at h
    have hlt := hb s (Array.mem_of_getElem? h) _ hentry
    exact Nat.not_lt_of_le (entry_mem b.size r).1 hlt
  · have hinner := inner_of_getElem? (Nat.le_of_not_lt hq) h
    exact (hinner.successors _ hentry).2.2 rfl

/-! The automaton of an expression alone. -/

theorem holds_toNfa (τ : Type) (r : Regex) :
    (r.toNfa : Nfa Char τ).Holds 0 (r.block 0 { accepting := true }) := by
  intro i s hs
  rwa [Nat.zero_add, toNfa, List.getElem?_toArray]

theorem closed_toNfa (τ : Type) (r : Regex) : (r.toNfa : Nfa Char τ).Closed := by
  have hsize : (r.toNfa : Nfa Char τ).size = r.blockSize := by simp [toNfa, Nfa.size]
  constructor
  · rw [hsize, ← Nat.zero_add r.blockSize]
    exact (entry_mem 0 r).2
  · intro s hs q hq
    rw [hsize, ← Nat.zero_add r.blockSize]
    rcases encloses τ r 0 _ s (List.mem_toArray.mp hs) with rfl | hinner
    · exact absurd hq List.not_mem_nil
    · exact (hinner.successors q hq).2.1

/-- It accepts the words of the expression. -/
theorem accepts_toNfa {w : List Char} :
    (r.toNfa : Nfa Char τ).accepts w = true ↔ w ∈ r.language := by
  have hholds := holds_toNfa τ r
  rw [Nfa.accepts_iff]
  constructor
  · rintro ⟨f, hpath, haccepting⟩
    have hout := not_inside_of_isAccepting hholds haccepting
    exact (eq_exit_of_path hholds rfl hout hpath).2
  · intro hw
    refine ⟨_, (recognized _ r).complete hholds hw, ?_⟩
    rw [Nfa.isAccepting, getElem?_exit hholds, Option.map_some, Option.getD_some]

/-- Compiling an expression leaves the states of the builder alone and adds a fragment: states that
do not accept and have no marks, whose edges stay among them and do not lead to the entry.  Nor does
any other edge, unless the builder had one to a state that it did not have.  No edge leaves the
exit, and the paths to it from the entry spell the words of the expression.  So these are the words
that the automaton of the expression accepts, the empty one if the expression is nullable. -/
theorem compile_exact (r : Regex) (b : NfaBuilder Char τ) :
    ∃ b' f, r.compile? b = some (b', f) ∧ r.compile b = (b', f) ∧
    (∀ q < b.size, b'.states[q]? = b.states[q]?) ∧
    (b.size ≤ f.entry ∧ f.entry < b'.size) ∧ (b.size ≤ f.exit ∧ f.exit < b'.size) ∧
    (∀ q s, b.size ≤ q → b'.states[q]? = some s → s.accepting = false ∧ s.tag = none ∧
      ∀ t ∈ s.successors, b.size ≤ t ∧ t < b'.size ∧ t ≠ f.entry) ∧
    ((∀ s ∈ b.states, ∀ t ∈ s.successors, t < b.size) →
      ∀ s ∈ b'.states, f.entry ∉ s.successors) ∧
    (∀ s, b'.states[f.exit]? = some s → s.successors = []) ∧
    (∀ start w, (⟨b'.states, start⟩ : Nfa Char τ).Path f.entry w f.exit ↔ w ∈ r.language) ∧
    (r.toNfa? : Option (Nfa Char τ)) = some r.toNfa ∧
    (∀ w, ∃ accepted, (r.toNfa : Nfa Char τ).accepts? w = some accepted ∧
      (accepted = true ↔ w ∈ r.language)) ∧
    (r.isNullable = true ↔ [] ∈ r.language) := by
  have hsize := size_compile r b
  refine ⟨(r.compile b).1, (r.compile b).2, compile?_eq r b, rfl,
    fun q => getElem?_compile_of_lt r, ?_, ?_, fun q s hq hs => ?_, fun hb s hs => ?_,
    fun s hs => ?_, fun start w => ?_, toNfa?_eq τ r, fun w => ?_, r.isNullable_iff⟩
  · rw [hsize]
    exact entry_mem b.size r
  · rw [hsize]
    exact exit_mem b.size r
  · have hinner := inner_of_getElem? hq hs
    refine ⟨hinner.accepting, hinner.tag, ?_⟩
    rw [hsize]
    exact hinner.successors
  · obtain ⟨q, hq⟩ := Array.mem_iff_getElem?.mp hs
    exact entry_not_mem_successors hb hq
  · have hexit := getElem?_exit (holds_compile r b 0)
    obtain rfl := Option.some.inj (hexit.symm.trans hs)
    rfl
  · exact path_iff_mem_language (holds_compile r b start) rfl
  · exact ⟨_, (closed_toNfa τ r).accepts?_eq w, accepts_toNfa⟩

/-- A marked state with a silent loop. -/
def loop : NfaBuilder Char Nat := ⟨#[{ tag := some 7, silent := [0] }]⟩

theorem compile_exact_loop : ∃ b', (plus (literal 'a')).compile? loop = some (b', ⟨1, 6⟩) ∧
    b'.states[0]? = loop.states[0]? ∧ (∀ s ∈ b'.states, 1 ∉ s.successors) ∧
    (⟨b'.states, 0⟩ : Nfa Char Nat).Path 1 ['a', 'a'] 6 := by
  have hrest : ['a'] ∈ (star (literal 'a')).language :=
    Language.mem_kstar.mpr ⟨[['a']], rfl, List.forall_mem_singleton.mpr rfl⟩
  have hword : ['a', 'a'] ∈ (plus (literal 'a')).language := ⟨['a'], rfl, ['a'], hrest, rfl⟩
  obtain ⟨b', f, hbuild, hcompile, hold, _, _, _, hentry, _, hpath, _⟩ :=
    compile_exact (plus (literal 'a')) loop
  obtain rfl : f = ⟨1, 6⟩ := (congrArg Prod.snd hcompile).symm
  exact ⟨b', hbuild, hold 0 Nat.one_pos, hentry (by decide), (hpath 0 _).mpr hword⟩

/-- A state with a silent edge to the state that is added next. -/
def ahead : NfaBuilder Char Nat := ⟨#[{ silent := [1] }]⟩

/-- An edge that was there before may lead to the entry of the fragment, if its end was not. -/
theorem compile_ahead : NfaBuilder.empty.addState.1.addSilent? 0 1 = some ahead ∧
    ∃ b', (literal 'a').compile? ahead = some (b', ⟨1, 2⟩) ∧ ∃ s ∈ b'.states, 1 ∈ s.successors :=
  ⟨rfl, _, rfl, _, Array.mem_of_getElem? (i := 0) rfl, List.mem_singleton_self 1⟩

end Regex

end ParserForge

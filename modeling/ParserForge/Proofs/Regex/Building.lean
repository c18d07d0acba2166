import Mathlib
import ParserForge.Proofs.Automaton.Builder
import ParserForge.Proofs.Regex.Shape

/-!
Compiling an expression step by step.  The states are added one after the other, and the edges
between them when their ends are known, so the exit of an inner expression gets its edges after all
of its states are there.  No edge is refused, and what has been added in the end is the block of the
expression.
-/

namespace ParserForge

namespace Regex

open NfaBuilder

variable {τ : Type}

/-- Adds an entry and an exit, and then edges between them. -/
def addPair? (addEdges? : NfaBuilder Char τ → Fragment → Option (NfaBuilder Char τ))
    (b : NfaBuilder Char τ) : Option (NfaBuilder Char τ × Fragment) := do
  let (b, entry) := b.addState
  let (b, exit) := b.addState
  let b ← addEdges? b ⟨entry, exit⟩
  return (b, ⟨entry, exit⟩)

/-- The fragment of the empty word: a silent edge from the entry to the exit. -/
def addEmpty? (b : NfaBuilder Char τ) : Option (NfaBuilder Char τ × Fragment) :=
  addPair? (fun b f => b.addSilent? f.entry f.exit) b

/-- Adds the edges for the characters of a range. -/
def addRange? (f : Fragment) (b : NfaBuilder Char τ) (range : CharRange) :
    Option (NfaBuilder Char τ) :=
  range.chars.foldlM (fun b c => b.addMove? f.entry c f.exit) b

/-- Adds the edges that lead from an outer fragment through one of two inner ones. -/
def addBranches? (first second outer : Fragment) (b : NfaBuilder Char τ) :
    Option (NfaBuilder Char τ) := do
  let b ← b.addSilent? outer.entry first.entry
  let b ← b.addSilent? outer.entry second.entry
  let b ← b.addSilent? first.exit outer.exit
  b.addSilent? second.exit outer.exit

/-- Adds an entry, two fragments and an exit, and the edges that make them alternatives. -/
def addEither? (first? second? : NfaBuilder Char τ → Option (NfaBuilder Char τ × Fragment))
    (b : NfaBuilder Char τ) : Option (NfaBuilder Char τ × Fragment) := do
  let (b, entry) := b.addState
  let (b, first) ← first? b
  let (b, second) ← second? b
  let (b, exit) := b.addState
  let b ← addBranches? first second ⟨entry, exit⟩ b
  return (b, ⟨entry, exit⟩)

/-- Adds the edges that lead from an outer fragment through an inner one any number of times. -/
def addLoop? (inner : Fragment) (b : NfaBuilder Char τ) (outer : Fragment) :
    Option (NfaBuilder Char τ) := do
  let b ← b.addSilent? outer.entry inner.entry
  let b ← b.addSilent? outer.entry outer.exit
  let b ← b.addSilent? inner.exit inner.entry
  b.addSilent? inner.exit outer.exit

/-- As `compile`, state by state and edge by edge. -/
def compile? : Regex → NfaBuilder Char τ → Option (NfaBuilder Char τ × Fragment)
  | empty, b => addEmpty? b
  | literal c, b => addPair? (fun b f => b.addMove? f.entry c f.exit) b
  | oneOf ranges, b => addPair? (fun b f => ranges.foldlM (addRange? f) b) b
  | concat a b, builder => do
      let (builder, f) ← a.compile? builder
      let (builder, f') ← b.compile? builder
      let builder ← builder.addSilent? f.exit f'.entry
      return (builder, ⟨f.entry, f'.exit⟩)
  | alt a b, builder => addEither? a.compile? b.compile? builder
  | star a, builder => do
      let (builder, inner) ← a.compile? builder
      addPair? (addLoop? inner) builder
  | plus a, builder => do
      let (builder, first) ← a.compile? builder
      let (builder, again) ← a.compile? builder
      let (builder, rest) ← addPair? (addLoop? again) builder
      let builder ← builder.addSilent? first.exit rest.entry
      return (builder, ⟨first.entry, rest.exit⟩)
  | optional a, builder => addEither? a.compile? addEmpty? builder

/-- As `toNfa`, state by state and edge by edge. -/
def toNfa? (r : Regex) : Option (Nfa Char τ) := do
  let (b, f) ← r.compile? .empty
  let b ← b.setAccepting? f.exit true
  b.build? f.entry

/-- What compiling appends to a list of states. -/
theorem compile_ofList (r : Regex) (front : List (NfaState Char τ)) :
    r.compile (ofList front) = (ofList (front ++ r.block front.length {}),
      ⟨r.entry front.length, r.exit front.length⟩) := by
  simp [compile, ofList, NfaBuilder.size]

theorem length_append_block (r : Regex) {base : StateId} {front : List (NfaState Char τ)}
    (hbase : front.length = base) (last : NfaState Char τ) :
    (front ++ r.block base last).length = base + r.blockSize := by
  rw [List.length_append, length_block, hbase]

/-- Changing the exit of a block gives the block with the changed exit. -/
theorem update?_exit (r : Regex) {base : StateId} {front : List (NfaState Char τ)}
    (hbase : front.length = base) (behind : List (NfaState Char τ)) (last : NfaState Char τ)
    (change : NfaState Char τ → NfaState Char τ) :
    (ofList (front ++ (r.block base last ++ behind))).update? (r.exit base) change =
      some (ofList (front ++ (r.block base (change last) ++ behind))) := by
  have hexit : r.exit base = (front ++ (r.block base ({} : NfaState Char τ)).dropLast).length := by
    have := exit_eq base r
    have := two_le_blockSize r
    rw [List.length_append, List.length_dropLast, length_block]
    lia
  have hupdate := update?_append (front ++ (r.block base ({} : NfaState Char τ)).dropLast) behind
    last change
  rw [block_eq_concat base last, block_eq_concat base (change last), hexit]
  simpa using hupdate

/-- A silent edge from the exit of a block. -/
theorem addSilent?_exit (r : Regex) (front behind : List (NfaState Char τ))
    (edges : List StateId) (target : StateId) {base : StateId} (hbase : front.length = base) :
    (ofList (front ++ (r.block base { silent := edges } ++ behind))).addSilent? (r.exit base)
        target =
      some (ofList (front ++ (r.block base { silent := edges ++ [target] } ++ behind))) :=
  update?_exit r hbase behind _ _

/-! Pairs of an entry and an exit. -/

theorem addPair?_eq {addEdges? : NfaBuilder Char τ → Fragment → Option (NfaBuilder Char τ)}
    {front states : List (NfaState Char τ)}
    (h : addEdges? (ofList (front ++ [({} : NfaState Char τ), ({} : NfaState Char τ)]))
      ⟨front.length, front.length + 1⟩ = some (ofList states)) :
    addPair? addEdges? (ofList front) =
      some (ofList states, ⟨front.length, front.length + 1⟩) := by
  simp [addPair?, h]

theorem foldlM_addMove? (front behind : List (NfaState Char τ)) (s : NfaState Char τ)
    (exit : StateId) (cs : List Char) :
    cs.foldlM (fun b c => b.addMove? front.length c exit) (ofList (front ++ s :: behind)) =
      some (ofList (front ++ { s with moves := s.moves ++ cs.map (·, exit) } :: behind)) := by
  induction cs generalizing s with
  | nil => simp
  | cons c cs ih => simp [addMove?_append, ih]

theorem foldlM_addRange? (front behind : List (NfaState Char τ)) (s : NfaState Char τ)
    (exit : StateId) (ranges : List CharRange) :
    ranges.foldlM (addRange? ⟨front.length, exit⟩) (ofList (front ++ s :: behind)) =
      some (ofList (front ++
        { s with moves := s.moves ++ (ranges.flatMap CharRange.chars).map (·, exit) } ::
          behind)) := by
  induction ranges generalizing s with
  | nil => simp
  | cons range ranges ih => simp [addRange?, foldlM_addMove?, ih]

theorem addEmpty?_eq (front : List (NfaState Char τ)) :
    addEmpty? (ofList front) = some (empty.compile (ofList front)) := by
  rw [compile_ofList]
  exact addPair?_eq (addSilent?_append front [{}] {} _)

/-! Larger fragments. -/

/-- The edges around a block that is repeated. -/
theorem addLoop?_eq (a : Regex) (front : List (NfaState Char τ)) {base entry : StateId}
    (hbase : front.length = base) (hentry : base + a.blockSize = entry) :
    addLoop? ⟨a.entry base, a.exit base⟩ (ofList (front ++
        (a.block base {} ++ [({} : NfaState Char τ), ({} : NfaState Char τ)])))
        ⟨entry, entry + 1⟩ =
      some (ofList (front ++ (star a).block base {})) := by
  subst hentry
  have hlength := length_append_block a hbase {}
  have hinner := addSilent?_append (front ++ a.block base ({} : NfaState Char τ)) [{}] {}
    (a.entry base)
  have hskip := addSilent?_append (front ++ a.block base ({} : NfaState Char τ)) [{}]
    { silent := [a.entry base] } (base + a.blockSize + 1)
  rw [hlength] at hinner hskip
  have hrepeat := addSilent?_exit a front
    [{ silent := [a.entry base, base + a.blockSize + 1] }, {}] [] (a.entry base) hbase
  have hleave := addSilent?_exit a front
    [{ silent := [a.entry base, base + a.blockSize + 1] }, {}] [a.entry base]
    (base + a.blockSize + 1) hbase
  simp only [List.append_assoc, List.cons_append, List.nil_append] at hinner hskip hrepeat hleave
  simp only [addLoop?, hinner, hskip, hrepeat, hleave, Option.bind_eq_bind, Option.bind_some, block]

/-- The edges around two blocks that are alternatives. -/
theorem addBranches?_eq (a b : Regex) (front : List (NfaState Char τ)) {base second last : StateId}
    (hbase : front.length = base) (hsecond : base + 1 + a.blockSize = second)
    (hlast : second + b.blockSize = last) :
    addBranches? ⟨a.entry (base + 1), a.exit (base + 1)⟩ ⟨b.entry second, b.exit second⟩
        ⟨base, last⟩ (ofList (front ++ ({} : NfaState Char τ) ::
          (a.block (base + 1) {} ++ (b.block second {} ++ [({} : NfaState Char τ)])))) =
      some (ofList (front ++ (alt a b).block base {})) := by
  let entry : NfaState Char τ := { silent := [a.entry (base + 1), b.entry second] }
  let behind : List (NfaState Char τ) := b.block second {} ++ [({} : NfaState Char τ)]
  have hfront : (front ++ [entry]).length = base + 1 := by simp [hbase]
  have hboth : (front ++ [entry] ++ a.block (base + 1) { silent := [last] }).length = second :=
    (length_append_block a hfront _).trans hsecond
  have hfirst := addSilent?_append front (a.block (base + 1) {} ++ behind) {} (a.entry (base + 1))
  have hother := addSilent?_append front (a.block (base + 1) {} ++ behind)
    { silent := [a.entry (base + 1)] } (b.entry second)
  have hleave := addSilent?_exit a (front ++ [entry]) behind [] last hfront
  have hleaveOther := addSilent?_exit b
    (front ++ [entry] ++ a.block (base + 1) { silent := [last] }) [{}] [] last hboth
  subst hbase hsecond hlast
  simp only [List.append_assoc, List.cons_append, List.nil_append, entry, behind]
    at hfirst hother hleave hleaveOther
  simp only [addBranches?, hfirst, hother, hleave, hleaveOther, Option.bind_eq_bind,
    Option.bind_some, block, List.append_assoc]

/-- A star behind the block that it repeats. -/
theorem addPair?_addLoop? (a : Regex) (front : List (NfaState Char τ)) :
    addPair? (addLoop? ⟨a.entry front.length, a.exit front.length⟩)
        (ofList (front ++ a.block front.length {})) =
      some ((star a).compile (ofList front)) := by
  have hlength := length_append_block a (rfl : front.length = front.length) {}
  have hloop := addLoop?_eq a front rfl hlength.symm
  rw [← List.append_assoc] at hloop
  rw [compile_ofList, addPair?_eq hloop, hlength]
  rfl

/-- Two alternatives between a state in front of them and one behind. -/
theorem addEither?_eq {a b : Regex}
    {first? second? : NfaBuilder Char τ → Option (NfaBuilder Char τ × Fragment)}
    (ha : ∀ front, first? (ofList front) = some (a.compile (ofList front)))
    (hb : ∀ front, second? (ofList front) = some (b.compile (ofList front)))
    (front : List (NfaState Char τ)) :
    addEither? first? second? (ofList front) = some ((alt a b).compile (ofList front)) := by
  have hentry : (front ++ [({} : NfaState Char τ)]).length = front.length + 1 := by simp
  have hfirst := length_append_block a hentry {}
  have hsecond := length_append_block b hfirst {}
  have hbranches := addBranches?_eq (τ := τ) a b front rfl rfl rfl
  simp only [addEither?, addState_ofList, ha, hb, compile_ofList, hentry, hfirst, hsecond,
    Option.bind_eq_bind, Option.bind_some]
  simp only [List.append_assoc, List.cons_append, List.nil_append, hbranches, Option.bind_some]
  rfl

/-- The edge between two blocks, one behind the other. -/
theorem addSilent?_concat (a b : Regex) (front : List (NfaState Char τ)) :
    (ofList (front ++ (a.block front.length {} ++
        b.block (front.length + a.blockSize) {}))).addSilent? (a.exit front.length)
          (b.entry (front.length + a.blockSize)) =
      some (ofList (front ++ (concat a b).block front.length {})) :=
  addSilent?_exit a front _ [] _ rfl

theorem compile?_ofList (r : Regex) (front : List (NfaState Char τ)) :
    r.compile? (ofList front) = some (r.compile (ofList front)) := by
  induction r generalizing front with
  | empty => exact addEmpty?_eq front
  | literal c =>
      rw [compile_ofList]
      exact addPair?_eq (addMove?_append front [{}] {} c _)
  | oneOf ranges =>
      rw [compile_ofList]
      exact addPair?_eq (foldlM_addRange? front [{}] {} _ ranges)
  | concat a b iha ihb =>
      simp only [compile?, iha, ihb, compile_ofList, List.length_append, length_block,
        List.append_assoc, addSilent?_concat, Option.bind_eq_bind, Option.bind_some]
      rfl
  | alt a b iha ihb => exact addEither?_eq iha ihb front
  | star a iha =>
      rw [compile?, iha, compile_ofList]
      exact addPair?_addLoop? a front
  | plus a iha =>
      -- the first copy of the block is in front of the star of the second one
      have hstar := addPair?_addLoop? a (front ++ a.block front.length ({} : NfaState Char τ))
      have hexit : (star a).exit (front.length + a.blockSize) = (plus a).exit front.length := by
        simp only [exit]
        ring
      simp only [compile_ofList, List.length_append, length_block, List.append_assoc] at hstar
      simp only [compile?, iha, compile_ofList, List.length_append, length_block, List.append_assoc,
        hstar, addSilent?_concat, hexit, block_plus, Option.bind_eq_bind, Option.bind_some]
      rfl
  | optional a iha =>
      have hexit : (alt a empty).exit front.length = (optional a).exit front.length := by
        simp only [exit, blockSize]
        ring
      rw [compile?, addEither?_eq iha addEmpty?_eq, compile_ofList, compile_ofList, block_optional,
        hexit]
      rfl

/-- Compiling refuses no edge, and what it adds is the block of the expression. -/
theorem compile?_eq (r : Regex) (b : NfaBuilder Char τ) : r.compile? b = some (r.compile b) :=
  compile?_ofList r b.states.toList

/-- The automaton of an expression alone, from an empty builder. -/
theorem toNfa?_eq (τ : Type) (r : Regex) : (r.toNfa? : Option (Nfa Char τ)) = some r.toNfa := by
  have hcompile : r.compile? (.empty : NfaBuilder Char τ) =
      some (ofList (r.block 0 {}), ⟨r.entry 0, r.exit 0⟩) :=
    (compile?_ofList r []).trans (congrArg some (compile_ofList r []))
  have haccepting : (ofList (r.block 0 ({} : NfaState Char τ))).setAccepting? (r.exit 0) true =
      some (ofList (r.block 0 { accepting := true })) := by
    have hupdate := update?_exit r (List.length_nil (α := NfaState Char τ)) [] {}
      fun s => { s with accepting := true }
    rwa [List.append_nil, List.append_nil] at hupdate
  have hentry : r.entry 0 < (r.block 0 ({ accepting := true } : NfaState Char τ)).length := by
    simpa using (entry_mem 0 r).2
  simp only [toNfa?, hcompile, haccepting, Option.bind_eq_bind, Option.bind_some]
  exact if_pos hentry

end Regex

end ParserForge

import Mathlib
import ParserForge.Proofs.Regex.Lexemes

/-!
Reading a pattern follows its grammar.  A part of a pattern takes the group in which it stands to a
group that is known from the tree alone, which gives every pattern of the grammar its tree.  In the
other direction, what has been read of the open groups is spelled by the text before, one lexeme
after the other.  Faults are reported at characters of the pattern.
-/

namespace ParserForge

namespace Regex

variable {u v w t : List Char} {r a b : Regex} {s : Sign} {g g' g'' : Group} {n : Nat}
  {items last : Option Regex} {outer : List (Located Group)} {ss : List (Located Sign)}

/-! What each sign does to the open groups, whichever groups are open around. -/

theorem build_atom (g : Group) (outer : List (Located Group)) (p : Nat) (r : Regex)
    (ss : List (Located Sign)) : build g outer (⟨p, .atom r⟩ :: ss) = build (g.push r) outer ss := by
  cases outer <;> rfl

theorem build_bar (g : Group) (outer : List (Located Group)) (p : Nat) (ss : List (Located Sign)) :
    build g outer (⟨p, .bar⟩ :: ss) = build g.bar outer ss := by
  cases outer <;> rfl

theorem build_opening (g : Group) (outer : List (Located Group)) (p : Nat)
    (ss : List (Located Sign)) :
    build g outer (⟨p, .opening⟩ :: ss) = build .start (⟨p, g⟩ :: outer) ss := by
  cases outer <;> rfl

theorem build_repetition {b : Regex} (hlast : g.last = some b) (outer : List (Located Group))
    (p : Nat) (operator : Repetition) (ss : List (Located Sign)) :
    build g outer (⟨p, .repetition operator⟩ :: ss) =
      build { g with last := some (operator.apply b) } outer ss := by
  cases outer <;> simp only [build, hlast]

theorem build_repetition_none (hlast : g.last = none) (outer : List (Located Group)) (p : Nat)
    (operator : Repetition) (ss : List (Located Sign)) :
    build g outer (⟨p, .repetition operator⟩ :: ss) =
      .error ⟨p, .nothingToRepeat operator.toChar⟩ := by
  cases outer <;> simp only [build, hlast]

theorem build_fault (g : Group) (outer : List (Located Group)) (p : Nat) (f : Fault)
    (ss : List (Located Sign)) : build g outer (⟨p, .fault f⟩ :: ss) = .error ⟨p, f⟩ := by
  cases outer <;> rfl

/-! From the grammar to the tree. -/

/-- To read the text takes the one group to the other, wherever the text stands. -/
def Takes (u : List Char) (g g' : Group) : Prop :=
  ∀ (n : Nat) (rest : List Char) (outer : List (Located Group)),
    build g outer (signs (glyphs n (u ++ rest))) =
      build g' outer (signs (glyphs (n + u.length) rest))

namespace Takes

theorem refl (g : Group) : Takes [] g g := fun _ _ _ => rfl

theorem trans (h : Takes u g g') (h' : Takes v g' g'') : Takes (u ++ v) g g'' := by
  intro n rest outer
  rw [List.append_assoc, h, h', List.length_append, Nat.add_assoc]

theorem atom (h : Lexeme u (.atom r)) (g : Group) : Takes u g (g.push r) := by
  intro n rest outer
  obtain ⟨p, _, _, hsigns⟩ := h.exists_sign n rest
  rw [hsigns, build_atom]

theorem bar (g : Group) : Takes ['|'] g g.bar := by
  intro n rest outer
  obtain ⟨p, _, _, hsigns⟩ := Lexeme.bar.exists_sign n rest
  rw [hsigns, build_bar]

theorem repetition {operator : Repetition} (h : Lexeme u (.repetition operator))
    (alternatives items : Option Regex) (r : Regex) : Takes u ⟨alternatives, items, some r⟩
      ⟨alternatives, items, some (operator.apply r)⟩ := by
  intro n rest outer
  obtain ⟨p, _, _, hsigns⟩ := h.exists_sign n rest
  rw [hsigns, build_repetition rfl]

theorem group (h : Takes u .start g') (g : Group) :
    Takes ('(' :: (u ++ [')'])) g (g.push g'.close) := by
  intro n rest outer
  obtain ⟨p, _, _, hopening⟩ := Lexeme.opening.exists_sign n (u ++ (')' :: rest))
  obtain ⟨q, _, _, hclosing⟩ := Lexeme.closing.exists_sign (n + 1 + u.length) rest
  have htext : '(' :: (u ++ [')']) ++ rest = ['('] ++ (u ++ (')' :: rest)) := by simp
  have hlength : n + ('(' :: (u ++ [')'])).length = n + 1 + u.length + 1 := by
    simp only [List.length_cons, List.length_append, List.length_nil]
    omega
  rw [htext, hlength]
  calc build g outer (signs (glyphs n (['('] ++ (u ++ (')' :: rest)))))
    _ = build .start (⟨p, g⟩ :: outer) (signs (glyphs (n + 1) (u ++ (')' :: rest)))) := by
      rw [hopening, build_opening]
      rfl
    _ = build g' (⟨p, g⟩ :: outer) (signs (glyphs (n + 1 + u.length) ([')'] ++ rest))) :=
      h (n + 1) _ _
    _ = build (g.push g'.close) outer (signs (glyphs (n + 1 + u.length + 1) rest)) := by
      rw [hclosing]
      rfl

end Takes

/-- What reading does with a part: an atom, repeated or not, is pushed to the group.  Further parts
are read from the start of an alternative or of a group. -/
def Reads : Part → List Char → Regex → Prop
  | .atom, u, r | .repetition, u, r => ∀ g, Takes u g (g.push r)
  | .items, u, r => ∀ alternatives, ∃ items last, joinWith .concat items (some last) = some r ∧
      Takes u ⟨alternatives, none, none⟩ ⟨alternatives, items, some last⟩
  | .concatenation, u, r => ∀ alternatives, ∃ items last,
      (joinWith .concat items last).getD .empty = r ∧
      Takes u ⟨alternatives, none, none⟩ ⟨alternatives, items, last⟩
  | .alternation, u, r => ∃ g, g.close = r ∧ Takes u .start g

theorem reads_of_spells {part : Part} (h : Spells part u r) : Reads part u r := by
  induction h with
  | plain h => exact Takes.atom (.plain h)
  | escaped c => exact Takes.atom (.escaped c)
  | brackets h hne => exact Takes.atom (.brackets h hne)
  | group _ ih =>
      obtain ⟨inner, rfl, htakes⟩ := ih
      exact htakes.group
  | once _ ih => exact ih
  | star _ ih => exact fun g => (ih g).trans (.repetition .star _ _ _)
  | plus _ ih => exact fun g => (ih g).trans (.repetition .plus _ _ _)
  | optional _ ih => exact fun g => (ih g).trans (.repetition .optional _ _ _)
  | item _ ih => exact fun alternatives => ⟨none, _, rfl, ih ⟨alternatives, none, none⟩⟩
  | concat _ _ iha ihb =>
      intro alternatives
      obtain ⟨items, last, hjoin, htakes⟩ := iha alternatives
      refine ⟨joinWith .concat items (some last), _, ?_, htakes.trans (ihb _)⟩
      rw [hjoin, joinWith]
  | nothing => exact fun _ => ⟨none, none, rfl, .refl _⟩
  | something _ ih =>
      intro alternatives
      obtain ⟨items, last, hjoin, htakes⟩ := ih alternatives
      exact ⟨items, some last, by rw [hjoin, Option.getD_some], htakes⟩
  | alternative _ ih =>
      obtain ⟨items, last, rfl, htakes⟩ := ih none
      exact ⟨⟨none, items, last⟩, rfl, htakes⟩
  | alt _ _ iha ihb =>
      obtain ⟨before, rfl, htakes⟩ := iha
      obtain ⟨items, last, rfl, htakes'⟩ := ihb (some before.close)
      exact ⟨⟨some before.close, items, last⟩, rfl, htakes.trans ((Takes.bar before).trans htakes')⟩

/-- A pattern of the grammar is read as the tree that it spells. -/
theorem parse_of_spells (h : Spells .alternation u r) : parse u = .ok r := by
  obtain ⟨g, rfl, htakes⟩ := reads_of_spells h
  have hread := htakes 0 [] []
  rw [List.append_nil] at hread
  rw [parse, hread]
  rfl

/-! From the tree to the grammar. -/

/-- The text of a running alternative, of which the items but for the last and the last item have
been read. -/
inductive Running : List Char → Option Regex → Option Regex → Prop
  | nothing : Running [] none none
  | first {v : List Char} {b : Regex} (hb : Spells .repetition v b) : Running v none (some b)
  | further {u v : List Char} {a b : Regex} (ha : Spells .items u a)
      (hb : Spells .repetition v b) : Running (u ++ v) (some a) (some b)

/-- The text of which a group has been read. -/
inductive Content : List Char → Group → Prop
  | first {v : List Char} {items last : Option Regex} (h : Running v items last) :
      Content v ⟨none, items, last⟩
  | further {u v : List Char} {a : Regex} {items last : Option Regex}
      (ha : Spells .alternation u a) (h : Running v items last) :
      Content (u ++ '|' :: v) ⟨some a, items, last⟩

/-- The text up to the last group that is still open, which has been read as the groups around. -/
inductive Opened : List Char → List (Located Group) → Prop
  | nil : Opened [] []
  | cons {t u : List Char} {outer : List (Located Group)} {p : Nat} {g : Group}
      (ho : Opened t outer) (hg : Content u g) : Opened (t ++ (u ++ ['('])) (⟨p, g⟩ :: outer)

theorem Running.spells (h : Running v items last) :
    Spells .concatenation v ((joinWith .concat items last).getD .empty) := by
  cases h with
  | nothing => exact .nothing
  | first hb => exact .something (.item hb)
  | further ha hb => exact .something (.concat ha hb)

theorem Running.push (h : Running v items last) (hr : Spells .repetition w r) :
    Running (v ++ w) (joinWith .concat items last) (some r) := by
  cases h with
  | nothing => exact .first hr
  | first hb => exact .further (.item hb) hr
  | further ha hb => exact .further (.concat ha hb) hr

/-- What may stand behind the last item may stand behind the running alternative. -/
theorem Running.extend (h : Running v items (some b))
    (hextend : ∀ u, Spells .repetition u b → Spells .repetition (u ++ w) r) :
    Running (v ++ w) items (some r) := by
  cases h with
  | first hb => exact .first (hextend _ hb)
  | further ha hb =>
      rw [List.append_assoc]
      exact .further ha (hextend _ hb)

namespace Content

theorem close (h : Content u g) : Spells .alternation u g.close := by
  cases h with
  | first h => exact .alternative h.spells
  | further ha h => exact .alt ha h.spells

theorem push (h : Content u g) (hr : Spells .repetition w r) : Content (u ++ w) (g.push r) := by
  cases h with
  | first h => exact .first (h.push hr)
  | further ha h =>
      rw [List.append_assoc, List.cons_append]
      exact .further ha (h.push hr)

theorem bar (h : Content u g) : Content (u ++ ['|']) g.bar := .further h.close .nothing

theorem extend (h : Content u g) (hlast : g.last = some b)
    (hextend : ∀ u, Spells .repetition u b → Spells .repetition (u ++ w) r) :
    Content (u ++ w) { g with last := some r } := by
  cases h with
  | first h =>
      obtain rfl : _ = some b := hlast
      exact .first (h.extend hextend)
  | further ha h =>
      obtain rfl : _ = some b := hlast
      rw [List.append_assoc, List.cons_append]
      exact .further ha (h.extend hextend)

end Content

theorem Lexeme.spells (h : Lexeme u (.atom r)) : Spells .repetition u r := by
  cases h with
  | plain h => exact .once (.plain h)
  | escaped c => exact .once (.escaped c)
  | brackets h hne => exact .once (.brackets h hne)

theorem Lexeme.extend {operator : Repetition} (h : Lexeme w (.repetition operator))
    (hb : Spells .repetition u b) : Spells .repetition (u ++ w) (operator.apply b) := by
  cases h with
  | star => exact .star hb
  | plus => exact .plus hb
  | optional => exact .optional hb

/-- What is read from the lexemes of a text is spelled by it, together with the text before. -/
theorem spells_of_build (hlexes : Lexes n v ss) (ho : Opened t outer) (hg : Content u g)
    (h : build g outer ss = .ok r) : Spells .alternation (t ++ (u ++ v)) r := by
  induction hlexes generalizing t outer u g with
  | nil n =>
      cases ho with
      | nil =>
          cases h
          simpa using hg.close
      | cons => cases h
  | @cons n p w v s ss hs _ _ _ ih =>
      rw [← List.append_assoc u]
      cases s with
      | atom r' =>
          rw [build_atom] at h
          exact ih ho (hg.push hs.spells) h
      | bar =>
          cases hs
          rw [build_bar] at h
          exact ih ho hg.bar h
      | opening =>
          cases hs
          rw [build_opening] at h
          have := ih (.cons ho hg) (.first .nothing) h
          simpa using this
      | closing =>
          cases hs
          -- what has been read of the inner group becomes one atom of the group around it
          cases ho with
          | nil => cases h
          | @cons t u' outer p around ho haround =>
              have := ih ho (haround.push (.once (.group hg.close))) h
              simpa using this
      | repetition operator =>
          -- the operator is taken by the last item alone, so the text grows inside that item
          cases hlast : g.last with
          | none =>
              rw [build_repetition_none hlast] at h
              cases h
          | some b =>
              rw [build_repetition hlast] at h
              exact ih ho (hg.extend hlast fun u hb => hs.extend hb) h
      | fault f => cases hs
  | fault =>
      rw [build_fault] at h
      cases h

theorem spells_of_parse (h : parse u = .ok r) : Spells .alternation u r :=
  spells_of_build (lexes_signs 0 u) .nil (.first .nothing) h

/-! Where faults are reported. -/

theorem position_lt_of_build (hlexes : Lexes n v ss) {e : ParseError}
    (houter : ∀ o ∈ outer, o.position < n + v.length) (h : build g outer ss = .error e) :
    e.position < n + v.length := by
  induction hlexes generalizing outer g with
  | nil n =>
      cases outer with
      | nil => cases h
      | cons o outer =>
          cases h
          exact houter o List.mem_cons_self
  | @cons n p w v s ss hs _ hlt _ ih =>
      have hlength : n + (w ++ v).length = n + w.length + v.length := by
        rw [List.length_append, Nat.add_assoc]
      have hp : p < n + w.length + v.length := Nat.lt_add_right _ hlt
      rw [hlength] at houter ⊢
      cases s with
      | atom =>
          rw [build_atom] at h
          exact ih houter h
      | bar =>
          rw [build_bar] at h
          exact ih houter h
      | opening =>
          rw [build_opening] at h
          refine ih ?_ h
          intro o ho
          rcases List.mem_cons.mp ho with rfl | ho
          · exact hp
          · exact houter o ho
      | closing =>
          cases outer with
          | nil =>
              cases h
              exact hp
          | cons around outer => exact ih (fun o ho => houter o (List.mem_cons_of_mem _ ho)) h
      | repetition operator =>
          cases hlast : g.last with
          | none =>
              rw [build_repetition_none hlast] at h
              cases h
              exact hp
          | some b =>
              rw [build_repetition hlast] at h
              exact ih houter h
      | fault =>
          rw [build_fault] at h
          cases h
          exact hp
  | fault f ss _ hlt =>
      rw [build_fault] at h
      cases h
      exact hlt

theorem position_lt_of_parse {e : ParseError} (h : parse u = .error e) : e.position < u.length := by
  have := position_lt_of_build (lexes_signs 0 u) (fun _ ho => absurd ho List.not_mem_nil) h
  rwa [Nat.zero_add] at this

/-- A pattern is read if and only if it belongs to the grammar, and as the one tree that it spells.
For every other pattern a fault is reported, at one of its characters. -/
theorem parse_follows_grammar (pattern : List Char) :
    (∀ r, parse pattern = .ok r ↔ Spells .alternation pattern r) ∧
      (∀ r s, Spells .alternation pattern r → Spells .alternation pattern s → r = s) ∧
      ((¬ ∃ r, Spells .alternation pattern r) →
        ∃ e, parse pattern = .error e ∧ e.position < pattern.length) := by
  refine ⟨fun r => ⟨spells_of_parse, parse_of_spells⟩, fun r s hr hs => ?_, fun hnone => ?_⟩
  · exact Except.ok.inj ((parse_of_spells hr).symm.trans (parse_of_spells hs))
  · cases hparse : parse pattern with
    | ok r => exact absurd ⟨r, spells_of_parse hparse⟩ hnone
    | error e => exact ⟨e, rfl, position_lt_of_parse hparse⟩

/-- A minus sign makes a range where a character follows it, and stands for itself before the
closing bracket; brackets without a range are a fault. -/
theorem parse_follows_grammar_brackets :
    Spells .alternation ['[', 'a', '-', 'c', '-', ']'] (oneOf [⟨'a', 'c'⟩, ⟨'-', '-'⟩]) ∧
      (¬ ∃ r, Spells .alternation ['x', '[', ']'] r) ∧
      ∃ e, parse ['x', '[', ']'] = .error e ∧ e.position < 3 := by
  obtain ⟨hreads, _, hfault⟩ := parse_follows_grammar ['x', '[', ']']
  have hnone : ¬ ∃ r, Spells .alternation ['x', '[', ']'] r := by
    rintro ⟨r, hr⟩
    cases (hreads r).mpr hr
  exact ⟨((parse_follows_grammar _).1 _).mp (by decide), hnone, hfault hnone⟩

end Regex

end ParserForge

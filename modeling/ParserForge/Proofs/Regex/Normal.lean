import Mathlib
import ParserForge.Proofs.Regex.Language
import ParserForge.Proofs.Regex.Reading

/-!
The normal form of a tree.  Nested concatenations are one list of items, which the normal form joins
again from the left.  A tree prints as the texts of its items, one after the other, so what is read
from the printed pattern is the normal form, and every property of the tree that depends on the
items alone is kept.
-/

namespace ParserForge

namespace Regex

variable {u v w : List Char} {a r : Regex} {rs ss : List Regex} {ranges : List CharRange}

/-- The items one after the other, nested to the left; none at all are the empty pattern. -/
def join : List Regex → Regex
  | [] => empty
  | r :: rs => rs.foldl concat r

/-- The items of the concatenation at the root, from the left to the right and in normal form.  The
empty pattern has no items, and a tree of another kind is an item of its own. -/
def items : Regex → List Regex
  | empty => []
  | literal c => [literal c]
  | oneOf ranges => [oneOf ranges]
  | concat a b => a.items ++ b.items
  | alt a b => [alt (join a.items) (join b.items)]
  | star a => [star (join a.items)]
  | plus a => [plus (join a.items)]
  | optional a => [optional (join a.items)]

/-- Flattens the concatenations, drops the empty operands and nests the others to the left. -/
def normalize (r : Regex) : Regex := join r.items

/-- The brackets in the tree list ranges, and the ends of each range stand in order. -/
def Proper : Regex → Prop
  | empty | literal _ => True
  | oneOf ranges => ranges ≠ [] ∧ ∀ r ∈ ranges, r.lo ≤ r.hi
  | concat a b | alt a b => a.Proper ∧ b.Proper
  | star a | plus a | optional a => a.Proper

/-- A tree that can stand on the right of a concatenation nested to the left. -/
def IsItem (r : Regex) : Prop := r ≠ empty ∧ ∀ a b, r ≠ concat a b

/-- No concatenation in the tree has an empty operand or a concatenation for its right operand. -/
def LeftNested : Regex → Prop
  | empty | literal _ | oneOf _ => True
  | concat a b => (a ≠ empty ∧ b.IsItem) ∧ a.LeftNested ∧ b.LeftNested
  | alt a b => a.LeftNested ∧ b.LeftNested
  | star a | plus a | optional a => a.LeftNested

/-! Joining items. -/

theorem join_concat (hne : rs ≠ []) (r : Regex) : join (rs ++ [r]) = concat (join rs) r := by
  obtain ⟨s, rs, rfl⟩ := List.exists_cons_of_ne_nil hne
  exact List.foldl_concat _ _ _ _

/-- A property that joining a further item keeps holds of all the items together. -/
theorem join_induction {P : List Regex → Regex → Prop} (hnil : P [] empty)
    (hone : ∀ r, P [r] r)
    (hconcat : ∀ rs r, rs ≠ [] → P rs (join rs) → P (rs ++ [r]) (concat (join rs) r))
    (rs : List Regex) : P rs (join rs) := by
  induction rs using List.reverseRecOn with
  | nil => exact hnil
  | append_singleton rs r ih =>
      by_cases hne : rs = []
      · subst hne
        exact hone r
      · rw [join_concat hne]
        exact hconcat rs r hne ih

@[simp]
theorem print_join (rs : List Regex) : (join rs).print = rs.flatMap print := by
  refine join_induction (P := fun rs r => r.print = rs.flatMap print) rfl ?_ ?_ rs
  · exact fun r => (List.flatMap_singleton _ r).symm
  · intro rs r _ ih
    rw [print, ih, List.flatMap_append, List.flatMap_singleton]

@[simp]
theorem language_join (rs : List Regex) : (join rs).language = (rs.map language).prod := by
  refine join_induction (P := fun rs r => r.language = (rs.map language).prod) rfl ?_ ?_ rs
  · exact fun r => (List.prod_singleton).symm
  · intro rs r _ ih
    rw [language, ih, List.map_append, List.prod_append, List.map_singleton, List.prod_singleton]

/-! What the normal form keeps. -/

theorem print_items (r : Regex) : r.items.flatMap print = r.print := by
  induction r with
  | empty => rfl
  | literal | oneOf => exact List.flatMap_singleton _ _
  | concat a b iha ihb => rw [items, List.flatMap_append, iha, ihb, print]
  | alt a b iha ihb => simp only [items, List.flatMap_singleton, print, print_join, iha, ihb]
  | star a iha | plus a iha | optional a iha =>
      simp only [items, List.flatMap_singleton, print, print_join, iha]

theorem print_normalize (r : Regex) : r.normalize.print = r.print := by
  rw [normalize, print_join, print_items]

theorem language_items (r : Regex) : (r.items.map language).prod = r.language := by
  induction r with
  | empty => rfl
  | literal | oneOf => exact List.prod_singleton
  | concat a b iha ihb => rw [items, List.map_append, List.prod_append, iha, ihb, language]
  | alt a b iha ihb =>
      simp only [items, List.map_singleton, List.prod_singleton, language, language_join, iha, ihb]
  | star a iha | plus a iha | optional a iha =>
      simp only [items, List.map_singleton, List.prod_singleton, language, language_join, iha]

theorem language_normalize (r : Regex) : r.normalize.language = r.language := by
  rw [normalize, language_join, language_items]

theorem isNullable_normalize (r : Regex) : r.normalize.isNullable = r.isNullable := by
  rw [Bool.eq_iff_iff, isNullable_iff, isNullable_iff, language_normalize]

/-! Which trees are normal forms. -/

theorem join_ne_empty (hne : rs ≠ []) (h : ∀ r ∈ rs, r ≠ empty) : join rs ≠ empty := by
  obtain ⟨ss, r, rfl⟩ := (List.eq_nil_or_concat' rs).resolve_left hne
  by_cases hss : ss = []
  · subst hss
    exact h r (List.mem_singleton_self r)
  · rw [join_concat hss]
    exact Regex.noConfusion

theorem leftNested_join (h : ∀ r ∈ rs, r.IsItem ∧ r.LeftNested) : (join rs).LeftNested := by
  refine join_induction (P := fun rs a => (∀ r ∈ rs, r.IsItem ∧ r.LeftNested) → a.LeftNested)
    ?_ ?_ ?_ rs h
  · exact fun _ => trivial
  · exact fun r h => (h r (List.mem_singleton_self r)).2
  · intro rs r hne ih h
    obtain ⟨hrs, hr⟩ := List.forall_mem_append.mp h
    obtain ⟨hitem, hnested⟩ := hr r (List.mem_singleton_self r)
    exact ⟨⟨join_ne_empty hne fun s hs => (hrs s hs).1.1, hitem⟩, ih hrs, hnested⟩

theorem leftNested_items (r : Regex) : ∀ s ∈ r.items, s.IsItem ∧ s.LeftNested := by
  have hone : ∀ s : Regex, s.IsItem → s.LeftNested → ∀ t ∈ [s], t.IsItem ∧ t.LeftNested := by
    intro s hitem hnested t ht
    obtain rfl := List.mem_singleton.mp ht
    exact ⟨hitem, hnested⟩
  induction r with
  | empty => exact fun _ h => absurd h List.not_mem_nil
  | literal | oneOf => exact hone _ ⟨Regex.noConfusion, fun _ _ => Regex.noConfusion⟩ trivial
  | concat a b iha ihb => exact List.forall_mem_append.mpr ⟨iha, ihb⟩
  | alt a b iha ihb =>
      exact hone _ ⟨Regex.noConfusion, fun _ _ => Regex.noConfusion⟩
        ⟨leftNested_join iha, leftNested_join ihb⟩
  | star a iha | plus a iha | optional a iha =>
      exact hone _ ⟨Regex.noConfusion, fun _ _ => Regex.noConfusion⟩ (leftNested_join iha)

theorem items_of_isItem (h : r.IsItem) : r.items = [r.normalize] := by
  cases r with
  | empty => exact absurd rfl h.1
  | concat a b => exact absurd rfl (h.2 a b)
  | literal | oneOf | alt | star | plus | optional => rfl

theorem normalize_of_leftNested (h : r.LeftNested) : r.normalize = r := by
  induction r with
  | empty | literal | oneOf => rfl
  | concat a b iha ihb =>
      obtain ⟨⟨hne, hitem⟩, ha, hb⟩ := h
      -- the left operand has items, so that of the right one is joined behind them
      have hitems : a.items ≠ [] := by
        intro hnil
        have hempty : a.normalize = empty := by rw [normalize, hnil, join]
        exact hne ((iha ha).symm.trans hempty)
      rw [normalize, items, items_of_isItem hitem, join_concat hitems, ihb hb]
      exact congrArg (concat · b) (iha ha)
  | alt a b iha ihb => exact congrArg₂ alt (iha h.1) (ihb h.2)
  | star a iha => exact congrArg star (iha h)
  | plus a iha => exact congrArg plus (iha h)
  | optional a iha => exact congrArg optional (iha h)

/-- The normal forms are the trees nested to the left. -/
theorem normalize_eq_self_iff : r.normalize = r ↔ r.LeftNested :=
  ⟨fun h => h ▸ leftNested_join (leftNested_items r), normalize_of_leftNested⟩

/-! The text of a printed tree. -/

/-- The text of items, one after the other. -/
inductive Row : List Char → List Regex → Prop
  | nil : Row [] []
  | cons {u v : List Char} {r : Regex} {rs : List Regex} (hr : Spells .repetition u r)
      (h : Row v rs) : Row (u ++ v) (r :: rs)

namespace Row

theorem single (h : Spells .repetition u r) : Row u [r] := by
  have := Row.cons h .nil
  rwa [List.append_nil] at this

theorem append (h : Row u rs) (h' : Row v ss) : Row (u ++ v) (rs ++ ss) := by
  induction h with
  | nil => exact h'
  | cons hr _ ih =>
      rw [List.append_assoc]
      exact .cons hr ih

theorem foldl_concat (h : Row v rs) (ha : Spells .items u a) :
    Spells .items (u ++ v) (rs.foldl concat a) := by
  induction h generalizing u a with
  | nil => rwa [List.append_nil]
  | cons hr _ ih =>
      rw [← List.append_assoc]
      exact ih (.concat ha hr)

theorem spells_join (h : Row u rs) : Spells .concatenation u (join rs) := by
  cases h with
  | nil => exact .nothing
  | cons hr h => exact .something (h.foldl_concat (.item hr))

/-- Items in parentheses that are repeated. -/
theorem repetition {operator : Repetition} (hw : Lexeme w (.repetition operator)) (h : Row u rs) :
    Row ('(' :: (u ++ ')' :: w)) [operator.apply (join rs)] := by
  have hgroup := Spells.once (.group (.alternative h.spells_join))
  have htext : '(' :: (u ++ [')']) ++ w = '(' :: (u ++ ')' :: w) := by simp
  rw [← htext]
  exact .single (hw.extend hgroup)

end Row

theorem operators_subset : operators ⊆ reserved := by decide

theorem spells_printChar (c : Char) : Spells .atom (printChar c) (literal c) := by
  rw [printChar]
  split
  · exact .escaped c
  · next h => exact .plain fun hc => h (operators_subset hc)

theorem memberChar_printChar (c : Char) : MemberChar (printChar c) c := by
  rw [printChar]
  split
  · exact .escaped c
  · next h =>
      refine .plain ?_ ?_
      all_goals
        rintro rfl
        exact h (by decide)

/-- A printed character does not begin with a minus sign, so it makes no range of what stands
before it. -/
theorem not_rangeAhead_printChar (c : Char) (rest : List Char) :
    ¬ RangeAhead (printChar c ++ rest) := by
  rintro ⟨d, tail, heq, _⟩
  rw [printChar] at heq
  split at heq
  · cases heq
  · next h =>
      cases heq
      exact h (by decide)

theorem not_rangeAhead_printRange (r : CharRange) (rest : List Char) :
    ¬ RangeAhead (printRange r ++ rest) := by
  rw [printRange]
  split
  · exact not_rangeAhead_printChar _ _
  · rw [List.append_assoc]
    exact not_rangeAhead_printChar _ _

/-- Printed ranges are read back one by one. -/
theorem members_printRange (h : ∀ r ∈ ranges, r.lo ≤ r.hi) :
    Members (ranges.flatMap printRange ++ [']']) ranges := by
  induction ranges with
  | nil => exact .close
  | cons r ranges ih =>
      obtain ⟨hr, hranges⟩ := List.forall_mem_cons.mp h
      have hmembers := ih hranges
      rw [List.flatMap_cons, List.append_assoc]
      by_cases hsame : r.lo = r.hi
      · obtain ⟨lo, hi⟩ := r
        obtain rfl : lo = hi := hsame
        rw [printRange, if_pos rfl]
        refine .single (memberChar_printChar lo) ?_ hmembers
        rcases ranges with _ | ⟨r, ranges⟩
        · rintro ⟨d, tail, heq, _⟩
          cases heq
        · rw [List.flatMap_cons, List.append_assoc]
          exact not_rangeAhead_printRange r _
      · rw [printRange, if_neg hsame, List.append_assoc, List.cons_append]
        exact .range (memberChar_printChar r.lo) (memberChar_printChar r.hi) hr hmembers

/-- A printed tree is the text of its items, one after the other. -/
theorem row_items (h : r.Proper) : Row r.print r.items := by
  induction r with
  | empty => exact .nil
  | literal c => exact .single (.once (spells_printChar c))
  | oneOf ranges => exact .single (.once (.brackets (members_printRange h.2) h.1))
  | concat a b iha ihb => exact (iha h.1).append (ihb h.2)
  | alt a b iha ihb =>
      have hspells := Spells.alt (.alternative (iha h.1).spells_join) (ihb h.2).spells_join
      exact .single (.once (.group hspells))
  | star a iha => exact (iha h).repetition .star
  | plus a iha => exact (iha h).repetition .plus
  | optional a iha => exact (iha h).repetition .optional

theorem spells_normalize (h : r.Proper) : Spells .alternation r.print r.normalize :=
  .alternative (row_items h).spells_join

/-! Which trees patterns spell. -/

theorem Members.ordered (h : Members u ranges) : ∀ r ∈ ranges, r.lo ≤ r.hi := by
  induction h with
  | close => exact fun _ h => absurd h List.not_mem_nil
  | single _ _ _ ih => exact List.forall_mem_cons.mpr ⟨le_refl _, ih⟩
  | range _ _ hle _ ih => exact List.forall_mem_cons.mpr ⟨hle, ih⟩

theorem Spells.proper {part : Part} (h : Spells part u r) : r.Proper := by
  induction h with
  | plain | escaped | nothing => trivial
  | brackets h hne => exact ⟨hne, h.ordered⟩
  | concat _ _ iha ihb | alt _ _ iha ihb => exact ⟨iha, ihb⟩
  | group _ ih | once _ ih | star _ ih | plus _ ih | optional _ ih | item _ ih | something _ ih
  | alternative _ ih => exact ih

/-- What is read from a printed tree is its normal form, which keeps the printed pattern, the
language and whether the empty word is matched, and is the tree itself if and only if that is nested
to the left.  Every tree that is read from a pattern can be printed so. -/
theorem parse_print (r : Regex) :
    (r.Proper → parse r.print = .ok r.normalize ∧ r.normalize.print = r.print ∧
      r.normalize.language = r.language ∧ r.normalize.isNullable = r.isNullable ∧
      (r.normalize = r ↔ r.LeftNested)) ∧
      ∀ pattern, parse pattern = .ok r → r.Proper := by
  refine ⟨fun h => ⟨parse_of_spells (spells_normalize h), ?_⟩, fun pattern h => ?_⟩
  · exact ⟨print_normalize r, language_normalize r, isNullable_normalize r, normalize_eq_self_iff⟩
  · exact (spells_of_parse h).proper

/-- Characters with a meaning of their own are printed escaped, inside brackets as well, and a
concatenation nested to the right is read nested to the left. -/
theorem parse_print_nested :
    Proper (concat (literal 'a') (concat empty (concat (oneOf [⟨'-', '-'⟩, ⟨']', 'a'⟩])
      (star (literal '|'))))) ∧
    parse ['a', '[', '\\', '-', '\\', ']', '-', 'a', ']', '(', '\\', '|', ')', '*'] =
      .ok (concat (concat (literal 'a') (oneOf [⟨'-', '-'⟩, ⟨']', 'a'⟩])) (star (literal '|'))) ∧
    Proper (concat (concat (literal 'a') (oneOf [⟨'-', '-'⟩, ⟨']', 'a'⟩])) (star (literal '|'))) := by
  have hproper : Proper (concat (literal 'a') (concat empty
      (concat (oneOf [⟨'-', '-'⟩, ⟨']', 'a'⟩]) (star (literal '|'))))) :=
    ⟨trivial, trivial, ⟨List.cons_ne_nil _ _, by decide⟩, trivial⟩
  have hparse := ((parse_print _).1 hproper).1
  exact ⟨hproper, hparse, (parse_print _).2 _ hparse⟩

end Regex

end ParserForge

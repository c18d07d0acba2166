import Std.Data.HashMap.Lemmas
import Std.Data.HashSet.Lemmas

/-!
Grouping pairs by their first component, in the order in which the first components show up.
Hash tables keep this fast for long lists; the two main statements say what is computed in terms
of plain lists.
-/

namespace ParserForge

/-- A character is hashed as its code point. -/
instance hashableChar : Hashable Char := ⟨fun c => hash c.val⟩

variable {κ α : Type} [DecidableEq κ] [Hashable κ]

/-- Keeps a value unless it has been seen before; the values kept so far are listed backwards. -/
def keepFresh (kept : List κ × Std.HashSet κ) (k : κ) : List κ × Std.HashSet κ :=
  let (known, seen) := kept.2.containsThenInsert k
  (if known then kept.1 else k :: kept.1, seen)

/-- The distinct members of a list, in the order in which they show up. -/
def distinct (ks : List κ) : List κ := (ks.foldl keepFresh ([], ∅)).1.reverse

/-- The second components of pairs, by the first component. -/
def valuesByKey (pairs : List (κ × α)) : Std.HashMap κ (List α) :=
  pairs.foldr (fun p t => t.insert p.1 (p.2 :: t.getD p.1 [])) ∅

/-- Groups the second components of pairs by the first. -/
def groupByKey (pairs : List (κ × α)) : List (κ × List α) :=
  let values := valuesByKey pairs
  (distinct (pairs.map Prod.fst)).map fun k => (k, values.getD k [])

theorem foldl_keepFresh {ks kept : List κ} {seen : Std.HashSet κ}
    (h : ∀ k, k ∈ seen ↔ k ∈ kept) :
    (ks.foldl keepFresh (kept, seen)).1.reverse = List.eraseDupsBy.loop (· == ·) ks kept := by
  induction ks generalizing kept seen with
  | nil => simp [List.eraseDupsBy.loop]
  | cons k ks ih =>
      simp only [List.foldl_cons, keepFresh, Std.HashSet.containsThenInsert_fst,
        Std.HashSet.containsThenInsert_snd, List.eraseDupsBy.loop]
      by_cases hk : k ∈ kept
      · have hany : kept.any (fun j => k == j) = true := by simpa using hk
        have hseen : seen.contains k = true := Std.HashSet.mem_iff_contains.mp ((h k).mpr hk)
        simp only [hseen, if_true, hany]
        refine ih fun j => ?_
        simp only [Std.HashSet.mem_insert, beq_iff_eq, h j]
        constructor
        · rintro (rfl | hj)
          · exact hk
          · exact hj
        · exact .inr
      · have hany : kept.any (fun j => k == j) = false := by
          simpa using fun j (hj : j ∈ kept) (he : k = j) => hk (he ▸ hj)
        have hseen : seen.contains k = false :=
          Bool.eq_false_iff.mpr fun hs => hk ((h k).mp (Std.HashSet.mem_iff_contains.mpr hs))
        simp only [hseen, hany]
        refine ih fun j => ?_
        simp only [Std.HashSet.mem_insert, beq_iff_eq, h j]
        simp [eq_comm]

theorem distinct_eq_eraseDups (ks : List κ) : distinct ks = ks.eraseDups :=
  foldl_keepFresh fun k => by simp

theorem getD_valuesByKey (pairs : List (κ × α)) (k : κ) :
    (valuesByKey pairs).getD k [] =
      pairs.filterMap fun p => if p.1 = k then some p.2 else none := by
  induction pairs with
  | nil => simp [valuesByKey]
  | cons p pairs ih =>
      have hstep : valuesByKey (p :: pairs) =
          (valuesByKey pairs).insert p.1 (p.2 :: (valuesByKey pairs).getD p.1 []) := rfl
      rw [hstep, Std.HashMap.getD_insert, List.filterMap_cons]
      by_cases hp : p.1 = k
      · subst hp
        simp [ih]
      · simp [hp, ih]

theorem groupByKey_eq (pairs : List (κ × α)) :
    groupByKey pairs = (pairs.map Prod.fst).eraseDups.map fun k =>
      (k, pairs.filterMap fun p => if p.1 = k then some p.2 else none) := by
  simp only [groupByKey, distinct_eq_eraseDups, getD_valuesByKey]

end ParserForge

import Mathlib
import ParserForge.WorkQueue

/-!
A work queue whose set of members agrees with its list of waiting values.
-/

namespace ParserForge

namespace WorkQueue

variable {α : Type} [Ord α] {q : WorkQueue α} {a b : α}

/-- No value waits twice, and the members are the values that wait. -/
structure Consistent (q : WorkQueue α) : Prop where
  nodup : q.waiting.Nodup
  mem_iff : ∀ a, a ∈ q.members ↔ a ∈ q.waiting

theorem empty_consistent : (empty : WorkQueue α).Consistent where
  nodup := List.nodup_nil
  mem_iff := by simp [empty]

/-- A value that waits is not put in again. -/
theorem push_of_mem (h : q.Consistent) (ha : a ∈ q.waiting) : q.push a = (q, false) :=
  if_pos (Std.TreeSet.mem_iff_contains.mp ((h.mem_iff a).mpr ha))

/-- A value that does not wait is put behind those that do. -/
theorem push_of_notMem (h : q.Consistent) (ha : a ∉ q.waiting) :
    q.push a = (⟨q.waiting ++ [a], q.members.insert a⟩, true) :=
  if_neg fun hold => ha ((h.mem_iff a).mp (Std.TreeSet.mem_iff_contains.mpr hold))

/-- A push answers `true` if and only if the value did not wait. -/
theorem push_snd_iff (h : q.Consistent) : (q.push a).2 = true ↔ a ∉ q.waiting := by
  by_cases ha : a ∈ q.waiting
  · simp [push_of_mem h ha, ha]
  · simp [push_of_notMem h ha, ha]

theorem waiting_push [DecidableEq α] (h : q.Consistent) (a : α) :
    (q.push a).1.waiting = if a ∈ q.waiting then q.waiting else q.waiting ++ [a] := by
  split
  · next ha => rw [push_of_mem h ha]
  · next ha => rw [push_of_notMem h ha]

theorem mem_waiting_push (h : q.Consistent) : b ∈ (q.push a).1.waiting ↔ b = a ∨ b ∈ q.waiting := by
  by_cases ha : a ∈ q.waiting
  · rw [push_of_mem h ha]
    constructor
    · exact Or.inr
    · rintro (rfl | hb)
      · exact ha
      · exact hb
  · simp [push_of_notMem h ha, or_comm]

theorem pop?_eq_none_iff : q.pop? = none ↔ q.waiting = [] := by
  unfold pop?
  split <;> simp [*]

/-- The oldest value can be taken out, and leaves the others. -/
theorem exists_pop? {w : List α} (h : q.waiting = a :: w) :
    ∃ rest, q.pop? = some (a, rest) ∧ rest.waiting = w := by
  rw [pop?, h]
  exact ⟨_, rfl, rfl⟩

theorem waiting_of_pop? {rest : WorkQueue α} (h : q.pop? = some (a, rest)) :
    q.waiting = a :: rest.waiting := by
  unfold pop? at h
  split at h
  · cases h
  · next hwaiting =>
      cases h
      exact hwaiting

variable [Std.TransOrd α] [Std.LawfulEqOrd α]

theorem push_consistent (h : q.Consistent) (a : α) : (q.push a).1.Consistent := by
  by_cases ha : a ∈ q.waiting
  · rw [push_of_mem h ha]
    exact h
  · rw [push_of_notMem h ha]
    refine ⟨?_, fun b => ?_⟩
    · rw [List.nodup_append]
      refine ⟨h.nodup, List.nodup_singleton a, ?_⟩
      rintro b hb c hc rfl
      exact ha (List.mem_singleton.mp hc ▸ hb)
    · simp [Std.TreeSet.mem_insert, h.mem_iff, eq_comm (a := a), or_comm]

theorem pop?_consistent {rest : WorkQueue α} (h : q.Consistent) (hpop : q.pop? = some (a, rest)) :
    rest.Consistent := by
  have hwaiting := waiting_of_pop? hpop
  have hnodup := h.nodup
  rw [hwaiting, List.nodup_cons] at hnodup
  refine ⟨hnodup.2, fun b => ?_⟩
  have hmembers : rest.members = q.members.erase a := by
    unfold pop? at hpop
    split at hpop
    · cases hpop
    · cases hpop
      rfl
  simp only [hmembers, Std.TreeSet.mem_erase, h.mem_iff, hwaiting, List.mem_cons,
    Std.LawfulEqCmp.compare_eq_iff_eq, ne_eq]
  constructor
  · rintro ⟨hne, rfl | hb⟩
    · exact absurd rfl hne
    · exact hb
  · intro hb
    exact ⟨fun hab => hnodup.1 (hab ▸ hb), Or.inr hb⟩

/-- What has just been taken out can be put in again, behind the others. -/
theorem push_of_pop? {rest : WorkQueue α} (h : q.Consistent) (hpop : q.pop? = some (a, rest)) :
    (rest.push a).2 = true ∧ (rest.push a).1.waiting = rest.waiting ++ [a] := by
  have hnodup := h.nodup
  rw [waiting_of_pop? hpop, List.nodup_cons] at hnodup
  rw [push_of_notMem (pop?_consistent h hpop) hnodup.1]
  exact ⟨rfl, rfl⟩

/-- A queue made from a list holds its values. -/
theorem ofList_consistent (as : List α) :
    (ofList as).Consistent ∧ ∀ a, a ∈ (ofList as).waiting ↔ a ∈ as := by
  have hfold : ∀ (as : List α) (q : WorkQueue α), q.Consistent →
      (as.foldl (fun q a => (q.push a).1) q).Consistent ∧
      ∀ a, a ∈ (as.foldl (fun q a => (q.push a).1) q).waiting ↔ a ∈ as ∨ a ∈ q.waiting := by
    intro as
    induction as with
    | nil => exact fun q h => ⟨h, by simp⟩
    | cons b as ih =>
        intro q h
        obtain ⟨hconsistent, hmem⟩ := ih _ (push_consistent h b)
        refine ⟨hconsistent, fun a => ?_⟩
        rw [List.foldl_cons, hmem, mem_waiting_push h, List.mem_cons, or_left_comm, or_assoc]
  obtain ⟨hconsistent, hmem⟩ := hfold as empty empty_consistent
  refine ⟨hconsistent, fun a => ?_⟩
  rw [ofList, hmem]
  exact or_iff_left List.not_mem_nil

end WorkQueue

end ParserForge

import Mathlib

/-!
A list of work, done in turns.  In a turn the oldest value is taken off, and the values that it calls
for are put behind the others unless they wait already.  Whatever is taken off at some time is taken
off early for the first time, and the work comes to its end early or never.
-/

namespace ParserForge

namespace Turns

/-! Iterations from the empty set. -/

section Iterate

variable {α : Type} {U : Finset α} {F : Finset α → Finset α}

/-- A monotone function on the subsets of a finite set reaches its least fixed point after as many
steps as the set has members. -/
theorem iterate_card_eq (hmono : Monotone F) (hsub : ∀ n, F^[n] ∅ ⊆ U) :
    F (F^[U.card] ∅) = F^[U.card] ∅ := by
  have hgrows : ∀ n, F^[n] ∅ ⊆ F (F^[n] ∅) := by
    intro n
    have hle : F^[n] ∅ ⊆ F^[n + 1] ∅ :=
      hmono.monotone_iterate_of_le_map (Finset.empty_subset (F ∅)) (Nat.le_succ n)
    rwa [Function.iterate_succ_apply'] at hle
  have hcard : ∀ n, F (F^[n] ∅) = F^[n] ∅ ∨ n < (F (F^[n] ∅)).card := by
    intro n
    induction n with
    | zero =>
        by_cases hempty : F ∅ = ∅
        · exact Or.inl hempty
        · exact Or.inr (Finset.card_pos.mpr (Finset.nonempty_iff_ne_empty.mpr hempty))
    | succ n ih =>
        rw [Function.iterate_succ_apply']
        by_cases hfixed : F (F (F^[n] ∅)) = F (F^[n] ∅)
        · exact Or.inl hfixed
        · have hlt : n < (F (F^[n] ∅)).card := ih.resolve_left fun h => hfixed (by rw [h, h])
          have hsubset := hgrows (n + 1)
          rw [Function.iterate_succ_apply'] at hsubset
          have hstrict := Finset.card_lt_card (hsubset.ssubset_of_ne (Ne.symm hfixed))
          exact Or.inr (by omega)
  refine (hcard U.card).resolve_right fun hlt => ?_
  have hle := Finset.card_le_card (hsub (U.card + 1))
  rw [Function.iterate_succ_apply'] at hle
  omega

end Iterate

variable {α : Type} [DecidableEq α] {out : α → List α} {w u v xs : List α} {x y : α} {n m : Nat}

/-- Puts a value behind the others, unless it waits already. -/
def push (w : List α) (x : α) : List α := if x ∈ w then w else w ++ [x]

/-- Takes off the oldest value, and puts those that it calls for behind the others. -/
def turn (out : α → List α) : List α → List α
  | [] => []
  | x :: w => (out x).foldl push w

theorem exists_foldl_push (w xs : List α) :
    ∃ v, xs.foldl push w = w ++ v ∧ ∀ y ∈ v, y ∈ xs := by
  induction xs generalizing w with
  | nil => exact ⟨[], by simp, by simp⟩
  | cons x xs ih =>
      obtain ⟨v, hv, hmem⟩ := ih (push w x)
      by_cases hx : x ∈ w
      · refine ⟨v, ?_, fun y hy => List.mem_cons_of_mem x (hmem y hy)⟩
        rw [List.foldl_cons, hv, push, if_pos hx]
      · refine ⟨x :: v, ?_, fun y hy => ?_⟩
        · rw [List.foldl_cons, hv, push, if_neg hx, List.append_assoc, List.singleton_append]
        · rcases List.mem_cons.mp hy with rfl | hy
          · exact List.mem_cons_self
          · exact List.mem_cons_of_mem x (hmem y hy)

theorem mem_foldl_push : y ∈ xs.foldl push w ↔ y ∈ w ∨ y ∈ xs := by
  induction xs generalizing w with
  | nil => simp
  | cons x xs ih =>
      rw [List.foldl_cons, ih, List.mem_cons, push]
      split
      · next hx =>
          constructor
          · exact fun h => h.imp_right Or.inr
          · rintro (hy | rfl | hy)
            · exact Or.inl hy
            · exact Or.inl hx
            · exact Or.inr hy
      · simp [or_assoc]

theorem nodup_foldl_push (h : w.Nodup) : (xs.foldl push w).Nodup := by
  induction xs generalizing w with
  | nil => exact h
  | cons x xs ih =>
      apply ih
      rw [push]
      split
      · exact h
      · next hx =>
          rw [← List.concat_eq_append]
          exact h.concat hx

/-- After as many turns as there are values, these have been taken off, and what is new has been
called for by one of them. -/
theorem exists_turns_append (out : α → List α) (u v : List α) :
    ∃ v', (turn out)^[u.length] (u ++ v) = v ++ v' ∧ ∀ y ∈ v', ∃ x ∈ u, y ∈ out x := by
  induction u generalizing v with
  | nil => exact ⟨[], by simp, by simp⟩
  | cons x u ih =>
      obtain ⟨v₁, hv₁, hmem₁⟩ := exists_foldl_push (u ++ v) (out x)
      obtain ⟨v₂, hv₂, hmem₂⟩ := ih (v ++ v₁)
      refine ⟨v₁ ++ v₂, ?_, fun y hy => ?_⟩
      · rw [List.length_cons, Function.iterate_succ_apply, List.cons_append, turn, hv₁,
          List.append_assoc, hv₂, List.append_assoc]
      · rcases List.mem_append.mp hy with hy | hy
        · exact ⟨x, List.mem_cons_self, hmem₁ y hy⟩
        · obtain ⟨z, hz, hyz⟩ := hmem₂ y hy
          exact ⟨z, List.mem_cons_of_mem x hz, hyz⟩

theorem turns_nil (n : Nat) : (turn out)^[n] [] = [] := Function.iterate_fixed rfl n

theorem turns_eq_nil_mono (h : (turn out)^[n] w = []) (hle : n ≤ m) :
    (turn out)^[m] w = [] := by
  rw [← Nat.sub_add_cancel hle, Function.iterate_add_apply, h, turns_nil]

section Finite

variable {U : Finset α} (hout : ∀ x ∈ U, ∀ y ∈ out x, y ∈ U)

/-- Distinct values of the finite set wait. -/
def Waits (U : Finset α) (w : List α) : Prop := w.Nodup ∧ ∀ x ∈ w, x ∈ U

theorem Waits.length_le (hw : Waits U w) : w.length ≤ U.card := by
  rw [← List.toFinset_card_of_nodup hw.1]
  exact Finset.card_le_card fun x hx => hw.2 x (List.mem_toFinset.mp hx)

include hout

theorem Waits.turns (hw : Waits U w) (n : Nat) : Waits U ((turn out)^[n] w) := by
  induction n generalizing w with
  | zero => exact hw
  | succ n ih =>
      rw [Function.iterate_succ_apply]
      apply ih
      cases w with
      | nil => exact hw
      | cons x w =>
          refine ⟨nodup_foldl_push (List.nodup_cons.mp hw.1).2, fun y hy => ?_⟩
          rcases mem_foldl_push.mp hy with hy | hy
          · exact hw.2 y (List.mem_cons_of_mem x hy)
          · exact hout x (hw.2 x List.mem_cons_self) y hy

/-! The end of the work. -/

omit hout in
/-- The values that call for values of the set only. -/
def settling (out : α → List α) (U N : Finset α) : Finset α :=
  U.filter fun x => ∀ y ∈ out x, y ∈ N

omit hout in
theorem settling_mono (out : α → List α) (U : Finset α) : Monotone (settling out U) := by
  intro N N' hsub x hx
  rw [settling, Finset.mem_filter] at hx ⊢
  exact ⟨hx.1, fun y hy => hsub (hx.2 y hy)⟩

omit hout in
theorem iterate_settling_subset (out : α → List α) (U : Finset α) (n : Nat) :
    (settling out U)^[n] ∅ ⊆ U := by
  cases n with
  | zero => exact Finset.empty_subset U
  | succ n =>
      rw [Function.iterate_succ_apply']
      exact Finset.filter_subset _ U

/-- What settles after `m` rounds is worked off in as many rounds. -/
theorem turns_eq_nil_of_settling (hw : Waits U w) (h : ∀ x ∈ w, x ∈ (settling out U)^[m] ∅) :
    (turn out)^[m * U.card] w = [] := by
  induction m generalizing w with
  | zero =>
      have hnil : w = [] := List.eq_nil_iff_forall_not_mem.mpr fun x hx => by simpa using h x hx
      rw [hnil, turns_nil]
  | succ m ih =>
      obtain ⟨v, hv, hmem⟩ := exists_turns_append out w []
      rw [List.append_nil, List.nil_append] at hv
      have hrest : (turn out)^[m * U.card] v = [] := by
        apply ih
        · rw [← hv]
          exact hw.turns hout _
        · intro y hy
          obtain ⟨x, hx, hyx⟩ := hmem y hy
          have hsettles := h x hx
          rw [Function.iterate_succ_apply', settling, Finset.mem_filter] at hsettles
          exact hsettles.2 y hyx
      have hlength := hw.length_le
      refine turns_eq_nil_mono (n := m * U.card + w.length) ?_ ?_
      · rw [Function.iterate_add_apply, hv, hrest]
      · rw [Nat.add_mul, Nat.one_mul]
        omega

/-- A value that never settles keeps the work going. -/
theorem exists_mem_turns {N : Finset α} (hN : settling out U N = N) (hw : Waits U w)
    (hx : x ∈ w) (hnot : x ∉ N) (n : Nat) : ∃ y ∈ (turn out)^[n] w, y ∉ N := by
  induction n generalizing w x with
  | zero => exact ⟨x, hx, hnot⟩
  | succ n ih =>
      rw [Function.iterate_succ_apply]
      have hturn := hw.turns hout 1
      cases w with
      | nil => cases hx
      | cons z w =>
          rcases List.mem_cons.mp hx with rfl | hx
          · obtain ⟨y, hy, hyN⟩ : ∃ y ∈ out x, y ∉ N := by
              by_contra hall
              push Not at hall
              rw [← hN, settling, Finset.mem_filter] at hnot
              exact hnot ⟨hw.2 x List.mem_cons_self, hall⟩
            exact ih hturn (mem_foldl_push.mpr (Or.inr hy)) hyN
          · exact ih hturn (mem_foldl_push.mpr (Or.inl hx)) hnot

/-- The work comes to its end early or never. -/
theorem turns_eq_nil (hw : Waits U w) (h : (turn out)^[n] w = []) :
    (turn out)^[U.card * U.card] w = [] := by
  have hfixed := iterate_card_eq (settling_mono out U) (iterate_settling_subset out U)
  apply turns_eq_nil_of_settling hout hw
  intro x hx
  by_contra hnot
  obtain ⟨y, hy, _⟩ := exists_mem_turns hout hfixed hw hx hnot n
  rw [h] at hy
  cases hy

/-- If no value calls for itself by way of others, the work comes to its end. -/
theorem exists_turns_eq_nil (hw : Waits U w)
    (hacyclic : ∀ x, ¬ Relation.TransGen (fun x y => x ∈ U ∧ y ∈ out x) x x) :
    ∃ n, (turn out)^[n] w = [] := by
  have hfixed := iterate_card_eq (settling_mono out U) (iterate_settling_subset out U)
  let below := Function.swap (Relation.TransGen fun x y => x ∈ U ∧ y ∈ out x)
  have : IsStrictOrder α below :=
    { irrefl := hacyclic, trans := fun _ _ _ h h' => h'.trans h }
  have hsettles : ∀ x ∈ U, x ∈ (settling out U)^[U.card] ∅ := fun x hx => by
    refine (U.wellFoundedOn (r := below)).induction hx fun x hx ih => ?_
    rw [← hfixed, settling, Finset.mem_filter]
    exact ⟨hx, fun y hy => ih y (hout x hx y hy) (.single ⟨hx, hy⟩)⟩
  exact ⟨_, turns_eq_nil_of_settling hout hw fun x hx => hsettles x (hw.2 x hx)⟩

/-! What is taken off. -/

/-- A value that waits is taken off before long. -/
theorem exists_head_turns (hw : Waits U w) (h : x ∈ (turn out)^[n] w) :
    ∃ j < n + U.card, ((turn out)^[j] w).head? = some x := by
  obtain ⟨u, v, hsplit⟩ := List.append_of_mem h
  have hlength := (hw.turns hout n).length_le
  rw [hsplit, List.length_append, List.length_cons] at hlength
  obtain ⟨v', hv', _⟩ := exists_turns_append out u (x :: v)
  refine ⟨u.length + n, by omega, ?_⟩
  rw [Function.iterate_add_apply, hsplit, hv', List.cons_append, List.head?_cons]

omit hout in
/-- The values of the list and those that values of the set call for. -/
def calling (out : α → List α) (w : List α) (D : Finset α) : Finset α :=
  w.toFinset ∪ D.biUnion fun x => (out x).toFinset

omit hout in
theorem mem_calling {D : Finset α} : y ∈ calling out w D ↔ y ∈ w ∨ ∃ x ∈ D, y ∈ out x := by
  simp [calling]

omit hout in
theorem calling_mono (out : α → List α) (w : List α) : Monotone (calling out w) := by
  intro D D' hsub y hy
  rw [mem_calling] at hy ⊢
  exact hy.imp_right fun ⟨x, hx, hyx⟩ => ⟨x, hsub hx, hyx⟩

/-- What is called for after `m` rounds is taken off in as many rounds. -/
theorem exists_head_of_calling (hw : Waits U w) (hx : x ∈ (calling out w)^[m] ∅) :
    ∃ j < m * U.card, ((turn out)^[j] w).head? = some x := by
  induction m generalizing x with
  | zero => exact absurd hx (Finset.notMem_empty x)
  | succ m ih =>
      rw [Function.iterate_succ_apply', mem_calling] at hx
      rw [Nat.add_mul, Nat.one_mul]
      rcases hx with hx | ⟨y, hy, hxy⟩
      · obtain ⟨j, hj, hhead⟩ := exists_head_turns (n := 0) hout hw hx
        exact ⟨j, by omega, hhead⟩
      · obtain ⟨i, hi, hhead⟩ := ih hy
        obtain ⟨rest, hrest⟩ := List.head?_eq_some_iff.mp hhead
        have hnext : x ∈ (turn out)^[i + 1] w := by
          rw [Function.iterate_succ_apply', hrest]
          exact mem_foldl_push.mpr (Or.inr hxy)
        obtain ⟨j, hj, hhead⟩ := exists_head_turns hout hw hnext
        exact ⟨j, by omega, hhead⟩

omit hout in
/-- Only what has been called for waits. -/
theorem mem_of_mem_turns {D : Finset α} (hD : calling out w D = D) (n : Nat) :
    ∀ x ∈ (turn out)^[n] w, x ∈ D := by
  induction n with
  | zero =>
      intro x hx
      rw [← hD]
      exact mem_calling.mpr (Or.inl hx)
  | succ n ih =>
      rw [Function.iterate_succ_apply']
      cases hturns : (turn out)^[n] w with
      | nil => simp [turn]
      | cons y rest =>
          rw [hturns] at ih
          intro x hx
          rcases mem_foldl_push.mp hx with hx | hx
          · exact ih x (List.mem_cons_of_mem y hx)
          · rw [← hD]
            exact mem_calling.mpr (Or.inr ⟨y, ih y List.mem_cons_self, hx⟩)

/-- Whatever is taken off is taken off early for the first time. -/
theorem exists_early_head (hw : Waits U w) (h : ((turn out)^[n] w).head? = some x) :
    ∃ j < U.card * U.card, ((turn out)^[j] w).head? = some x := by
  have hsub : ∀ n, (calling out w)^[n] ∅ ⊆ U := by
    intro n
    induction n with
    | zero => exact Finset.empty_subset U
    | succ n ih =>
        rw [Function.iterate_succ_apply']
        intro y hy
        rcases mem_calling.mp hy with hy | ⟨z, hz, hyz⟩
        · exact hw.2 y hy
        · exact hout z (ih hz) y hyz
  have hfixed := iterate_card_eq (calling_mono out w) hsub
  apply exists_head_of_calling hout hw
  exact mem_of_mem_turns hfixed n x (List.mem_of_mem_head? h)

end Finite

end Turns

end ParserForge

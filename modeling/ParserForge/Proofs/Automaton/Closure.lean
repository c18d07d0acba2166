import Mathlib
import ParserForge.Automaton.Nfa

/-!
Paths through a nondeterministic automaton, and the closure under silent edges.  The closure of
some states lists, in ascending order, the states that silent paths lead to from them.
-/

namespace ParserForge

/-- The states that the edges of a state lead to. -/
def NfaState.successors {σ τ : Type} (s : NfaState σ τ) : List StateId :=
  s.silent ++ s.moves.map Prod.snd

namespace Nfa

variable {σ τ : Type}

/-- The word spelled by the edges from one state to another; silent edges spell nothing. -/
inductive Path (a : Nfa σ τ) : StateId → List σ → StateId → Prop where
  | refl (q : StateId) : Path a q [] q
  | silent {q r s : StateId} {w : List σ} :
      r ∈ a.silentFrom q → Path a r w s → Path a q w s
  | move {q r s : StateId} {x : σ} {w : List σ} :
      (x, r) ∈ a.movesFrom q → Path a r w s → Path a q (x :: w) s

theorem lt_size_of_mem_silentFrom {a : Nfa σ τ} {q r : StateId} (h : r ∈ a.silentFrom q) :
    q < a.size := by
  by_contra hnot
  rw [silentFrom, getElem?_neg a.states q hnot] at h
  exact List.not_mem_nil h

theorem lt_size_of_mem_movesFrom {a : Nfa σ τ} {q : StateId} {e : σ × StateId}
    (h : e ∈ a.movesFrom q) : q < a.size := by
  by_contra hnot
  rw [movesFrom, getElem?_neg a.states q hnot] at h
  exact List.not_mem_nil h

namespace Path

variable {a : Nfa σ τ} {q r s : StateId} {v w : List σ}

/-- Where a nonempty path starts there is a state. -/
theorem start_lt_size (h : a.Path q w r) (hr : r < a.size) : q < a.size := by
  cases h with
  | refl => exact hr
  | silent hedge _ => exact lt_size_of_mem_silentFrom hedge
  | move hedge _ => exact lt_size_of_mem_movesFrom hedge

theorem trans (h : a.Path q v r) (h' : a.Path r w s) : a.Path q (v ++ w) s := by
  induction h with
  | refl => exact h'
  | silent hedge _ ih => exact .silent hedge (ih h')
  | move hedge _ ih => exact .move hedge (ih h')

theorem single_silent (h : r ∈ a.silentFrom q) : a.Path q [] r := .silent h (.refl r)

theorem single_move {x : σ} (h : (x, r) ∈ a.movesFrom q) : a.Path q [x] r := .move h (.refl r)

/-- What edges hand on, together with the word spelled so far, holds at the end of a path. -/
theorem invariant {P : List σ → StateId → Prop}
    (hsilent : ∀ w r s, P w r → s ∈ a.silentFrom r → P w s)
    (hmove : ∀ w r x s, P w r → (x, s) ∈ a.movesFrom r → P (w ++ [x]) s)
    (h : a.Path q w r) (hv : P v q) : P (v ++ w) r := by
  induction h generalizing v with
  | refl => simpa using hv
  | silent hedge _ ih => exact ih (hsilent v _ _ hv hedge)
  | @move q r s x w hedge _ ih => simpa using ih (hmove v _ _ _ hv hedge)

/-- A path over a longer word stops somewhere after its first part. -/
theorem split (h : a.Path q (v ++ w) s) : ∃ r, a.Path q v r ∧ a.Path r w s := by
  generalize hu : v ++ w = u at h
  induction h generalizing v with
  | refl q =>
      obtain ⟨rfl, rfl⟩ := List.append_eq_nil_iff.mp hu
      exact ⟨q, .refl q, .refl q⟩
  | silent hedge _ ih =>
      obtain ⟨r, hv, hw⟩ := ih hu
      exact ⟨r, .silent hedge hv, hw⟩
  | @move q r s x w' hedge hpath ih =>
      cases v with
      | nil =>
          rw [List.nil_append] at hu
          subst hu
          exact ⟨q, .refl q, .move hedge hpath⟩
      | cons y v =>
          rw [List.cons_append] at hu
          obtain ⟨rfl, hrest⟩ := List.cons.inj hu
          obtain ⟨t, hv, hw⟩ := ih hrest
          exact ⟨t, .move hedge hv, hw⟩

/-- A path over one symbol makes exactly one move. -/
theorem of_singleton {x : σ} (h : a.Path q [x] s) :
    ∃ r t, a.Path q [] r ∧ (x, t) ∈ a.movesFrom r ∧ a.Path t [] s := by
  generalize hu : [x] = u at h
  induction h with
  | refl => exact absurd hu (List.cons_ne_nil x [])
  | silent hedge _ ih =>
      obtain ⟨r, t, hr, hmove, ht⟩ := ih hu
      exact ⟨r, t, .silent hedge hr, hmove, ht⟩
  | @move q t s y w hedge hpath _ =>
      obtain ⟨rfl, rfl⟩ := List.cons.inj hu
      exact ⟨q, t, .refl q, hedge, hpath⟩

end Path

end Nfa

namespace Search

theorem size_reach (s : Search) (q : StateId) : (s.reach q).size = s.size := by
  unfold reach
  split <;> rfl

theorem mem_reached_reach {s : Search} {q r : StateId} :
    r ∈ (s.reach q).reached ↔ r ∈ s.reached ∨ r = q ∧ q < s.size := by
  unfold reach
  split
  · next h =>
      simp only [Bool.or_eq_true, decide_eq_true_eq, Std.TreeSet.contains_iff_mem] at h
      constructor
      · exact Or.inl
      · rintro (hr | ⟨rfl, hlt⟩)
        · exact hr
        · exact h.resolve_left (Nat.not_le.mpr hlt)
  · next h =>
      simp only [Bool.or_eq_true, decide_eq_true_eq, not_or, Nat.not_le] at h
      simp only [Std.TreeSet.mem_insert, Std.compare_eq_iff_eq]
      constructor
      · rintro (rfl | hr)
        · exact Or.inr ⟨rfl, h.1⟩
        · exact Or.inl hr
      · rintro (hr | ⟨rfl, _⟩)
        · exact Or.inr hr
        · exact Or.inl rfl

theorem mem_pending_reach {s : Search} {q r : StateId} :
    r ∈ (s.reach q).pending ↔ r ∈ s.pending ∨ r = q ∧ q < s.size ∧ q ∉ s.reached := by
  unfold reach
  split
  · next h =>
      simp only [Bool.or_eq_true, decide_eq_true_eq, Std.TreeSet.contains_iff_mem] at h
      constructor
      · exact Or.inl
      · rintro (hr | ⟨rfl, hlt, hnew⟩)
        · exact hr
        · exact absurd h (not_or.mpr ⟨Nat.not_le.mpr hlt, hnew⟩)
  · next h =>
      simp only [Bool.or_eq_true, decide_eq_true_eq, Std.TreeSet.contains_iff_mem, not_or,
        Nat.not_le] at h
      simp [h, or_comm]

/-- Every state that has been reached and is not pending has been taken out once. -/
theorem card_reach {s : Search} {k : Nat} (h : s.reached.size = k + s.pending.length)
    (q : StateId) : (s.reach q).reached.size = k + (s.reach q).pending.length := by
  unfold reach
  split
  · exact h
  · next hq =>
      simp only [Bool.or_eq_true, not_or] at hq
      rw [Std.TreeSet.size_insert, if_neg hq.2, List.length_cons]
      omega

theorem size_foldl_reach (qs : List StateId) (s : Search) :
    (qs.foldl reach s).size = s.size := by
  induction qs generalizing s with
  | nil => rfl
  | cons q qs ih => rw [List.foldl_cons, ih, size_reach]

theorem mem_reached_foldl_reach {qs : List StateId} {s : Search} {r : StateId} :
    r ∈ (qs.foldl reach s).reached ↔ r ∈ s.reached ∨ r ∈ qs ∧ r < s.size := by
  induction qs generalizing s with
  | nil => simp
  | cons q qs ih =>
      rw [List.foldl_cons, ih, mem_reached_reach, size_reach, List.mem_cons]
      constructor
      · rintro ((h | ⟨rfl, h⟩) | ⟨h, hlt⟩)
        · exact Or.inl h
        · exact Or.inr ⟨Or.inl rfl, h⟩
        · exact Or.inr ⟨Or.inr h, hlt⟩
      · rintro (h | ⟨rfl | h, hlt⟩)
        · exact Or.inl (Or.inl h)
        · exact Or.inl (Or.inr ⟨rfl, hlt⟩)
        · exact Or.inr ⟨h, hlt⟩

theorem mem_pending_foldl_reach {qs : List StateId} {s : Search} {r : StateId}
    (h : r ∈ s.pending ∨ r ∈ qs ∧ r < s.size ∧ r ∉ s.reached) :
    r ∈ (qs.foldl reach s).pending := by
  induction qs generalizing s with
  | nil => simpa using h
  | cons q qs ih =>
      rw [List.foldl_cons]
      refine ih ?_
      rw [mem_pending_reach, mem_reached_reach, size_reach]
      rcases h with h | ⟨hmem, hlt, hnew⟩
      · exact Or.inl (Or.inl h)
      · by_cases hrq : r = q
        · subst hrq
          exact Or.inl (Or.inr ⟨rfl, hlt, hnew⟩)
        · refine Or.inr ⟨(List.mem_cons.mp hmem).resolve_left hrq, hlt, ?_⟩
          rintro (h | ⟨h, _⟩)
          · exact hnew h
          · exact hrq h

theorem pending_reached_reach {s : Search} (h : ∀ r ∈ s.pending, r ∈ s.reached) (q : StateId) :
    ∀ r ∈ (s.reach q).pending, r ∈ (s.reach q).reached := by
  intro r hr
  rcases mem_pending_reach.mp hr with hr | ⟨rfl, hlt, _⟩
  · exact mem_reached_reach.mpr (Or.inl (h r hr))
  · exact mem_reached_reach.mpr (Or.inr ⟨rfl, hlt⟩)

theorem pending_reached_foldl_reach {s : Search} (h : ∀ r ∈ s.pending, r ∈ s.reached)
    (qs : List StateId) :
    ∀ r ∈ (qs.foldl reach s).pending, r ∈ (qs.foldl reach s).reached := by
  induction qs generalizing s with
  | nil => exact h
  | cons q qs ih => exact ih (pending_reached_reach h q)

theorem card_foldl_reach {s : Search} {k : Nat} (h : s.reached.size = k + s.pending.length)
    (qs : List StateId) :
    (qs.foldl reach s).reached.size = k + (qs.foldl reach s).pending.length := by
  induction qs generalizing s with
  | nil => exact h
  | cons q qs ih => exact ih (card_reach h q)

/-- The reached states are listed in ascending order. -/
theorem ascending_toList (s : Search) : s.toList.Pairwise (· < ·) := by
  have h := Std.TreeSet.ordered_toList (t := s.reached)
  exact h.imp fun hlt => Nat.compare_eq_lt.mp hlt

theorem mem_toList {s : Search} {q : StateId} : q ∈ s.toList ↔ q ∈ s.reached :=
  Std.TreeSet.mem_toList

theorem size_reached_le {s : Search} (h : ∀ q ∈ s.reached, q < s.size) :
    s.reached.size ≤ s.size := by
  have hnodup : s.toList.Nodup := s.ascending_toList.imp fun hlt => Nat.ne_of_lt hlt
  have hsub : s.toList.toFinset ⊆ Finset.range s.size := by
    intro q hq
    exact Finset.mem_range.mpr (h q (mem_toList.mp (List.mem_toFinset.mp hq)))
  have hcard := Finset.card_le_card hsub
  rw [List.toFinset_card_of_nodup hnodup, Finset.card_range] at hcard
  rwa [toList, Std.TreeSet.length_toList] at hcard

end Search

namespace Nfa

variable {σ τ : Type}

/-- What holds while the silent edges are followed from the given states: only states on silent
paths are reached, and a reached state that is no longer pending has been looked at. -/
structure Exploring (a : Nfa σ τ) (seeds : List StateId) (taken : Nat) (s : Search) : Prop where
  size_eq : s.size = a.size
  reached : ∀ q ∈ s.reached, q < a.size ∧ ∃ r ∈ seeds, a.Path r [] q
  seeds_reached : ∀ q ∈ seeds, q < a.size → q ∈ s.reached
  pending : ∀ q ∈ s.pending, q ∈ s.reached
  expanded : ∀ q ∈ s.reached, q ∉ s.pending →
    ∀ r ∈ a.silentFrom q, r < a.size → r ∈ s.reached
  card : s.reached.size = taken + s.pending.length

theorem exploring_start (a : Nfa σ τ) (seeds : List StateId) :
    a.Exploring seeds 0 (seeds.foldl Search.reach (.start a.size)) where
  size_eq := Search.size_foldl_reach seeds _
  reached := by
    intro q hq
    rcases Search.mem_reached_foldl_reach.mp hq with h | ⟨hq, hlt⟩
    · simp [Search.start] at h
    · exact ⟨hlt, q, hq, .refl q⟩
  seeds_reached := fun q hq hlt => Search.mem_reached_foldl_reach.mpr (Or.inr ⟨hq, hlt⟩)
  pending := Search.pending_reached_foldl_reach (by simp [Search.start]) seeds
  expanded := by
    intro q hq hnot
    rcases Search.mem_reached_foldl_reach.mp hq with h | ⟨hmem, hlt⟩
    · simp [Search.start] at h
    · refine absurd (Search.mem_pending_foldl_reach (Or.inr ⟨hmem, hlt, ?_⟩)) hnot
      simp [Search.start]
  card := Search.card_foldl_reach (by simp [Search.start]) seeds

/-- Looking at a pending state keeps the invariant. -/
theorem exploring_step {a : Nfa σ τ} {seeds : List StateId} {taken : Nat} {s : Search}
    (h : a.Exploring seeds taken s) {q : StateId} {rest : List StateId}
    (hpending : s.pending = q :: rest) :
    a.Exploring seeds (taken + 1)
      ((a.silentFrom q).foldl Search.reach { s with pending := rest }) := by
  have hq : q ∈ s.reached := h.pending q (hpending ▸ List.mem_cons_self)
  have hrest : ∀ r ∈ rest, r ∈ s.reached := fun r hr =>
    h.pending r (hpending ▸ List.mem_cons_of_mem q hr)
  refine ⟨?_, ?_, ?_, Search.pending_reached_foldl_reach hrest _, ?_,
    Search.card_foldl_reach ?_ _⟩
  · rw [Search.size_foldl_reach]
    exact h.size_eq
  · intro r hr
    rcases Search.mem_reached_foldl_reach.mp hr with hr | ⟨hedge, hlt⟩
    · exact h.reached r hr
    · obtain ⟨_, seed, hseed, hpath⟩ := h.reached q hq
      exact ⟨h.size_eq ▸ hlt, seed, hseed, hpath.trans (.single_silent hedge)⟩
  · intro r hr hlt
    exact Search.mem_reached_foldl_reach.mpr (Or.inl (h.seeds_reached r hr hlt))
  · intro r hr hnot t hedge hlt
    rw [Search.mem_reached_foldl_reach]
    by_cases hrq : r = q
    · subst hrq
      exact Or.inr ⟨hedge, h.size_eq.symm ▸ hlt⟩
    · have hold : r ∈ s.reached := by
        by_contra hnew
        rcases Search.mem_reached_foldl_reach.mp hr with hr | ⟨hmem, hbound⟩
        · exact hnew hr
        · exact hnot (Search.mem_pending_foldl_reach (Or.inr ⟨hmem, hbound, hnew⟩))
      have hdone : r ∉ s.pending := by
        rw [hpending]
        intro hmem
        rcases List.mem_cons.mp hmem with h | h
        · exact hrq h
        · exact hnot (Search.mem_pending_foldl_reach (Or.inl h))
      exact Or.inl (h.expanded r hold hdone t hedge hlt)
  · have := h.card
    rw [hpending, List.length_cons] at this
    simp only
    omega

/-- As many rounds as there are states come to the end of the pending states. -/
theorem exploring_explore {a : Nfa σ τ} {seeds : List StateId} (n : Nat) {taken : Nat}
    {s : Search} (h : a.Exploring seeds taken s) (hn : a.size ≤ taken + n) :
    ∃ taken, a.Exploring seeds taken (a.explore n s) ∧ (a.explore n s).pending = [] := by
  induction n generalizing taken s with
  | zero =>
      have hle := Search.size_reached_le (s := s) fun q hq =>
        h.size_eq.symm ▸ (h.reached q hq).1
      have hcard := h.card
      have hsize := h.size_eq
      refine ⟨taken, h, List.eq_nil_of_length_eq_zero ?_⟩
      rw [explore]
      omega
  | succ n ih =>
      rw [explore]
      split
      · next hnil => exact ⟨taken, h, hnil⟩
      · next q rest hcons => exact ih (exploring_step h hcons) (by omega)

theorem reached_of_path {a : Nfa σ τ} {seeds : List StateId} {taken : Nat} {s : Search}
    (h : a.Exploring seeds taken s) (hdone : s.pending = []) {q r : StateId}
    (hpath : a.Path q [] r) (hq : q ∈ s.reached) (hr : r < a.size) : r ∈ s.reached := by
  generalize hw : ([] : List σ) = w at hpath
  induction hpath with
  | refl => exact hq
  | @silent q t r w hedge hpath ih =>
      subst hw
      have ht : t < a.size := hpath.start_lt_size hr
      have hnot : q ∉ s.pending := by simp [hdone]
      exact ih (h.expanded q hq hnot t hedge ht) hr rfl
  | move => exact absurd hw.symm (List.cons_ne_nil _ _)

/-- As soon as there are as many rounds as states, what has been reached is what silent paths lead to
from the seeds. -/
theorem mem_toList_explore {a : Nfa σ τ} {seeds : List StateId} {n : Nat} (hn : a.size ≤ n)
    {q : StateId} : q ∈ (a.explore n (seeds.foldl Search.reach (.start a.size))).toList ↔
      q < a.size ∧ ∃ r ∈ seeds, a.Path r [] q := by
  obtain ⟨taken, h, hdone⟩ :=
    exploring_explore n (exploring_start a seeds) (hn.trans (Nat.le_add_left _ _))
  rw [Search.mem_toList]
  constructor
  · exact h.reached q
  · rintro ⟨hlt, r, hr, hpath⟩
    have hseed := h.seeds_reached r hr (hpath.start_lt_size hlt)
    exact reached_of_path h hdone hpath hseed hlt

/-- The closure of some states holds the states that silent paths lead to from them. -/
theorem mem_closure {a : Nfa σ τ} {seeds : List StateId} {q : StateId} :
    q ∈ a.closure seeds ↔ q < a.size ∧ ∃ r ∈ seeds, a.Path r [] q :=
  mem_toList_explore le_rfl

theorem ascending_closure (a : Nfa σ τ) (seeds : List StateId) :
    (a.closure seeds).Pairwise (· < ·) :=
  Search.ascending_toList _

/-- Further rounds change nothing. -/
theorem toList_explore (a : Nfa σ τ) (seeds : List StateId) {n : Nat} (hn : a.size ≤ n) :
    (a.explore n (seeds.foldl Search.reach (.start a.size))).toList = a.closure seeds := by
  refine (Search.ascending_toList _).eq_of_mem_iff (ascending_closure a seeds) fun q => ?_
  rw [mem_toList_explore hn, mem_closure]

/-- The paths that spell nothing follow silent edges only. -/
theorem path_nil_iff {a : Nfa σ τ} {q r : StateId} :
    a.Path q [] r ↔ Relation.ReflTransGen (fun p s => s ∈ a.silentFrom p) q r := by
  constructor
  · intro h
    generalize hw : ([] : List σ) = w at h
    induction h with
    | refl => exact .refl
    | silent hedge _ ih => exact .head hedge (ih hw)
    | move => exact absurd hw (List.cons_ne_nil _ _).symm
  · intro h
    induction h using Relation.ReflTransGen.head_induction_on with
    | refl => exact .refl r
    | head hedge _ ih => exact .silent hedge ih

section SilentEdges

variable {a : Nfa σ τ} {seeds others : List StateId}

/-- Closures depend on which states are seeds, not on their order or on how often they occur. -/
theorem closure_congr (h : ∀ q, q ∈ others ↔ q ∈ seeds) : a.closure others = a.closure seeds := by
  refine (ascending_closure a others).eq_of_mem_iff (ascending_closure a seeds) fun q => ?_
  simp only [mem_closure, h]

theorem closure_mono (h : seeds ⊆ others) : a.closure seeds ⊆ a.closure others := by
  intro q hq
  obtain ⟨hlt, r, hr, hpath⟩ := mem_closure.mp hq
  exact mem_closure.mpr ⟨hlt, r, h hr, hpath⟩

/-- A closure is closed: what silent edges reach from it belongs to it. -/
theorem closure_closure (a : Nfa σ τ) (seeds : List StateId) :
    a.closure (a.closure seeds) = a.closure seeds := by
  refine (ascending_closure a _).eq_of_mem_iff (ascending_closure a seeds) fun q => ?_
  rw [mem_closure]
  constructor
  · rintro ⟨hlt, r, hr, hpath⟩
    obtain ⟨_, s, hs, hfirst⟩ := mem_closure.mp hr
    exact mem_closure.mpr ⟨hlt, s, hs, hfirst.trans hpath⟩
  · intro hq
    exact ⟨(mem_closure.mp hq).1, q, hq, .refl q⟩

/-- Every silent edge leads to a state. -/
def SilentClosed (a : Nfa σ τ) : Prop := ∀ s ∈ a.states, ∀ q ∈ s.silent, q < a.size

theorem SilentClosed.lt_size (h : a.SilentClosed) {q r : StateId} (hr : r ∈ a.silentFrom q) :
    r < a.size := by
  have hq := lt_size_of_mem_silentFrom hr
  rw [silentFrom, Array.getElem?_eq_getElem hq] at hr
  exact h _ (Array.getElem_mem hq) r hr

theorem SilentClosed.allExist_silentFrom (h : a.SilentClosed) (q : StateId) :
    a.allExist (a.silentFrom q) = true := by
  simp only [allExist, List.all_eq_true, decide_eq_true_eq]
  exact fun r hr => h.lt_size hr

theorem SilentClosed.closure?_eq (h : a.SilentClosed) (hseeds : ∀ q ∈ seeds, q < a.size) :
    a.closure? seeds = some (a.closure seeds) := by
  have hexist : a.allExist seeds = true := by simpa [allExist] using hseeds
  simp [closure?, hexist, h.allExist_silentFrom]

/-- The closure of states exists, and the search for it comes to its end with no state left pending,
however many rounds beyond the number of states it is given.  It lists in ascending order what zero
or more silent edges reach from the seeds.  Order and repetition of the seeds do not matter to it,
more seeds have a larger closure, and a closure is its own closure. -/
theorem closure?_exact (ha : a.SilentClosed) (hseeds : ∀ q ∈ seeds, q < a.size) :
    ∃ members, a.closure? seeds = some members ∧
      (∀ n, a.size ≤ n →
        (a.explore n (seeds.foldl Search.reach (.start a.size))).pending = [] ∧
        (a.explore n (seeds.foldl Search.reach (.start a.size))).toList = members) ∧
      members.Pairwise (· < ·) ∧
      (∀ q, q ∈ members ↔
        ∃ r ∈ seeds, Relation.ReflTransGen (fun p s => s ∈ a.silentFrom p) r q) ∧
      (∀ others, (∀ q, q ∈ others ↔ q ∈ seeds) → a.closure? others = some members) ∧
      (∀ more, seeds ⊆ more → (∀ q ∈ more, q < a.size) →
        ∃ larger, a.closure? more = some larger ∧ members ⊆ larger) ∧
      a.closure? members = some members := by
  refine ⟨a.closure seeds, ha.closure?_eq hseeds, fun n hn => ?_, ascending_closure a seeds,
    fun q => ?_, fun others hothers => ?_, fun more hmore hlt => ?_, ?_⟩
  · obtain ⟨_, _, hdone⟩ :=
      exploring_explore n (exploring_start a seeds) (hn.trans (Nat.le_add_left _ _))
    exact ⟨hdone, toList_explore a seeds hn⟩
  · have hstays : ∀ r ∈ seeds, a.Path r [] q → q < a.size := by
      intro r hr hpath
      have hlast := Relation.ReflTransGen.cases_tail (path_nil_iff.mp hpath)
      rcases hlast with rfl | ⟨p, _, hedge⟩
      · exact hseeds q hr
      · exact ha.lt_size hedge
    rw [mem_closure]
    simp only [← path_nil_iff]
    exact ⟨fun h => h.2, fun ⟨r, hr, hpath⟩ => ⟨hstays r hr hpath, r, hr, hpath⟩⟩
  · rw [ha.closure?_eq fun q hq => hseeds q ((hothers q).mp hq), closure_congr hothers]
  · exact ⟨_, ha.closure?_eq hlt, closure_mono hmore⟩
  · rw [ha.closure?_eq fun q hq => (mem_closure.mp hq).1, closure_closure]

/-- Silent edges go round in a ring of three states, and lead into it from a fourth one. -/
def ring : Nfa Bool Unit :=
  ⟨#[{ silent := [1] }, { silent := [2] }, { silent := [0, 1] }, { silent := [2, 2] }], 0⟩

theorem closure?_exact_ring : ring.SilentClosed ∧ (∀ q ∈ [2, 0, 2], q < ring.size) ∧
    (∀ q, q ∈ [0, 1, 2] ↔
      ∃ r ∈ [2, 0, 2], Relation.ReflTransGen (fun p s => s ∈ ring.silentFrom p) r q) ∧
    ring.closure? [0, 2] = some [0, 1, 2] ∧ ring.closure? [0, 1, 2] = some [0, 1, 2] := by
  have hring : ring.SilentClosed := by unfold SilentClosed; decide
  have hseeds : ∀ q ∈ [2, 0, 2], q < ring.size := by decide
  obtain ⟨members, hmembers, _, _, hreached, hcongr, _, hagain⟩ := closure?_exact hring hseeds
  obtain rfl : [0, 1, 2] = members := by
    have hclosure : ring.closure? [2, 0, 2] = some [0, 1, 2] := by decide +kernel
    exact Option.some.inj (hclosure.symm.trans hmembers)
  exact ⟨hring, hseeds, hreached, hcongr [0, 2] (by simp [or_comm]), hagain⟩

end SilentEdges

end Nfa

end ParserForge

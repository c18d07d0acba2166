import Mathlib
import ParserForge.Parsing.Machine

/-!
Reductions in a row.  Between two shifts the next symbol does not change, so what happens is given
by the stack alone, and by no more of it than is taken off.  A stack that comes back on top of
itself does so forever.  In a row that ends, the states that were put on the stack and are still
there are therefore distinct, which bounds the length of the row.
-/

namespace ParserForge

namespace Machine

variable {σ α ν ρ : Type} {m : Machine σ α ν ρ} {a : Option α} {s s' r u : List σ} {n k : Nat}

/-- The stack after a reduction. -/
def reduceStep (m : Machine σ α ν ρ) (a : Option α) : List σ → Option (List σ)
  | [] => none
  | top :: below =>
      match m.action top a with
      | .reduce _ head arity =>
          match (top :: below).drop arity with
          | [] => none
          | q :: stack => (m.goto q head).map fun next => next :: q :: stack
      | _ => none

/-- The stack after reductions in a row. -/
def reduceSteps (m : Machine σ α ν ρ) (a : Option α) : Nat → List σ → Option (List σ)
  | 0, s => some s
  | n + 1, s => (m.reduceStep a s).bind fun s => reduceSteps m a n s

/-- A row of reductions from the stack comes to its end. -/
def Settles (m : Machine σ α ν ρ) (a : Option α) (s : List σ) : Prop :=
  ∃ n, m.reduceSteps a n s = none

/-- Reductions lead to a stack whose topmost state takes the symbol, or accepts. -/
def Takes (m : Machine σ α ν ρ) (a : Option α) (s : List σ) : Prop :=
  ∃ n s' top, m.reduceSteps a n s = some s' ∧ s'.head? = some top ∧
    ((∃ next, m.action top a = .shift next) ∨ m.action top a = .accept)

theorem reduceStep_eq_some_iff : m.reduceStep a s = some s' ↔
    ∃ top p head arity q rest next, s.head? = some top ∧
      m.action top a = .reduce p head arity ∧ s.drop arity = q :: rest ∧
      m.goto q head = some next ∧ s' = next :: q :: rest := by
  cases s with
  | nil => simp [reduceStep]
  | cons top below =>
      constructor
      · intro h
        simp only [reduceStep] at h
        split at h
        · next p head arity haction =>
            split at h
            · cases h
            · next q rest hdrop =>
                obtain ⟨next, hnext, rfl⟩ := Option.map_eq_some_iff.mp h
                exact ⟨top, p, head, arity, q, rest, next, rfl, haction, hdrop, hnext, rfl⟩
        · cases h
      · rintro ⟨_, p, head, arity, q, rest, next, ⟨rfl⟩, haction, hdrop, hnext, rfl⟩
        simp only [reduceStep, haction, hdrop, hnext, Option.map_some]

/-- A reduction does not look at what it does not take off. -/
theorem reduceStep_append (h : m.reduceStep a s = some s') (r : List σ) :
    m.reduceStep a (s ++ r) = some (s' ++ r) := by
  obtain ⟨top, p, head, arity, q, rest, next, htop, haction, hdrop, hnext, rfl⟩ :=
    reduceStep_eq_some_iff.mp h
  have hlt : arity < s.length := by
    by_contra hle
    rw [List.drop_eq_nil_of_le (Nat.le_of_not_lt hle)] at hdrop
    cases hdrop
  refine reduceStep_eq_some_iff.mpr ⟨top, p, head, arity, q, rest ++ r, next, ?_, haction, ?_,
    hnext, rfl⟩
  · rw [List.head?_append, htop, Option.some_or]
  · rw [List.drop_append_of_le_length hlt.le, hdrop, List.cons_append]

theorem reduceSteps_add (n k : Nat) (s : List σ) :
    m.reduceSteps a (n + k) s = (m.reduceSteps a n s).bind fun s => m.reduceSteps a k s := by
  induction n generalizing s with
  | zero => simp [reduceSteps]
  | succ n ih =>
      rw [Nat.add_right_comm, reduceSteps, reduceSteps, Option.bind_assoc]
      simp only [ih]

theorem reduceSteps_succ (n : Nat) (s : List σ) :
    m.reduceSteps a (n + 1) s = (m.reduceSteps a n s).bind fun s => m.reduceStep a s := by
  rw [reduceSteps_add]
  simp [reduceSteps]

theorem reduceSteps_append (h : m.reduceSteps a n s = some s') (r : List σ) :
    m.reduceSteps a n (s ++ r) = some (s' ++ r) := by
  induction n generalizing s with
  | zero =>
      cases h
      rfl
  | succ n ih =>
      obtain ⟨t, ht, hrest⟩ := Option.bind_eq_some_iff.mp h
      rw [reduceSteps, reduceStep_append ht r]
      exact ih hrest

/-- Earlier in a row that goes on there is a stack, too. -/
theorem exists_reduceSteps (h : m.reduceSteps a n s = some s') (hk : k ≤ n) :
    ∃ t, m.reduceSteps a k s = some t ∧ m.reduceSteps a (n - k) t = some s' := by
  rw [← Nat.add_sub_cancel' hk, reduceSteps_add] at h
  exact Option.bind_eq_some_iff.mp h

/-- A row that has ended does not go on. -/
theorem reduceSteps_eq_none (h : m.reduceSteps a n s = none) (hk : n ≤ k) :
    m.reduceSteps a k s = none := by
  rw [← Nat.add_sub_cancel' hk, reduceSteps_add, h, Option.bind_none]

/-- A stack that comes back on top of itself does so forever. -/
theorem not_settles_of_return (h : m.reduceSteps a (n + 1) s = some (s ++ r)) :
    ¬ m.Settles a s := by
  rintro ⟨k, hk⟩
  induction k using Nat.strong_induction_on with
  | _ k ih =>
      have hlt : n + 1 < k := by
        by_contra hle
        obtain ⟨t, ht, _⟩ := exists_reduceSteps h (Nat.le_of_not_lt hle)
        rw [hk] at ht
        cases ht
      cases hrest : m.reduceSteps a (k - (n + 1)) s with
      | none => exact ih (k - (n + 1)) (by omega) hrest
      | some t =>
          rw [← Nat.add_sub_cancel' hlt.le, reduceSteps_add, h, Option.bind_some,
            reduceSteps_append hrest] at hk
          cases hk

theorem Settles.of_append (h : m.Settles a (s ++ r)) : m.Settles a s := by
  obtain ⟨n, hn⟩ := h
  refine ⟨n, ?_⟩
  cases hs : m.reduceSteps a n s with
  | none => rfl
  | some t =>
      rw [reduceSteps_append hs] at hn
      cases hn

theorem Settles.of_reduceSteps (h : m.Settles a s) (hs : m.reduceSteps a n s = some s') :
    m.Settles a s' := by
  obtain ⟨k, hk⟩ := h
  refine ⟨k, ?_⟩
  have := reduceSteps_eq_none hk (Nat.le_add_left k n)
  rwa [reduceSteps_add, hs] at this

theorem Takes.of_action {top : σ} (htop : s.head? = some top)
    (h : (∃ next, m.action top a = .shift next) ∨ m.action top a = .accept) : m.Takes a s :=
  ⟨0, s, top, rfl, htop, h⟩

theorem Takes.reduceSteps (h : m.Takes a s') (hs : m.reduceSteps a n s = some s') :
    m.Takes a s := by
  obtain ⟨k, u, top, hu, htop, haction⟩ := h
  exact ⟨n + k, u, top, by rw [reduceSteps_add, hs, Option.bind_some, hu], htop, haction⟩

/-- A state that takes the symbol does not reduce before it. -/
theorem reduceStep_eq_none_of_action {top : σ} (htop : s.head? = some top)
    (h : (∃ next, m.action top a = .shift next) ∨ m.action top a = .accept) :
    m.reduceStep a s = none := by
  cases hreduce : m.reduceStep a s with
  | none => rfl
  | some s' =>
      obtain ⟨top', p, head, arity, _, _, _, htop', haction, _⟩ := reduceStep_eq_some_iff.mp hreduce
      cases htop.symm.trans htop'
      rcases h with ⟨next, h⟩ | h
      · cases haction.symm.trans h
      · cases haction.symm.trans h

/-- The reductions before a symbol that is taken can only be the ones that are made. -/
theorem Takes.of_reduceStep (h : m.Takes a s) (hs : m.reduceStep a s = some s') :
    m.Takes a s' := by
  obtain ⟨n, u, top, hu, htop, haction⟩ := h
  cases n with
  | zero =>
      cases hu
      rw [reduceStep_eq_none_of_action htop haction] at hs
      cases hs
  | succ n =>
      rw [Machine.reduceSteps, hs, Option.bind_some] at hu
      exact ⟨n, u, top, hu, htop, haction⟩

/-- A state that has nothing to do on the symbol does not take it. -/
theorem not_takes_of_action {top : σ} (htop : s.head? = some top) (h : m.action top a = .error) :
    ¬ m.Takes a s := by
  rintro ⟨n, u, top', hu, htop', haction⟩
  cases n with
  | zero =>
      cases hu
      cases htop.symm.trans htop'
      rw [h] at haction
      simp at haction
  | succ n =>
      obtain ⟨s', hs', _⟩ := Option.bind_eq_some_iff.mp hu
      obtain ⟨x, p, head, arity, _, _, _, hx, hreduce, _⟩ := reduceStep_eq_some_iff.mp hs'
      cases htop.symm.trans hx
      cases h.symm.trans hreduce

theorem Takes.settles (h : m.Takes a s) : m.Settles a s := by
  obtain ⟨n, u, top, hu, htop, haction⟩ := h
  refine ⟨n + 1, ?_⟩
  rw [reduceSteps_succ, hu, Option.bind_some]
  exact reduceStep_eq_none_of_action htop haction

/-- From each of its states alone, reductions lead to what is on top of it. -/
def Stacked (m : Machine σ α ν ρ) (a : Option α) (u : List σ) : Prop :=
  ∀ v q w, u = v ++ q :: w → ∃ n, m.reduceSteps a n [q] = some (v ++ [q])

theorem stacked_singleton (q : σ) : m.Stacked a [q] := by
  intro v x w h
  cases v with
  | nil => exact ⟨0, rfl⟩
  | cons y v => simp at h

/-- A reduction that leaves a state of a stacked list leads to a stacked list again. -/
theorem Stacked.reduce {q next : σ} {v w : List σ} {p : ρ} {head : ν}
    (h : m.Stacked a (v ++ q :: w))
    (haction : ∀ top, (v ++ q :: w).head? = some top → m.action top a = .reduce p head v.length)
    (hnext : m.goto q head = some next) : m.Stacked a (next :: q :: w) := by
  intro u x z heq
  cases u with
  | nil => exact ⟨0, rfl⟩
  | cons y u =>
      rw [List.cons_append, List.cons.injEq] at heq
      obtain ⟨rfl, heq⟩ := heq
      obtain ⟨n, hn⟩ := h (v ++ u) x z (by rw [heq, List.append_assoc])
      refine ⟨n + 1, ?_⟩
      rw [reduceSteps_succ, hn, Option.bind_some, List.append_assoc]
      -- the segment above `x` begins like the whole list, and `q` is its first state that stays
      obtain ⟨rest, hrest⟩ : ∃ rest, u ++ [x] = q :: rest := by
        cases u with
        | nil => exact ⟨[], by simpa using (List.cons.inj heq).1.symm⟩
        | cons y u => exact ⟨u ++ [x], by rw [List.cons_append, (List.cons.inj heq).1]⟩
      have hsplit : v ++ q :: w = (v ++ q :: rest) ++ z := by
        rw [← hrest, heq]
        simp
      obtain ⟨top, htop⟩ : ∃ top, (v ++ q :: rest).head? = some top := by
        cases v with
        | nil => exact ⟨q, rfl⟩
        | cons y v => exact ⟨y, rfl⟩
      rw [hrest]
      refine reduceStep_eq_some_iff.mpr ⟨top, p, head, v.length, q, rest, next, htop, ?_,
        List.drop_left, hnext, by rw [← hrest, List.cons_append]⟩
      refine haction top ?_
      rw [hsplit, List.head?_append, htop, Option.some_or]

/-- After reductions in a row that ends, the stack consists of distinct states on top of what is
left of the stack that the row began with. -/
structure Risen (m : Machine σ α ν ρ) (a : Option α) (s : List σ) (u : List σ) (k : Nat) :
    Prop where
  le : k ≤ s.length
  stacked : m.Stacked a u
  nodup : u.Nodup

theorem Stacked.notMem_of_settles {q : σ} (h : m.Stacked a (q :: u)) (hsettles : m.Settles a [q]) :
    q ∉ u := by
  intro hq
  obtain ⟨v, w, rfl⟩ := List.append_of_mem hq
  obtain ⟨n, hn⟩ := h (q :: v) q w rfl
  cases n with
  | zero => simp [reduceSteps] at hn
  | succ n => exact not_settles_of_return (r := v ++ [q]) hn hsettles

section

variable {q top : σ} {rest : List σ} {p : ρ} {head : ν} {arity : Nat}

/-- A reduction that takes fewer states than were put on the stack. -/
theorem Risen.reduce_of_lt {next : σ} (h : m.Risen a s u k) (harity : arity < u.length)
    (htop : (u ++ s.drop k).head? = some top) (haction : m.action top a = .reduce p head arity)
    (hdrop : (u ++ s.drop k).drop arity = q :: rest) (hnext : m.goto q head = some next)
    (halone : m.Settles a [next]) :
    ∃ w, rest = w ++ s.drop k ∧ m.Risen a s (next :: q :: w) k := by
  rw [List.drop_append_of_le_length harity.le] at hdrop
  obtain ⟨w, hw, hrest⟩ : ∃ w, u.drop arity = q :: w ∧ rest = w ++ s.drop k := by
    cases hu : u.drop arity with
    | nil =>
        rw [List.drop_eq_nil_iff] at hu
        omega
    | cons y w =>
        rw [hu, List.cons_append] at hdrop
        obtain ⟨rfl, rfl⟩ := List.cons.inj hdrop
        exact ⟨w, rfl, rfl⟩
  have hu : u = u.take arity ++ q :: w := by rw [← hw, List.take_append_drop]
  have hlength : (u.take arity).length = arity := List.length_take_of_le harity.le
  have hstacked : m.Stacked a (next :: q :: w) := by
    refine Stacked.reduce (v := u.take arity) (p := p) (hu ▸ h.stacked) ?_ hnext
    intro top' htop'
    rw [← hu] at htop'
    rw [List.head?_append, htop', Option.some_or] at htop
    rw [hlength, Option.some.inj htop]
    exact haction
  refine ⟨w, hrest, h.le, hstacked, ?_⟩
  refine List.nodup_cons.mpr ⟨hstacked.notMem_of_settles halone, ?_⟩
  exact (List.nodup_append.mp (hu ▸ h.nodup)).2.1

/-- A reduction that takes all states that were put on the stack, and maybe more. -/
theorem risen_of_le (next : σ) (harity : u.length ≤ arity)
    (hdrop : (u ++ s.drop k).drop arity = q :: rest) :
    ∃ l, q :: rest = s.drop l ∧ m.Risen a s [next] l := by
  have hdrop' : s.drop (k + (arity - u.length)) = q :: rest := by
    rw [← List.drop_drop, ← hdrop, List.drop_append, List.drop_eq_nil_of_le harity,
      List.nil_append]
  refine ⟨_, hdrop'.symm, ?_, stacked_singleton next, List.nodup_singleton next⟩
  by_contra hle
  rw [List.drop_eq_nil_of_le (by omega)] at hdrop'
  cases hdrop'

end

/-- Reductions in a row that ends rise above what they leave of the stack. -/
theorem risen_reduceSteps (hsettles : m.Settles a s) (h : m.reduceSteps a n s = some s') :
    ∃ u k, s' = u ++ s.drop k ∧ m.Risen a s u k := by
  induction n generalizing s' with
  | zero =>
      cases h
      exact ⟨[], 0, rfl, Nat.zero_le _, by simp [Stacked], List.nodup_nil⟩
  | succ n ih =>
      have hafter := hsettles.of_reduceSteps h
      rw [reduceSteps_succ] at h
      obtain ⟨t, ht, hstep⟩ := Option.bind_eq_some_iff.mp h
      obtain ⟨u, k, rfl, hrisen⟩ := ih ht
      obtain ⟨top, p, head, arity, q, rest, next, htop, haction, hdrop, hnext, rfl⟩ :=
        reduceStep_eq_some_iff.mp hstep
      by_cases harity : arity < u.length
      · have halone : m.Settles a [next] := Settles.of_append (r := q :: rest) hafter
        obtain ⟨w, hw, hrisen⟩ :=
          hrisen.reduce_of_lt harity htop haction hdrop hnext halone
        exact ⟨next :: q :: w, k, by rw [hw]; rfl, hrisen⟩
      · obtain ⟨l, hl, hrisen⟩ := risen_of_le next (Nat.le_of_not_lt harity) hdrop
        exact ⟨[next], l, by rw [hl]; rfl, hrisen⟩

end Machine

end ParserForge

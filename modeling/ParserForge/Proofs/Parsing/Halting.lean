import Mathlib
import ParserForge.Proofs.Parsing.Reductions

/-!
The rounds that a parse is given are enough: a parse that ends at all ends within them.  A row of
reductions that ends cannot come by the same stack twice, and its stacks are given by a list of
distinct states and by how much is left of the stack that the row began with.
-/

namespace ParserForge

namespace Machine

variable {σ α ν ρ : Type} {m : Machine σ α ν ρ} {a : Option α} {s s' u : List σ} {n k : Nat}
  {c d : Configuration σ α ρ} {out : Except (ParseError σ) (Derivation ρ)}

/-! Rows of reductions. -/

/-- Outside of some states, the machine does not reduce. -/
def ReducesWithin (m : Machine σ α ν ρ) (live : Finset σ) : Prop :=
  ∀ q a p head arity, m.action q a = .reduce p head arity → q ∈ live

variable {live : Finset σ}

theorem ReducesWithin.mem_of_reduceStep (hlive : m.ReducesWithin live)
    (h : m.reduceStep a s = some s') : ∃ top, s.head? = some top ∧ top ∈ live := by
  obtain ⟨top, p, head, arity, _, _, _, htop, haction, _⟩ := reduceStep_eq_some_iff.mp h
  exact ⟨top, htop, hlive top a p head arity haction⟩

/-- All states that reductions have left on a stack have reduced, apart from the topmost one. -/
theorem Stacked.tail_subset (hlive : m.ReducesWithin live) (h : m.Stacked a u) :
    ∀ q ∈ u.tail, q ∈ live := by
  intro q hq
  cases u with
  | nil => cases hq
  | cons x u =>
      obtain ⟨v, w, rfl⟩ := List.append_of_mem hq
      obtain ⟨n, hn⟩ := h (x :: v) q w rfl
      cases n with
      | zero => simp [reduceSteps] at hn
      | succ n =>
          obtain ⟨t, ht, _⟩ := Option.bind_eq_some_iff.mp hn
          obtain ⟨top, htop, hmem⟩ := hlive.mem_of_reduceStep ht
          cases htop
          exact hmem

/-- A list of states as the states at its places. -/
def places (live : Finset σ) (u : List σ) : Fin live.card → Option σ := fun i => u[i]?

theorem eq_of_places {v : List σ} (hu : u.length ≤ live.card) (hv : v.length ≤ live.card)
    (h : places live u = places live v) : u = v := by
  refine List.ext_getElem? fun i => ?_
  by_cases hi : i < live.card
  · exact congrFun h ⟨i, hi⟩
  · rw [List.getElem?_eq_none (by omega), List.getElem?_eq_none (by omega)]

theorem places_mem (hu : ∀ q ∈ u, q ∈ live) :
    places live u ∈ Fintype.piFinset fun _ : Fin live.card => live.insertNone := by
  rw [Fintype.mem_piFinset]
  intro i
  rw [Finset.mem_insertNone]
  intro q hq
  exact hu q (List.mem_of_getElem? hq)

theorem length_le_card (hnodup : u.Nodup) (hu : ∀ q ∈ u, q ∈ live) : u.length ≤ live.card := by
  classical
  rw [← List.toFinset_card_of_nodup hnodup]
  exact Finset.card_le_card fun q hq => hu q (List.mem_toFinset.mp hq)

/-- The number of reductions in a row that ends. -/
def rowBound (states height : Nat) : Nat := (height + 1) * (states + 1) ^ states

/-- A row of reductions that ends does not come by the same stack twice. -/
theorem Settles.eq_of_reduceSteps {i j : Nat} (hsettles : m.Settles a s)
    (hi : m.reduceSteps a i s = some u) (hj : m.reduceSteps a j s = some u) : i = j := by
  have hnot : ∀ i j, m.reduceSteps a i s = some u → m.reduceSteps a j s = some u → ¬ i < j := by
    intro i j hi hj hlt
    obtain ⟨l, rfl⟩ := Nat.exists_eq_add_of_lt hlt
    rw [Nat.add_assoc, reduceSteps_add, hi, Option.bind_some] at hj
    refine not_settles_of_return (n := l) (r := []) ?_ (hsettles.of_reduceSteps hi)
    rwa [List.append_nil]
  exact Nat.le_antisymm (Nat.not_lt.mp (hnot j i hj hi)) (Nat.not_lt.mp (hnot i j hi hj))

/-- Before its last reduction, a row that ends has only reducing states on top of what is left of
the stack that it began with. -/
theorem exists_risen_of_lt (hlive : m.ReducesWithin live) (hsettles : m.Settles a s)
    (h : m.reduceSteps a n s = some s') {i : Nat} (hi : i < n) :
    ∃ u k, m.reduceSteps a i s = some (u ++ s.drop k) ∧ k ≤ s.length ∧ u.Nodup ∧
      ∀ q ∈ u, q ∈ live := by
  obtain ⟨t, ht, hrest⟩ := exists_reduceSteps h hi.le
  obtain ⟨u, k, rfl, hrisen⟩ := risen_reduceSteps hsettles ht
  refine ⟨u, k, ht, hrisen.le, hrisen.nodup, ?_⟩
  obtain ⟨j, hj⟩ : ∃ j, n - i = j + 1 := ⟨n - i - 1, by omega⟩
  rw [hj] at hrest
  obtain ⟨t, ht, _⟩ := Option.bind_eq_some_iff.mp hrest
  obtain ⟨top, htop, hmem⟩ := hlive.mem_of_reduceStep ht
  intro q hq
  cases u with
  | nil => cases hq
  | cons x u =>
      rcases List.mem_cons.mp hq with rfl | hq
      · cases htop
        exact hmem
      · exact hrisen.stacked.tail_subset hlive q hq

/-- A row of reductions that ends is short. -/
theorem le_rowBound (hlive : m.ReducesWithin live) (hsettles : m.Settles a s)
    (h : m.reduceSteps a n s = some s') : n ≤ rowBound live.card s.length := by
  classical
  choose u k hsteps hk hnodup hmem using
    fun i : Fin n => exists_risen_of_lt hlive hsettles h i.isLt
  let code : Fin n → Nat × (Fin live.card → Option σ) := fun i => (k i, places live (u i))
  have hinj : Function.Injective code := by
    intro i j hij
    obtain ⟨hkij, huij⟩ := Prod.mk.inj hij
    have hu := eq_of_places (length_le_card (hnodup i) (hmem i))
      (length_le_card (hnodup j) (hmem j)) huij
    refine Fin.ext (hsettles.eq_of_reduceSteps (hsteps i) ?_)
    rw [hu, hkij]
    exact hsteps j
  have hcard : (Finset.univ.image code).card ≤ (Finset.range (s.length + 1) ×ˢ
      Fintype.piFinset fun _ : Fin live.card => live.insertNone).card := by
    refine Finset.card_le_card fun x hx => ?_
    obtain ⟨i, _, rfl⟩ := Finset.mem_image.mp hx
    exact Finset.mem_product.mpr
      ⟨Finset.mem_range.mpr (Nat.lt_succ_of_le (hk i)), places_mem (hmem i)⟩
  rw [Finset.card_image_of_injective _ hinj, Finset.card_univ, Fintype.card_fin,
    Finset.card_product, Finset.card_range, Fintype.card_piFinset_const,
    Finset.card_insertNone] at hcard
  exact hcard

/-- A row of reductions that ends makes the stack no higher than by the states and one more. -/
theorem length_reduceSteps_le (hlive : m.ReducesWithin live) (hsettles : m.Settles a s)
    (h : m.reduceSteps a n s = some s') : s'.length ≤ s.length + live.card + 1 := by
  obtain ⟨u, k, rfl, hrisen⟩ := risen_reduceSteps hsettles h
  have htail := length_le_card hrisen.nodup.tail (hrisen.stacked.tail_subset hlive)
  rw [List.length_tail] at htail
  rw [List.length_append, List.length_drop]
  omega

/-! Runs. -/

theorem run_mono (h : m.run n c = some out) (hk : n ≤ k) : m.run k c = some out := by
  induction n generalizing c k with
  | zero => cases h
  | succ n ih =>
      obtain ⟨k, rfl⟩ : ∃ l, k = l + 1 := ⟨k - 1, by omega⟩
      rw [run] at h ⊢
      split at h
      · exact ih h (Nat.le_of_succ_le_succ hk)
      · exact h
      · exact h

theorem run_succ_of_step (h : m.step c = .running d) (n : Nat) : m.run (n + 1) c = m.run n d := by
  rw [run, h]

/-- A reduction of the stack is a step of the parse. -/
theorem step_of_reduceStep (h : m.reduceStep c.rest.head? c.stack = some s) :
    ∃ d, m.step c = .running d ∧ d.stack = s ∧ d.rest = c.rest := by
  obtain ⟨top, p, head, arity, q, rest, next, htop, haction, hdrop, hnext, rfl⟩ :=
    reduceStep_eq_some_iff.mp h
  obtain ⟨stack, input, index, steps, reductions⟩ := c
  cases stack with
  | nil => cases htop
  | cons x below =>
      cases htop
      simp only [step, haction, hdrop, hnext]
      exact ⟨_, rfl, rfl, rfl⟩

/-- A step that is no reduction of the stack takes a symbol, if the parse goes on. -/
theorem shift_of_step (h : m.reduceStep c.rest.head? c.stack = none)
    (hstep : m.step c = .running d) :
    c.rest.length = d.rest.length + 1 ∧ d.stack.length = c.stack.length + 1 := by
  obtain ⟨stack, input, index, steps, reductions⟩ := c
  cases stack with
  | nil => cases hstep
  | cons top below =>
      simp only [step] at hstep
      split at hstep
      · split at hstep
        · cases hstep
        · cases hstep
          exact ⟨rfl, rfl⟩
      · next p head arity haction =>
          simp only [reduceStep, haction] at h
          split at hstep
          · cases hstep
          · next q rest hdrop =>
              simp only [hdrop] at h
              split at hstep
              · cases hstep
              · next next hnext => simp [hnext] at h
      · cases hstep
      · cases hstep

theorem run_reduceSteps (h : m.reduceSteps c.rest.head? n c.stack = some s) :
    ∃ d, d.stack = s ∧ d.rest = c.rest ∧ ∀ k, m.run (n + k) c = m.run k d := by
  induction n generalizing c with
  | zero =>
      cases h
      exact ⟨c, rfl, rfl, fun k => by rw [Nat.zero_add]⟩
  | succ n ih =>
      obtain ⟨t, ht, hrest⟩ := Option.bind_eq_some_iff.mp h
      obtain ⟨e, he, rfl, hinput⟩ := step_of_reduceStep ht
      obtain ⟨d, hd, hinput', hrun⟩ := ih (hinput ▸ hrest)
      refine ⟨d, hd, hinput'.trans hinput, fun k => ?_⟩
      rw [Nat.add_right_comm, run_succ_of_step he, hrun]

theorem settles_of_run (h : m.run n c = some out) : m.Settles c.rest.head? c.stack := by
  refine ⟨n, ?_⟩
  cases hsteps : m.reduceSteps c.rest.head? n c.stack with
  | none => rfl
  | some s =>
      obtain ⟨d, _, _, hrun⟩ := run_reduceSteps hsteps
      have := hrun 0
      rw [Nat.add_zero, h] at this
      cases this

/-- A row that ends has a last stack. -/
theorem Settles.last (h : m.Settles a s) :
    ∃ n s', m.reduceSteps a n s = some s' ∧ m.reduceStep a s' = none := by
  obtain ⟨n, hn⟩ := h
  induction n with
  | zero => cases hn
  | succ n ih =>
      cases hsteps : m.reduceSteps a n s with
      | none => exact ih hsteps
      | some s' =>
          rw [reduceSteps_succ, hsteps, Option.bind_some] at hn
          exact ⟨n, s', hsteps, hn⟩

/-- The number of steps of a parse that ends, with so many symbols to go. -/
def stepBound (states length height : Nat) : Nat :=
  (length + 1) * ((height + 1 + length * (states + 2)) * (states + 1) ^ states + 1)

theorem rowBound_lt_stepBound (states length height : Nat) :
    rowBound states height < stepBound states length height := by
  have hrow : rowBound states height ≤
      (height + 1 + length * (states + 2)) * (states + 1) ^ states :=
    Nat.mul_le_mul_right _ (Nat.le_add_right _ _)
  rw [stepBound, Nat.add_mul length 1, Nat.one_mul]
  omega

theorem stepBound_mono (states length : Nat) {height height' : Nat} (h : height ≤ height') :
    stepBound states length height ≤ stepBound states length height' := by
  unfold stepBound
  gcongr

theorem stepBound_succ (states length height : Nat) :
    rowBound states height + 1 + stepBound states length (height + states + 2) ≤
      stepBound states (length + 1) height := by
  have hshift : height + states + 2 + 1 + length * (states + 2) =
      height + 1 + (length + 1) * (states + 2) := by ring
  have hrow : rowBound states height ≤
      (height + 1 + (length + 1) * (states + 2)) * (states + 1) ^ states :=
    Nat.mul_le_mul_right _ (Nat.le_add_right _ _)
  rw [stepBound, stepBound, hshift, Nat.add_mul (length + 1) 1, Nat.one_mul]
  omega

/-- A parse that ends does so before long. -/
theorem run_stepBound (hlive : m.ReducesWithin live) (h : m.run n c = some out) :
    m.run (stepBound live.card c.rest.length c.stack.length) c = some out := by
  induction hlength : c.rest.length using Nat.strong_induction_on generalizing c n with
  | _ length ih =>
      have hsettles := settles_of_run h
      obtain ⟨j, last, hsteps, hlast⟩ := hsettles.last
      have hj := le_rowBound hlive hsettles hsteps
      have hheight := length_reduceSteps_le hlive hsettles hsteps
      obtain ⟨d, rfl, hinput, hrun⟩ := run_reduceSteps hsteps
      have hd := hrun n
      rw [run_mono h (Nat.le_add_left n j)] at hd
      cases n with
      | zero => cases h
      | succ n =>
          cases hstep : m.step d with
          | running e =>
              rw [run_succ_of_step hstep] at hd
              obtain ⟨hshift, hstack⟩ := shift_of_step (hinput ▸ hlast) hstep
              rw [hinput, hlength] at hshift
              have he := hrun (stepBound live.card e.rest.length e.stack.length + 1)
              rw [run_succ_of_step hstep, ih _ (by omega) hd.symm rfl] at he
              refine run_mono he ?_
              have hmono := stepBound_mono live.card e.rest.length
                (by omega : e.stack.length ≤ c.stack.length + live.card + 2)
              have := stepBound_succ live.card e.rest.length c.stack.length
              rw [hshift]
              omega
          | accepted derivation =>
              have hone : m.run 1 d = some out := by
                rw [run, hstep] at hd ⊢
                exact hd.symm
              rw [← hrun 1] at hone
              exact run_mono hone (Nat.lt_of_le_of_lt hj (rowBound_lt_stepBound _ _ _))
          | refused e =>
              have hone : m.run 1 d = some out := by
                rw [run, hstep] at hd ⊢
                exact hd.symm
              rw [← hrun 1] at hone
              exact run_mono hone (Nat.lt_of_le_of_lt hj (rowBound_lt_stepBound _ _ _))

theorem stepBound_le_enough (states length : Nat) :
    stepBound states length 1 ≤ enough states length := by
  have hpow : (states + 1) ^ states ≤ (states + 2) ^ states :=
    Nat.pow_le_pow_left (Nat.le_succ _) _
  have hfactor : 1 + 1 + length * (states + 2) ≤ (length + 2) * (states + 2) := by nlinarith
  have hpos : 0 < (states + 2) ^ states := Nat.pow_pos (Nat.succ_pos _)
  have hone : length + 2 ≤ (length + 2) * (states + 2) ^ (states + 1) :=
    Nat.le_mul_of_pos_right _ (Nat.pow_pos (Nat.succ_pos _))
  calc stepBound states length 1
      ≤ (length + 1) * ((length + 2) * (states + 2) * (states + 2) ^ states + 1) := by
        unfold stepBound
        gcongr
    _ = (length + 1) * ((length + 2) * (states + 2) ^ (states + 1)) + (length + 1) := by ring
    _ ≤ (length + 2) * ((length + 2) * (states + 2) ^ (states + 1)) := by nlinarith
    _ ≤ (length + 2) * ((length + 2) * (states + 2) ^ (states + 4)) := by
        gcongr
        · omega
        · omega
    _ = enough states length := by
        rw [enough, ← Nat.mul_assoc]
        rfl

/-- A parse has an answer if and only if it ends. -/
theorem parse?_eq_some_iff (hlive : m.ReducesWithin live) (input : List α) :
    m.parse? live.card input = some out ↔ ∃ n, m.run n (m.start input) = some out := by
  refine ⟨fun h => ⟨_, h⟩, fun ⟨n, h⟩ => ?_⟩
  exact run_mono (run_stepBound hlive h) (stepBound_le_enough live.card input.length)

end Machine

end ParserForge
